import MemoryHierarchy.Proofs.Dram.Progress

/-!
What the requests of a run hold, those included that have retired.

A request lets go of everything when its transfer has ended. Its bank and the data bus are not
claimed beyond that cycle, so in a run whose cycles do not go back all started requests, retired
or not, keep apart on the data bus and on their banks (`run_apart`). A command slot may last
longer: the command bus is kept apart in every run exactly if a command is over before the bank
and the transfer behind it are (`bus_apart_over_runs`).
-/

namespace MemoryHierarchy.Dram

/-! ## Requests that keep apart -/

namespace Request

/-- The requests use the command bus in different cycles. -/
def CommandsApart (r s : Request) : Prop :=
  ∀ a ∈ r.plan.commands, ∀ b ∈ s.plan.commands, a.overlaps b = false

/-- The requests use the data bus in different cycles. -/
def DataApart (r s : Request) : Prop := r.plan.data.overlaps s.plan.data = false

/-- The requests do not lock one bank in the same cycle. -/
def BankApart (r s : Request) : Prop :=
  r.bank = s.bank → r.plan.bank.overlaps s.plan.bank = false

instance (r s : Request) : Decidable (r.CommandsApart s) :=
  inferInstanceAs (Decidable (∀ a ∈ r.plan.commands, ∀ b ∈ s.plan.commands, a.overlaps b = false))

instance (r s : Request) : Decidable (r.DataApart s) :=
  inferInstanceAs (Decidable (r.plan.data.overlaps s.plan.data = false))

instance (r s : Request) : Decidable (r.BankApart s) :=
  inferInstanceAs (Decidable (r.bank = s.bank → r.plan.bank.overlaps s.plan.bank = false))

theorem apart_of_conflictsWith {r s : Request} (h : r.conflictsWith s = false) :
    r.CommandsApart s ∧ r.DataApart s ∧ r.BankApart s := by
  obtain ⟨⟨hcommands, hdata⟩, hbank⟩ := conflictsWith_eq_false.mp h
  exact ⟨hcommands, hdata, hbank⟩

end Request

theorem Interval.not_overlaps_of_lt {a b : Interval} (h : a.stop < b.start) :
    b.overlaps a = false := by
  rw [Bool.eq_false_iff]
  intro hoverlap
  have hle := (overlaps_iff.mp hoverlap).1
  omega

variable {t : Timing} {r s : Request} {start now : Nat}

theorem Timing.Positive.lock_pos (ht : t.Positive) (status : RowStatus) :
    1 ≤ t.lock status.phaseCount :=
  Nat.mul_pos status.phaseCount_pos ht.bankBusy

/-- A request whose transfer is over leaves the data bus alone. -/
theorem dataApart_of_over (ht : t.Positive) (hs : s.plan = Plan.layout t now s.status)
    (hover : r.plan.data.stop ≤ now) : s.DataApart r := by
  have hlock := ht.lock_pos s.status
  apply Interval.not_overlaps_of_lt
  rw [hs]
  show r.plan.data.stop < now + t.lock s.status.phaseCount
  omega

/-- The lock of a bank ends before the transfer. -/
theorem bankApart_of_over (ht : t.Positive) (hr : r.plan = Plan.layout t start r.status)
    (hs : s.plan = Plan.layout t now s.status) (hover : r.plan.data.stop ≤ now) :
    s.BankApart r := by
  intro _
  have hlock := ht.lock_pos r.status
  have hdata := ht.data
  apply Interval.not_overlaps_of_lt
  rw [hr] at hover ⊢
  rw [hs]
  change start + t.lock r.status.phaseCount + t.dataCycles - 1 ≤ now at hover
  show start + t.lock r.status.phaseCount - 1 < now
  omega

/-- The last command ends before the transfer if it is short enough. -/
theorem commandsApart_of_over (ht : t.Positive)
    (hshort : t.commandCycles < t.bankBusyCycles + t.dataCycles)
    (hr : r.plan = Plan.layout t start r.status) (hs : s.plan = Plan.layout t now s.status)
    (hover : r.plan.data.stop ≤ now) : s.CommandsApart r := by
  intro a ha b hb
  rw [hs, Plan.commands_layout] at ha
  rw [hr, Plan.commands_layout] at hb
  obtain ⟨i, -, rfl⟩ := List.mem_map.mp ha
  obtain ⟨j, hj, rfl⟩ := List.mem_map.mp hb
  have hlast := t.lock_mono (Nat.succ_le_of_lt (List.mem_range.mp hj))
  have hcommand := ht.command
  rw [Nat.succ_eq_add_one, t.lock_succ] at hlast
  rw [hr] at hover
  change start + t.lock r.status.phaseCount + t.dataCycles - 1 ≤ now at hover
  apply Interval.not_overlaps_of_lt
  show start + t.lock j + t.commandCycles - 1 < now + t.lock i
  omega

/-- A longer command is still on the bus when the next request starts. -/
theorem not_commandsApart_of_over (hlong : t.bankBusyCycles + t.dataCycles ≤ t.commandCycles)
    (ht : t.Positive) (hr : r.plan = Plan.layout t start r.status)
    (hs : s.plan = Plan.layout t now s.status) (hover : r.plan.data.stop = now) :
    ¬s.CommandsApart r := by
  have hcount := r.status.phaseCount_pos
  have hlast : t.lock r.status.phaseCount
      = t.lock (r.status.phaseCount - 1) + t.bankBusyCycles := by
    rw [← t.lock_succ, Nat.sub_add_cancel hcount]
  have hcommand := ht.command
  have hbusy := ht.bankBusy
  have hlate : t.slot now 0 ∈ s.plan.commands := by
    rw [hs, Plan.commands_layout]
    exact List.mem_map_of_mem (List.mem_range.mpr s.status.phaseCount_pos)
  have hearly : t.slot start (r.status.phaseCount - 1) ∈ r.plan.commands := by
    rw [hr, Plan.commands_layout]
    exact List.mem_map_of_mem (List.mem_range.mpr (by omega))
  intro hapart
  rw [hr] at hover
  change start + t.lock r.status.phaseCount + t.dataCycles - 1 = now at hover
  -- The first slot of the later request lies within the last slot of the earlier one.
  have hmeet : (t.slot now 0).overlaps (t.slot start (r.status.phaseCount - 1)) := by
    rw [Interval.overlaps_iff, Timing.slot, Timing.slot, Timing.lock_zero]
    constructor
    · show now + 0 ≤ start + t.lock (r.status.phaseCount - 1) + t.commandCycles - 1
      omega
    · show start + t.lock (r.status.phaseCount - 1) ≤ now + 0 + t.commandCycles - 1
      omega
  rw [hapart _ hlate _ hearly] at hmeet
  cases hmeet

namespace Controller

/-! ## What a run has started -/

/-- The cycle of a tick. -/
def Call.cycle? : Call → Option Nat
  | .add _ _ => none
  | .tick now => some now

/-- The cycles of the ticks among the calls. -/
def cycles (calls : List Call) : List Nat := calls.filterMap Call.cycle?

/-- The request that a call started. -/
def Reply.started? : Reply → Option Request
  | .queued _ => none
  | .ticked cycle => cycle.started?

/-- Every request that has been started, latest first like the calls. -/
def started (past : List (Call × Reply)) : List Request := past.filterMap (·.2.started?)

theorem started_ticked (now : Nat) (cycle : Cycle) (past : List (Call × Reply)) :
    started ((.tick now, .ticked cycle) :: past) = cycle.started?.toList ++ started past := by
  obtain ⟨retired, started?⟩ := cycle
  cases started? <;> rfl

/-- What is known of the requests started so far, with `rest` still to come: they are pairwise
in relation, and one that is no longer under way is over in every cycle to come. -/
structure Recorded (t : Timing) (R : Request → Request → Prop) (rest : List Call)
    (past : List (Call × Reply)) (c : Controller) : Prop where
  sound : c.Sound
  timing : c.timing = t
  ordered : (cycles rest).Pairwise (· ≤ ·)
  laidOut : ∀ r ∈ started past, ∃ start, r.plan = Plan.layout t start r.status
  finished : ∀ r ∈ started past, r ∈ c.ongoing ∨ ∀ now ∈ cycles rest, r.plan.data.stop ≤ now
  related : (started past).Pairwise R

variable {c : Controller} {rest : List Call} {past : List (Call × Reply)}
  {R : Request → Request → Prop}

/-- What a later and an earlier request have to do with each other: all that follows if they do
not conflict, or if the earlier one is over when the later one starts. -/
structure Follows (t : Timing) (R : Request → Request → Prop) : Prop where
  free : ∀ s r, s.conflictsWith r = false → R s r
  finished : ∀ s r start now, s.plan = Plan.layout t now s.status →
    r.plan = Plan.layout t start r.status → r.plan.data.stop ≤ now → R s r

theorem Recorded.tick (ht : t.Positive) (hR : Follows t R)
    (hc : Recorded t R (.tick now :: rest) past c) :
    Ends (c.tick now) Overflows fun r =>
      Recorded t R rest ((.tick now, .ticked r.1) :: past) r.2 := by
  have hordered := List.pairwise_cons.mp hc.ordered
  have hretired := hc.sound.afterRetire now
  have hwiring := c.wiring_afterRetire now
  apply (tick_spec hc.sound now).weaken
  intro ticked hticked
  obtain ⟨⟨retired, started?⟩, c'⟩ := ticked
  obtain ⟨-, hscheduled⟩ := hticked
  have htiming : (c.afterRetire now).timing = t := (congrArg Wiring.timing hwiring).trans hc.timing
  have hongoing : c'.ongoing = c.underWay now ++ started?.toList := by
    rw [hscheduled.ongoing_eq, afterRetire_ongoing]
  have hplan : ∀ s, started? = some s → s.plan = Plan.layout t now s.status := by
    intro s hs
    subst hs
    rw [← htiming]
    exact hscheduled.startable.plan_eq (htiming ▸ ht)
  -- A request started before has ended by now, or it is still under way.
  have hearlier : ∀ r ∈ started past, r ∈ c.underWay now ∨ r.plan.data.stop ≤ now := by
    intro r hr
    rcases hc.finished r hr with hmem | hover
    · by_cases hended : r.plan.data.stop ≤ now
      · exact .inr hended
      · exact .inl (List.mem_filter.mpr ⟨hmem, by simpa [hasEnded] using hended⟩)
    · exact .inr (hover now List.mem_cons_self)
  refine ⟨hretired.scheduled hscheduled, ?_, hordered.2, ?_, ?_, ?_⟩
  · rw [← htiming]
    exact congrArg Wiring.timing hscheduled.wiring_eq
  · rw [started_ticked]
    intro r hr
    rcases List.mem_append.mp hr with hr | hr
    · exact ⟨now, hplan r (Option.mem_toList.mp hr)⟩
    · exact hc.laidOut r hr
  · rw [started_ticked, hongoing]
    intro r hr
    rcases List.mem_append.mp hr with hr | hr
    · exact .inl (List.mem_append_right _ hr)
    · rcases hearlier r hr with hunder | hover
      · exact .inl (List.mem_append_left _ hunder)
      · exact .inr fun later hlater => Nat.le_trans hover (hordered.1 later hlater)
  · rw [started_ticked, List.pairwise_append]
    refine ⟨by cases started? <;> simp, hc.related, ?_⟩
    intro s hs r hr
    obtain rfl := Option.mem_toList.mp hs
    rcases hearlier r hr with hunder | hover
    · apply hR.free
      rw [Request.conflictsWith_comm]
      apply hretired.free_of_startable hscheduled.startable
      rw [afterRetire_ongoing]
      exact hunder
    · obtain ⟨start, hstart⟩ := hc.laidOut r hr
      exact hR.finished s r start now (hplan s rfl) hstart hover

theorem Recorded.perform (ht : t.Positive) (hR : Follows t R) {call : Call}
    (hc : Recorded t R (call :: rest) past c) :
    Ends (c.perform call) Overflows fun r => Recorded t R rest ((call, r.1) :: past) r.2 := by
  cases call with
  | add block arrival =>
    apply Ends.bind' (add_spec hc.sound.maskable block arrival)
    intro added hadded
    obtain ⟨heq, hid, -, hbank⟩ := hadded
    apply Ends.pure'
    rw [heq]
    exact ⟨hc.sound.add hid hbank, hc.timing, hc.ordered, hc.laidOut, hc.finished, hc.related⟩
  | tick now =>
    apply Ends.bind' (hc.tick ht hR)
    exact fun _ h => Ends.pure' h

/-- Over a run whose cycles do not go back, all started requests are in a relation that follows
from being free of conflicts and from being over. -/
theorem run_apart (ht : c.timing.Positive) (hR : Follows c.timing R) (hc : c.Sound)
    (calls : List Call) (hcalls : (cycles calls).Pairwise (· ≤ ·)) :
    Ends (record perform c calls) Overflows fun r => (started r.1).Pairwise R := by
  have hstart : Recorded c.timing R calls [] c :=
    ⟨hc, rfl, hcalls, by simp [started], by simp [started], List.Pairwise.nil⟩
  apply (Ends.record (Recorded c.timing R) (fun _ _ _ _ h => h.perform ht hR) calls [] c
    hstart).weaken
  exact fun _ h => h.related

/-! ## Runs that meet on the command bus -/

/-- A request that comes when nothing else is left starts in the same cycle. -/
theorem Sound.add_then_tick (hc : c.Sound) (hw : c.wiring.Legal) {now : Nat}
    (hnow : now + c.timing.horizon < UInt64.size) (hid : c.nextId + 1 < UInt64.size)
    (hpending : c.pending = []) (hfree : c.underWay now = []) (block : BlockRef) :
    ∃ first c₁ cycle r c₂, c.add block now = .ok (first, c₁) ∧ c₁.tick now = .ok (cycle, c₂)
      ∧ cycle.started? = some r ∧ r.plan = Plan.layout c.timing now r.status
      ∧ c₂.Sound ∧ c₂.wiring = c.wiring ∧ c₂.nextId = c.nextId + 1 ∧ c₂.pending = []
      ∧ c₂.ongoing = [r] := by
  have hadd := (add_spec hc.maskable block now).and_never (add_total hc.maskable hw block hnow hid)
  obtain ⟨⟨first, c₁⟩, hadded, ⟨hc₁, hfirst, -, hbank⟩, -⟩ := hadd.exists_ok
  dsimp only at hc₁ hfirst hbank
  have hs₁ : c₁.Sound := hc₁ ▸ hc.add hfirst hbank
  have hw₁ : c₁.wiring = c.wiring := by rw [hc₁]; rfl
  have htiming : c₁.timing = c.timing := congrArg Wiring.timing hw₁
  have hpending₁ : c₁.pending = [first] := by rw [hc₁, hpending]; rfl
  have hfree₁ : c₁.underWay now = [] := by rw [hc₁]; exact hfree
  have htick := ((tick_spec hs₁ now).both (hs₁.tick_alone hfree₁ hpending₁)).and_never
    (hs₁.tick_total (hw₁ ▸ hw) (htiming ▸ hnow))
  obtain ⟨⟨cycle, c₂⟩, hticked, ⟨⟨-, hscheduled⟩, -, r, -, hr, hstarted, hc₂⟩, -⟩ :=
    htick.exists_ok
  dsimp only at hscheduled hstarted hc₂
  have hretiring := c₁.wiring_afterRetire now
  have htiming' : (c₁.afterRetire now).timing = c.timing :=
    (congrArg Wiring.timing hretiring).trans htiming
  refine ⟨first, c₁, cycle, r, c₂, hadded, hticked, hstarted, ?_,
    (hs₁.afterRetire now).scheduled hscheduled, ?_, ?_, ?_, ?_⟩
  · rw [← htiming']
    exact hr.plan_eq (htiming' ▸ hw.timing)
  · rw [hscheduled.wiring_eq, hretiring, hw₁]
  · obtain ⟨channel, banks, heq, -⟩ := c₁.afterRetire_eq now
    rw [hscheduled.nextId_eq, heq, hc₁]
  · rw [hc₂]
    rfl
  · rw [hc₂, launch, afterRetire_ongoing, hfree₁]
    rfl

/-- If commands are long, two requests one after the other meet on the command bus. -/
theorem run_meets (hc : c.Sound) (hw : c.wiring.Legal) (hid : c.nextId + 2 < UInt64.size)
    (hsmall : 2 * c.timing.horizon < UInt64.size) (hidle : c.pending = [] ∧ c.ongoing = [])
    (hlong : c.timing.bankBusyCycles + c.timing.dataCycles ≤ c.timing.commandCycles)
    (block : BlockRef) :
    ∃ calls, (cycles calls).Pairwise (· < ·) ∧ ∃ r, record perform c calls = .ok r
      ∧ ¬(started r.1).Pairwise Request.CommandsApart := by
  have hfree : c.underWay 0 = [] := by rw [underWay, hidle.2]; rfl
  obtain ⟨first, c₁, cycle₁, r, c₂, hadd₁, htick₁, hstarted₁, hplan₁, hs₂, hw₂, hid₂, hpending₂,
    hongoing₂⟩ := hc.add_then_tick hw (by omega) (by omega) hidle.1 hfree block
  have htiming₂ : c₂.timing = c.timing := congrArg Wiring.timing hw₂
  obtain ⟨stop, hstop⟩ : ∃ stop, stop = r.plan.data.stop := ⟨_, rfl⟩
  have hstop_eq : stop = 0 + c.timing.lock r.status.phaseCount + c.timing.dataCycles - 1 := by
    rw [hstop, hplan₁]
    rfl
  have ht : c.timing.Positive := hw.timing
  have hreach := c.timing.reach_le_horizon r.status
  have hpos := ht.lock_pos r.status
  have hdata := ht.data
  change max _ (c.timing.lock r.status.phaseCount + c.timing.dataCycles) ≤ _ at hreach
  have hfree₂ : c₂.underWay stop = [] := by
    rw [underWay, hongoing₂, hstop]
    simp [hasEnded]
  -- The second request comes when the first one retires.
  have hlater : stop + c₂.timing.horizon < UInt64.size := by rw [htiming₂]; omega
  obtain ⟨second, c₃, cycle₂, s, c₄, hadd₂, htick₂, hstarted₂, hplan₂, -⟩ :=
    hs₂.add_then_tick (hw₂ ▸ hw) hlater (by omega) hpending₂ hfree₂ block
  refine ⟨[.add block 0, .tick 0, .add block stop, .tick stop], ?_,
    ([(.tick stop, .ticked cycle₂), (.add block stop, .queued second), (.tick 0, .ticked cycle₁),
      (.add block 0, .queued first)], c₄), ?_, ?_⟩
  · show [0, stop].Pairwise (· < ·)
    rw [List.pairwise_pair]
    omega
  · simp [record, perform, hadd₁, htick₁, hadd₂, htick₂, bind, Except.bind, pure, Except.pure]
  · rw [started_ticked, hstarted₂]
    show ¬(s :: started [_, (.tick 0, .ticked cycle₁), _]).Pairwise Request.CommandsApart
    intro hapart
    have hr : r ∈ started [(.add block stop, .queued second), (.tick 0, .ticked cycle₁),
        (.add block 0, .queued first)] := by
      show r ∈ started [(.tick 0, .ticked cycle₁), (.add block 0, .queued first)]
      rw [started_ticked, hstarted₁]
      exact List.mem_cons_self
    rw [htiming₂] at hplan₂
    exact not_commandsApart_of_over hlong ht hplan₁ hplan₂ hstop.symm
      ((List.pairwise_cons.mp hapart).1 r hr)

/-! ## Fresh controllers -/

/-- **Buses over a whole run.** Whatever is queued, and whichever increasing cycles are given, all
requests that a fresh controller of an accepted configuration has ever started use the data bus
and their banks one at a time. They share the command bus in this way in all such runs exactly if
a command is shorter than one bank lock and one transfer together. -/
theorem started_apart (c : Config) (g : Config.Geometries) (hc : c.validate = .ok g) :
    (∀ calls, (cycles calls).Pairwise (· < ·) →
      Ends (record perform (idle c.dram g.l2.lineBytes) calls) Overflows fun r =>
        (started r.1).Pairwise fun later earlier =>
          later.DataApart earlier ∧ later.BankApart earlier)
    ∧ ((∀ calls, (cycles calls).Pairwise (· < ·) →
        Ends (record perform (idle c.dram g.l2.lineBytes) calls) Overflows fun r =>
          (started r.1).Pairwise Request.CommandsApart) ↔
      c.dram.commandCycles.toNat < c.dram.bankBusyCycles.toNat + c.dram.dataCycles.toNat) := by
  have hdram := (Config.validate_fitted hc).dram
  obtain ⟨k, hbanks, -⟩ := hdram.bankTop
  have hsound : (idle c.dram g.l2.lineBytes).Sound := idle_sound hbanks
  have hlegal := idle_legal hdram
  have hhorizon := idle_horizon_le hdram g.l2.lineBytes
  have hword : UInt64.size = 2 ^ 64 := rfl
  have hplan : twoPow 34 = 2 ^ 34 := rfl
  have ht : (idle c.dram g.l2.lineBytes).timing.Positive := hlegal.timing
  refine ⟨?_, ?_, ?_⟩
  · intro calls hcalls
    apply run_apart ht ⟨?_, ?_⟩ hsound calls (hcalls.imp Nat.le_of_lt)
    · exact fun s r h => (Request.apart_of_conflictsWith h).2
    · exact fun s r start now hs hr hover =>
        ⟨dataApart_of_over ht hs hover, bankApart_of_over ht hr hs hover⟩
  · intro hapart
    by_contra hlong
    have hid : 0 + 2 < UInt64.size := by decide
    obtain ⟨calls, hcalls, r, hr, hmeet⟩ := run_meets hsound hlegal hid (by omega) ⟨rfl, rfl⟩
      (Nat.le_of_not_lt hlong) ⟨0, .data⟩
    exact hmeet ((hapart calls hcalls).of_ok hr)
  · intro hshort calls hcalls
    apply run_apart ht ⟨?_, ?_⟩ hsound calls (hcalls.imp Nat.le_of_lt)
    · exact fun s r h => (Request.apart_of_conflictsWith h).1
    · exact fun s r start now hs hr hover => commandsApart_of_over ht hshort hr hs hover

/-- Three requests in a run, two of them on one bank. -/
theorem started_apart_three :
    ∃ (c : Config) (g : Config.Geometries) (calls : List Call), c.validate = .ok g
      ∧ (cycles calls).Pairwise (· < ·)
      ∧ c.dram.commandCycles.toNat < c.dram.bankBusyCycles.toNat + c.dram.dataCycles.toNat
      ∧ ∃ r, record perform (idle c.dram g.l2.lineBytes) calls = .ok r
        ∧ (started r.1).length = 3
        ∧ ((started r.1).Pairwise fun later earlier =>
            later.DataApart earlier ∧ later.BankApart earlier)
        ∧ (started r.1).Pairwise Request.CommandsApart := by
  have hvalid : Config.validate
      { general := { wordBits := 8, memoryBytes := 16 }
        caches := { l1Instruction := ⟨4, 1, 4⟩, l1Data := ⟨4, 1, 4⟩, l2 := ⟨8, 1, 4⟩ }
        missTracking := { entries := 2 }
        latencies := ⟨1, 1, 1⟩
        dram := ⟨2, 4, 1, 2, 2⟩ } = .ok _ := rfl
  have hcalls : (cycles [.add ⟨0, .data⟩ 0, .add ⟨8, .data⟩ 0, .tick 0, .add ⟨4, .instruction⟩ 1,
      .tick 2, .tick 5, .tick 8]).Pairwise (· < ·) := by decide
  obtain ⟨hothers, hcommands⟩ := started_apart _ _ hvalid
  exact ⟨_, _, _, hvalid, hcalls, by decide, _, rfl, rfl, (hothers _ hcalls).of_ok rfl,
    (hcommands.mpr (by decide) _ hcalls).of_ok rfl⟩

/-- A command of ten cycles is still on the bus when its request retires after three. -/
theorem started_meet_on_command_bus :
    ¬∀ (c : Config) (g : Config.Geometries), c.validate = .ok g →
      ∀ calls, (cycles calls).Pairwise (· < ·) →
        Ends (record perform (idle c.dram g.l2.lineBytes) calls) Overflows fun r =>
          (started r.1).Pairwise fun later earlier =>
            later.CommandsApart earlier ∧ later.DataApart earlier ∧ later.BankApart earlier := by
  intro hclaim
  have hrun := hclaim
    { general := { wordBits := 8, memoryBytes := 16 }
      caches := { l1Instruction := ⟨4, 1, 4⟩, l1Data := ⟨4, 1, 4⟩, l2 := ⟨8, 1, 4⟩ }
      missTracking := { entries := 2 }
      latencies := ⟨1, 1, 1⟩
      dram := ⟨1, 4, 10, 1, 1⟩ } _ rfl
    [.add ⟨0, .data⟩ 0, .tick 0, .add ⟨0, .data⟩ 1, .tick 2] (by decide)
  have hapart := hrun.of_ok rfl
  revert hapart
  decide

end Controller

end MemoryHierarchy.Dram
