import MemoryHierarchy.Proofs.Accepted
import MemoryHierarchy.Proofs.Dram.Exclusion
import MemoryHierarchy.Proofs.Dram.Layout

/-!
What a cycle of the controller brings forward, and that it goes through.

`wiring` is what no call changes. While the cycles up to the horizon of a plan fit 64 bits, no
call faults (`add_total`, `tick_total`). A started request has the plan laid out from the cycle
of its start (`Startable.plan_eq`), a cycle that finds nothing under way starts a request
(`tick_starts`), and so no cycle leaves requests waiting with none under way (`tick_busy`).
-/

namespace MemoryHierarchy.Dram.Controller

/-- What no call changes. -/
structure Wiring where
  timing : Timing
  bankShift : Nat
  rowShift : Nat
  banks : Nat

/-- The wiring of a controller. -/
def wiring (c : Controller) : Wiring := ⟨c.timing, c.bankShift, c.rowShift, c.banks.size⟩

/-- Every duration is positive, and every address has its bank and row bits. -/
structure Wiring.Legal (w : Wiring) : Prop where
  timing : w.timing.Positive
  bankShift : w.bankShift < 32
  rowShift : w.rowShift < 32

variable {c c' : Controller} {now : Nat} {r : Request} {started? : Option Request}

theorem idle_legal {config : Config.Dram} {g : Geometry} (h : config.LaidOut g.offsetBits) :
    (idle config g.lineBytes).wiring.Legal := by
  obtain ⟨k, -, htop⟩ := h.bankTop
  have hrow := h.rowShift
  have hshift : trailingZeros g.lineBytes = g.offsetBits := trailingZeros_twoPow _ (by omega)
  refine ⟨⟨h.command.1, h.bankBusy.1, h.data.1⟩, ?_, hrow⟩
  show trailingZeros g.lineBytes < 32
  omega

/-- No plan reaches further ahead than four durations of 32 bits. -/
theorem idle_reach_le {config : Config.Dram} {offsetBits : Nat} (h : config.LaidOut offsetBits)
    (lineBytes : Nat) : (idle config lineBytes).timing.horizon ≤ 4 * (UInt32.size - 1) := by
  have hcommand := h.command
  have hbankBusy := h.bankBusy
  have hdata := h.data
  show max (2 * config.bankBusyCycles.toNat + config.commandCycles.toNat)
    (3 * config.bankBusyCycles.toNat + config.dataCycles.toNat) ≤ _
  omega

/-- Durations of 32 bits keep every plan within 34 bits. -/
theorem idle_horizon_le {config : Config.Dram} {offsetBits : Nat} (h : config.LaidOut offsetBits)
    (lineBytes : Nat) : (idle config lineBytes).timing.horizon < twoPow 34 :=
  Nat.lt_of_le_of_lt (idle_reach_le h lineBytes) (by decide)

theorem wiring_afterRetire (c : Controller) (now : Nat) :
    (c.afterRetire now).wiring = c.wiring := by
  obtain ⟨channel, banks, heq, hsize⟩ := c.afterRetire_eq now
  rw [heq, wiring, wiring]
  exact congrArg (Wiring.mk _ _ _) hsize

theorem Scheduled.wiring_eq (h : c.Scheduled now started? c') : c'.wiring = c.wiring := by
  have hsize := h.banks_size
  cases h with
  | none => rfl
  | some => exact congrArg (Wiring.mk _ _ _) hsize

theorem Scheduled.pending_length (h : c.Scheduled now started? c') :
    c'.pending.length + started?.toList.length = c.pending.length := by
  cases h with
  | none queue h => exact h.length_eq.symm
  | some r front back h hr =>
    have hlength := h.length_eq
    rw [List.length_append, List.length_cons] at hlength
    show (front ++ back).length + 1 = _
    rw [List.length_append, hlength, Nat.add_assoc]

theorem Scheduled.ongoing_eq (h : c.Scheduled now started? c') :
    c'.ongoing = c.ongoing ++ started?.toList := by
  cases h with
  | none => exact (List.append_nil _).symm
  | some => rfl

theorem Scheduled.startable (h : c.Scheduled now (.some r) c') : c.Startable now r := by
  cases h with
  | some _ _ _ _ hr => exact hr

theorem Startable.plan_eq (ht : c.timing.Positive) (h : c.Startable now r) :
    r.plan = Plan.layout c.timing now r.status := by
  have hplan := h.plan
  rw [Plan.compute_eq ht] at hplan
  split at hplan
  · exact (Except.ok.inj hplan).symm
  · cases hplan

/-! ## Calls that go through -/

theorem compute_total {t : Timing} (ht : t.Positive) (hnow : now + t.horizon < UInt64.size)
    (status : RowStatus) : Plan.compute t now status = .ok (Plan.layout t now status) := by
  have hle := t.reach_le_horizon status
  rw [Plan.compute_eq ht, if_pos (by omega)]

theorem bankIndex_eq (h : ∃ k, c.banks.size = twoPow k) (hw : c.wiring.Legal) (a : Nat) :
    c.bankIndex a = .ok (a / twoPow c.bankShift % c.banks.size) := by
  obtain ⟨k, hk⟩ := h
  have hbits : highBits a c.bankShift = .ok (a / twoPow c.bankShift) :=
    highBits_eq_ok.mpr ⟨hw.bankShift, rfl⟩
  rw [bankIndex, exponent?_eq_some_iff.mpr hk, hbits, hk]
  rfl

theorem bankIndex_total (h : ∃ k, c.banks.size = twoPow k) (hw : c.wiring.Legal) (a : Nat) :
    Ends (c.bankIndex a) Never fun i => i < c.banks.size := by
  apply Ends.ok (bankIndex_eq h hw a)
  obtain ⟨k, hk⟩ := h
  rw [hk]
  exact Nat.mod_lt _ (twoPow_pos k)

theorem row_eq (hw : c.wiring.Legal) (a : Nat) : c.row a = .ok (a / twoPow c.rowShift) :=
  highBits_eq_ok.mpr ⟨hw.rowShift, rfl⟩

theorem add_total (h : ∃ k, c.banks.size = twoPow k) (hw : c.wiring.Legal) (block : BlockRef)
    (hnow : now + c.timing.horizon < UInt64.size) (hid : c.nextId + 1 < UInt64.size) :
    Ends (c.add block now) Never fun _ => True := by
  have hnext : sum64 c.nextId 1 = .ok (c.nextId + 1) := sum64_eq_ok.mpr ⟨hid, rfl⟩
  rw [add]
  apply Ends.bind' (bankIndex_total h hw block.address)
  intro index hlt
  apply Ends.bind_ok (row_eq hw block.address)
  apply Ends.bind_ok (bank_eq hlt)
  apply Ends.bind_ok (compute_total hw.timing hnow _)
  apply Ends.bind_ok hnext
  exact Ends.pure' trivial

/-- A waiting request is planned anew whatever the state of its bank. -/
theorem replan_total (ht : c.timing.Positive) (hnow : now + c.timing.horizon < UInt64.size)
    (hr : r.bank < c.banks.size) :
    Ends (c.replan now r) Never fun s => s.bank = r.bank := by
  rw [replan, bank_eq hr]
  apply Ends.bind_ok (compute_total ht hnow _)
  exact Ends.pure' rfl

theorem survey_total {live : List Request} (hc : c.Holds live) (ht : c.timing.Positive)
    (hnow : now + c.timing.horizon < UInt64.size) :
    ∀ queue : List Request, (∀ r ∈ queue, r.bank < c.banks.size) →
      Ends (c.survey now queue) Never fun _ => True
  | [], _ => trivial
  | r :: rest, h => by
    have hr := h r List.mem_cons_self
    rw [survey]
    apply Ends.bind' (replan_total ht hnow hr)
    intro s hs
    have hlt : s.bank < c.banks.size := by rw [hs]; exact hr
    apply Ends.bind_ok (isCandidate_eq hc hlt)
    apply Ends.ite'
    · exact fun _ => Ends.pure' trivial
    · intro _
      apply Ends.bind' (survey_total hc ht hnow rest fun t ht => h t (List.mem_cons_of_mem _ ht))
      exact fun _ _ => Ends.pure' trivial

theorem schedule_total {live : List Request} (hc : c.Holds live) (ht : c.timing.Positive)
    (hnow : now + c.timing.horizon < UInt64.size) (h : ∀ r ∈ c.pending, r.bank < c.banks.size) :
    Ends (c.schedule now) Never fun _ => True := by
  rw [schedule]
  apply Ends.bind' ((survey_spec hc now c.pending h).and_never
    (survey_total hc ht hnow c.pending h))
  intro queue hqueue
  cases hchoose : choose queue with
  | none => exact Ends.pure' trivial
  | some chosen =>
    obtain ⟨⟨r, candidate⟩, others⟩ := chosen
    obtain ⟨hcand, front, back, rfl, rfl⟩ := choose_eq_some hchoose
    have hr : c.Startable now r := startable_of_mem hqueue.1 _ (by simp) hcand
    have hr' : { c with pending := (front ++ back).map Prod.fst }.Startable now r :=
      ⟨hr.status, hr.plan, hr.candidate⟩
    apply Ends.bind_ok (start_eq hr')
    exact Ends.pure' trivial

theorem Sound.tick_total (h : c.Sound) (hw : c.wiring.Legal)
    (hnow : now + c.timing.horizon < UInt64.size) :
    Ends (c.tick now) Never fun _ => True := by
  have hr := h.afterRetire now
  have htiming : (c.afterRetire now).timing = c.timing :=
    congrArg Wiring.timing (c.wiring_afterRetire now)
  rw [tick]
  apply Ends.bind_ok (retire_eq now h.ongoing_bank_lt)
  apply Ends.bind' (schedule_total hr.holds (htiming ▸ hw.timing) (htiming ▸ hnow)
    hr.pending_bank_lt)
  exact fun _ _ => Ends.pure' trivial

/-! ## A free controller starts a request -/

theorem choose_isSome {q : Request × Bool} {rest : List (Request × Bool)} (h : q.2 = true) :
    (choose (q :: rest)).isSome := by
  have hsecond : (takeFirst? (fun (q : Request × Bool) => q.2) (q :: rest)).isSome := by
    rw [takeFirst?, if_pos h]
    rfl
  rw [choose]
  cases takeFirst? (fun (q : Request × Bool) => q.2 && q.1.status == .hit) (q :: rest) with
  | none => exact hsecond
  | some => rfl

/-- With nothing reserved the oldest waiting request could start, so one is started. -/
theorem schedule_starts (hc : c.Holds []) (now : Nat)
    (h : ∀ r ∈ c.pending, r.bank < c.banks.size) (hne : c.pending ≠ []) :
    Ends (c.schedule now) (fun _ => True) fun r => r.1.isSome := by
  obtain ⟨first, rest, hpending⟩ := List.exists_cons_of_ne_nil hne
  have hfirst : first.bank < c.banks.size := h first (by rw [hpending]; exact List.mem_cons_self)
  have hsurvey : Ends (c.survey now c.pending) (fun _ => True) fun queue =>
      (choose queue).isSome := by
    rw [hpending, survey]
    apply Ends.bind' ((replan_spec now hfirst).faults fun _ _ => trivial)
    intro r hr
    have hlt : r.bank < c.banks.size := by
      obtain ⟨_, _, rfl⟩ := hr.1
      exact hfirst
    apply Ends.bind_ok (isCandidate_eq hc hlt)
    apply Ends.ite'
    · exact fun _ => Ends.pure' (choose_isSome rfl)
    · intro _
      apply Ends.bind' Ends.any
      exact fun _ _ => Ends.pure' (choose_isSome rfl)
  rw [schedule]
  apply Ends.bind' hsurvey
  intro queue hqueue
  obtain ⟨⟨⟨r, candidate⟩, others⟩, hchosen⟩ := Option.isSome_iff_exists.mp hqueue
  rw [hchosen]
  apply Ends.bind' Ends.any
  exact fun _ _ => Ends.pure' rfl

theorem afterRetire_ongoing (c : Controller) (now : Nat) :
    (c.afterRetire now).ongoing = c.underWay now := by
  obtain ⟨channel, banks, heq, -⟩ := c.afterRetire_eq now
  rw [heq]

theorem afterRetire_pending (c : Controller) (now : Nat) :
    (c.afterRetire now).pending = c.pending := by
  obtain ⟨channel, banks, heq, -⟩ := c.afterRetire_eq now
  rw [heq]

/-- A request that is started no longer waits but is under way, until it retires. -/
theorem tick_lengths (hc : c.Sound) (now : Nat) :
    Ends (c.tick now) Overflows fun r =>
      r.2.pending.length + r.1.started?.toList.length = c.pending.length
        ∧ r.2.ongoing.length + r.1.retired.length
          = c.ongoing.length + r.1.started?.toList.length
        ∧ r.2.nextId = c.nextId := by
  apply (tick_spec hc now).weaken
  intro r hr
  obtain ⟨hretired, hscheduled⟩ := hr
  have hpending := hscheduled.pending_length
  have hongoing := congrArg List.length hscheduled.ongoing_eq
  have hsplit := (List.filter_append_perm (hasEnded now) c.ongoing).length_eq
  rw [afterRetire_pending] at hpending
  rw [afterRetire_ongoing, List.length_append] at hongoing
  rw [List.length_append] at hsplit
  change (c.ended now).length + (c.underWay now).length = _ at hsplit
  refine ⟨hpending, ?_, ?_⟩
  · rw [hretired, List.length_map]
    omega
  · obtain ⟨channel, banks, heq, -⟩ := c.afterRetire_eq now
    rw [hscheduled.nextId_eq, heq]

/-- A cycle with nothing under way starts a request if one waits. -/
theorem Sound.tick_starts (h : c.Sound) (hfree : c.underWay now = []) (hne : c.pending ≠ []) :
    Ends (c.tick now) (fun _ => True) fun r => r.1.started?.isSome := by
  have hr := h.afterRetire now
  have hholds : (c.afterRetire now).Holds [] := by
    rw [← hfree, ← afterRetire_ongoing]
    exact hr.holds
  rw [tick]
  apply Ends.bind_ok (retire_eq now h.ongoing_bank_lt)
  apply Ends.bind' (schedule_starts hholds now hr.pending_bank_lt
    (by rw [afterRetire_pending]; exact hne))
  exact fun _ hs => Ends.pure' hs

/-- No cycle leaves requests waiting with none under way. -/
theorem Sound.tick_busy (h : c.Sound) (now : Nat) :
    Ends (c.tick now) Overflows fun r => r.2.pending ≠ [] → r.2.ongoing ≠ [] := by
  by_cases hstart : c.underWay now = [] ∧ c.pending ≠ []
  · apply ((tick_spec h now).also (h.tick_starts hstart.1 hstart.2)).weaken
    intro r hr _
    obtain ⟨s, hs⟩ := Option.isSome_iff_exists.mp hr.2
    rw [hr.1.2.ongoing_eq, hs]
    exact List.concat_ne_nil _ _
  · apply (tick_spec h now).weaken
    intro r hr hpending hongoing
    have hlength := hr.2.pending_length
    rw [hr.2.ongoing_eq, afterRetire_ongoing, List.append_eq_nil_iff] at hongoing
    rw [hongoing.2, afterRetire_pending] at hlength
    refine hstart ⟨hongoing.1, fun hnil => hpending ?_⟩
    rw [hnil] at hlength
    exact List.length_eq_zero_iff.mp hlength

/-- A cycle with no request waiting retires what has ended and does nothing else. -/
theorem Sound.tick_none (h : c.Sound) (hpending : c.pending = []) :
    Ends (c.tick now) Overflows fun q => q.1.retired = (c.ended now).map (·.block)
      ∧ q.1.started? = none ∧ q.2.pending = [] ∧ q.2.ongoing = c.underWay now := by
  apply (tick_spec h now).weaken
  intro q hq
  obtain ⟨hretired, hscheduled⟩ := hq
  have hlength := hscheduled.pending_length
  have hongoing := hscheduled.ongoing_eq
  rw [afterRetire_pending, hpending, List.length_nil, Nat.add_eq_zero_iff,
    List.length_eq_zero_iff, List.length_eq_zero_iff, Option.toList_eq_nil_iff] at hlength
  rw [afterRetire_ongoing, hlength.2] at hongoing
  exact ⟨hretired, hlength.2, hlength.1, hongoing.trans (List.append_nil _)⟩

/-- The only waiting request starts as soon as nothing is under way. -/
theorem Sound.tick_alone (h : c.Sound) (hfree : c.underWay now = []) {first : Request}
    (hpending : c.pending = [first]) :
    Ends (c.tick now) Overflows fun q => q.1.retired = (c.ended now).map (·.block) ∧
      ∃ r, Replanned first r ∧ (c.afterRetire now).Startable now r ∧ q.1.started? = some r
        ∧ q.2 = { c.afterRetire now with pending := [] }.launch r := by
  have hstarts := h.tick_starts hfree (by simp [hpending])
  apply ((tick_spec h now).also hstarts).weaken
  intro ticked hticked
  obtain ⟨⟨retired, started?⟩, c'⟩ := ticked
  obtain ⟨⟨hretired, hscheduled⟩, hsome⟩ := hticked
  refine ⟨hretired, ?_⟩
  cases hscheduled with
  | none => cases hsome
  | some r front back hqueue hr =>
    -- The queue had one request, so it is the one that was started.
    rw [afterRetire_pending, hpending] at hqueue
    cases front with
    | nil =>
      obtain ⟨hfirst, hback⟩ := List.forall₂_cons.mp hqueue
      rw [List.forall₂_nil_left_iff] at hback
      subst hback
      exact ⟨r, hfirst, hr, rfl, rfl⟩
    | cons s front =>
      have hrest := List.forall₂_nil_left_iff.mp (List.forall₂_cons.mp hqueue).2
      simp at hrest

/-! ## A single request -/

/-- The row buffer of the bank of an address, seen from a request for this address. -/
def rowStatus (c : Controller) (address : Nat) : Except Fault RowStatus := do
  let index ← c.bankIndex address
  let row ← c.row address
  return (← c.bank index).status row

theorem rowStatus_total (h : ∃ k, c.banks.size = twoPow k) (hw : c.wiring.Legal) (a : Nat) :
    Ends (c.rowStatus a) Never fun _ => True := by
  rw [rowStatus]
  apply Ends.bind' (bankIndex_total h hw a)
  intro index hlt
  apply Ends.bind_ok (row_eq hw a)
  apply Ends.bind_ok (bank_eq hlt)
  exact Ends.pure' trivial

theorem Startable.status_eq (h : c.Startable now r) {a : Nat} {status : RowStatus}
    (hbank : c.bankIndex a = .ok r.bank) (hrow : c.row a = .ok r.row)
    (hstatus : c.rowStatus a = .ok status) : r.status = status := by
  obtain ⟨b, hb, hseen⟩ := h.status
  have hfound : c.bank r.bank = .ok b := inBounds_eq_ok.mpr hb
  rw [rowStatus, hbank, hrow] at hstatus
  obtain ⟨b', hb', hstatus⟩ := bind_eq_ok.mp (show (do return (← c.bank r.bank).status r.row)
    = Except.ok status from hstatus)
  rw [hfound] at hb'
  rw [hseen, Except.ok.inj hb']
  exact Except.ok.inj hstatus

theorem afterRetire_idle (hongoing : c.ongoing = []) (now : Nat) : c.afterRetire now = c := by
  obtain ⟨banks, channel, pending, ongoing, timing, bankShift, rowShift, nextId⟩ := c
  subst hongoing
  rfl

/-- A request that comes when there is no other starts at once, and ends after its service. -/
theorem Sound.tick_first (h : c.Sound) (ht : c.timing.Positive) (hpending : c.pending = [r])
    (hongoing : c.ongoing = []) {a : Nat} {status : RowStatus}
    (hbank : c.bankIndex a = .ok r.bank) (hrow : c.row a = .ok r.row)
    (hstatus : c.rowStatus a = .ok status) :
    Ends (c.tick now) Overflows fun q => q.1.retired = [] ∧ q.2.pending = []
      ∧ ∃ s, q.2.ongoing = [s] ∧ s.block = r.block
        ∧ s.plan.data.stop = now + c.timing.service status.phaseCount := by
  have hfree : c.underWay now = [] := by rw [underWay, hongoing]; rfl
  apply (h.tick_alone hfree hpending).weaken
  intro q hq
  obtain ⟨hretired, s, ⟨status', plan, rfl⟩, hstart, -, heq⟩ := hq
  rw [afterRetire_idle hongoing] at hstart heq
  have hsame := hstart.status_eq hbank hrow hstatus
  have hone : q.2.ongoing = [{ r with status := status', plan }] := by
    rw [heq]
    exact congrArg (· ++ _) hongoing
  refine ⟨?_, by rw [heq]; rfl, _, hone, rfl, ?_⟩
  · rw [hretired, ended, hongoing]
    rfl
  · rw [hstart.plan_eq ht, hsame, Plan.layout_stop ht]

/-! ## A controller without requests -/

theorem tick_idle (hidle : c.pending = [] ∧ c.ongoing = []) (now : Nat) :
    c.tick now = .ok (⟨[], none⟩, c) := by
  obtain ⟨banks, channel, pending, ongoing, timing, bankShift, rowShift, nextId⟩ := c
  obtain ⟨rfl, rfl⟩ := hidle
  rfl

theorem tick_idle_inj (hidle : c.pending = [] ∧ c.ongoing = []) {done : Cycle}
    (h : c.tick now = .ok (done, c')) : done = ⟨[], none⟩ ∧ c' = c := by
  rw [tick_idle hidle] at h
  obtain ⟨rfl, rfl⟩ := Prod.mk.inj (Except.ok.inj h)
  exact ⟨rfl, rfl⟩

end MemoryHierarchy.Dram.Controller
