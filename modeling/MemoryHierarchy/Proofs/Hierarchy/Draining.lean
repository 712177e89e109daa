import MemoryHierarchy.Proofs.Hierarchy.Room

/-!
How long it takes until nothing is on its way.

`Draining` gives all that is on its way a deadline. A tick brings every deadline one tick closer,
and a request that memory starts has its service paid for in advance (`Draining.ticked`). So the
ticks that are left run out only when nothing is on its way (`Drains.quiescent`), and waiting for
that ends in time (`settle_of_measure`, `settle_drains`). From then on only the clock moves
(`run_quiescent`).
-/

namespace MemoryHierarchy

/-- How many of these messages ask memory for a block. -/
def asks (messages : List Message) : Nat := messages.countP (·.route == .l2ToMemory)

theorem asks_cons (m : Message) (rest : List Message) :
    asks (m :: rest) = asks rest + if m.route = .l2ToMemory then 1 else 0 :=
  messagesOn_cons .l2ToMemory m rest

theorem asks_cons_other {m : Message} (h : m.route ≠ .l2ToMemory) (rest : List Message) :
    asks (m :: rest) = asks rest := by rw [asks_cons, if_neg h, Nat.add_zero]

theorem asks_le_carried (messages : List Message) : asks messages ≤ (carried messages).length := by
  rw [asks, carried, List.length_map, ← List.countP_eq_length_filter]
  apply List.countP_mono_left
  intro m _ hm
  rw [Message.isTransfer, beq_iff_eq.mp hm]
  rfl

namespace Interconnect

theorem asks_tick (ic : Interconnect) :
    asks ic.tick.1 + asks ic.tick.2.messages = asks ic.messages :=
  ic.messagesOn_tick .l2ToMemory

theorem asks_announce (ic : Interconnect) (b : BlockRef) :
    asks (ic.sendOn b .l2ToL1).messages = asks ic.messages :=
  ic.messagesOn_sendOn b .l2ToL1 .l2ToMemory

theorem asks_returning (ic : Interconnect) (blocks : List BlockRef) :
    asks (ic.returning blocks).messages = asks ic.messages :=
  ic.messagesOn_returning blocks .l2ToMemory

end Interconnect

/-- The ticks until nothing is on its way, at most, with so many outstanding misses. -/
def Config.drainBound (c : Config) (misses : Nat) : Nat :=
  c.latencies.l2ToMemory.toNat
    + misses * (3 * c.dram.bankBusyCycles.toNat + c.dram.dataCycles.toNat - 1)
    + c.latencies.memoryToL2.toNat + c.latencies.l2ToL1.toNat

namespace Hierarchy

variable {frame : Frame} {contents : Kind → Nat → Word} {h h' : Hierarchy} {s : Setting}
  {n e now : Nat} {m : Message} {due : List Message}

theorem quiescent_iff : h.isQuiescent = true ↔ h.interconnect.messages = [] ∧ h.dram.pending = []
    ∧ h.dram.ongoing = [] ∧ h.l2.misses.isEmpty = true := by
  simp [isQuiescent, Interconnect.isEmpty, Dram.Controller.isIdle, and_assoc]

/-! ## Deadlines -/

/-- The blocks that memory has not begun to transfer, with these messages still to be delivered. -/
def unstarted (h : Hierarchy) (due : List Message) : Nat :=
  asks due + asks h.interconnect.messages + h.dram.pending.length

/-- Within how many ticks a message has to be delivered, if `n` ticks are left for everything and
`e` of them until memory has been asked. What comes back from memory must still go on to an L1. -/
def Setting.deadline (s : Setting) (n e : Nat) : Route → Nat
  | .l2ToL1 => n
  | .l2ToMemory => e
  | .memoryToL2 => n - s.latency .l2ToL1

theorem Setting.deadline_later (s : Setting) {k : Nat} {route : Route} (hpos : k ≠ 0)
    (h : k < s.deadline (n + 1) e route) : k - 1 < s.deadline n (e - 1) route := by
  cases route <;> simp only [deadline] at h ⊢ <;> omega

theorem Setting.deadline_mono (s : Setting) {e' : Nat} (h : e ≤ e') (route : Route) :
    s.deadline n e route ≤ s.deadline n e' route := by
  cases route
  · exact Nat.le_refl n
  · exact h
  · exact Nat.le_refl _

/-- All that is on its way keeps its deadline: `n` ticks are left for everything, and within `e`
of them memory has been asked for every block and has transferred those under way. Then the
others still have their service, and the way back, before them. -/
structure Draining (s : Setting) (n e now : Nat) (due : List Message) (h : Hierarchy) : Prop where
  messages : ∀ m ∈ h.interconnect.messages, m.remaining < s.deadline n e m.route
  arrived : ∀ m ∈ due, m.route = .memoryToL2 → s.latency .l2ToL1 ≤ n
  ongoing : ∀ r ∈ h.dram.ongoing, r.plan.data.stop < now + e
  enough : h.unstarted due + h.dram.ongoing.length ≠ 0 →
    e + h.unstarted due * s.service + s.latency .memoryToL2 + s.latency .l2ToL1 ≤ n

namespace Draining

/-- Work at memory is still to be waited for. -/
theorem asked_pos (hp : h.Paced s) (hbusy : h.dram.pending ≠ [] → h.dram.ongoing ≠ [])
    (hd : h.Draining s n e h.cycle []) (hwork : h.unstarted [] + h.dram.ongoing.length ≠ 0) :
    1 ≤ e := by
  have hongoing : h.dram.ongoing ≠ [] → 1 ≤ e := by
    intro hne
    obtain ⟨r, hr⟩ := List.exists_mem_of_ne_nil _ hne
    have hstart := (hp.ongoing r hr).1
    have hstop := hd.ongoing r hr
    omega
  by_cases hasks : asks h.interconnect.messages = 0
  · apply hongoing
    intro hnone
    apply hwork
    have hpending : h.dram.pending = [] := by
      by_contra hne
      exact hbusy hne hnone
    rw [unstarted, hasks, hpending, hnone]
    rfl
  · obtain ⟨m, hm, hroute⟩ := List.countP_pos_iff.mp (Nat.pos_of_ne_zero hasks)
    have hbound := hd.messages m hm
    rw [beq_iff_eq.mp hroute] at hbound
    exact Nat.lt_of_le_of_lt (Nat.zero_le _) hbound

/-- The messages that wait come one tick closer. -/
theorem tick_due (hp : h.Paced s) (hbusy : h.dram.pending ≠ [] → h.dram.ongoing ≠ [])
    (hd : h.Draining s (n + 1) e h.cycle []) :
    { h with interconnect := h.interconnect.tick.2 }.Draining s n (e - 1) (h.cycle + 1)
      h.interconnect.tick.1 where
  messages := by
    intro m hm
    obtain ⟨m₀, hm₀, hpos, rfl⟩ := Interconnect.mem_tick_waiting.mp hm
    exact s.deadline_later hpos (hd.messages m₀ hm₀)
  arrived := by
    intro m hm hroute
    rw [Interconnect.tick_due] at hm
    have hbound := hd.messages m (List.mem_filter.mp hm).1
    rw [hroute] at hbound
    change _ < n + 1 - s.latency .l2ToL1 at hbound
    omega
  ongoing := by
    intro r hr
    have hstart := (hp.ongoing r hr).1
    have hstop := hd.ongoing r hr
    omega
  enough := by
    have hsame : { h with interconnect := h.interconnect.tick.2 }.unstarted h.interconnect.tick.1
        = h.unstarted [] := by
      rw [unstarted, unstarted, h.interconnect.asks_tick]
      exact congrArg (· + h.dram.pending.length) (Nat.zero_add _).symm
    intro hwork
    rw [hsame] at hwork ⊢
    have hpos := hd.asked_pos hp hbusy hwork
    have henough := hd.enough hwork
    omega

theorem delivered (hl : s.Legal) (hp : h.Paced s) (hd : h.Draining s n e now (m :: due))
    (h₁ : Delivered h m h') : h'.Draining s n e now due := by
  have hdue : ∀ m ∈ due, m.route = .memoryToL2 → s.latency .l2ToL1 ≤ n :=
    fun m hm => hd.arrived m (List.mem_cons_of_mem _ hm)
  have henough := hd.enough
  cases h₁ with
  | atL1 l1 counters hroute =>
    rw [unstarted, asks_cons_other (by rw [hroute]; decide)] at henough
    exact ⟨hd.messages, hdue, hd.ongoing, henough⟩
  | atMemory r counters hroute =>
    -- The request waits where its message was due before.
    have hsame : asks due + asks h.interconnect.messages + (h.dram.pending ++ [r]).length
        = h.unstarted (m :: due) := by
      rw [unstarted, asks_cons, if_pos hroute, List.length_append, List.length_singleton]
      omega
    rw [← hsame] at henough
    exact ⟨hd.messages, hdue, hd.ongoing, henough⟩
  | atL2 filled counters hroute hgeometry hhere hmisses hnotified hsent =>
    have hsame : asks filled.interconnect.messages = asks h.interconnect.messages := by
      rw [hsent]
      split
      · exact Interconnect.asks_announce _ _
      · rfl
    rw [unstarted, asks_cons_other (by rw [hroute]; decide), ← hsame] at henough
    refine ⟨?_, hdue, hd.ongoing, henough⟩
    show ∀ m ∈ filled.interconnect.messages, _
    rw [hsent]
    split
    · intro m' hm'
      rcases Interconnect.mem_sendOn.mp hm' with hm' | rfl
      · exact hd.messages m' hm'
      · have hleft := hd.arrived m List.mem_cons_self hroute
        have hpos := hl.latency_pos .l2ToL1
        rw [hp.latency_eq]
        show s.latency .l2ToL1 - 1 < n
        omega
    · exact hd.messages

/-- What memory has not begun before a tick is begun by it, or still waits. -/
theorem unstarted_ticked (hs : h.dram.Sound) {done : Dram.Cycle} {dram : Dram.Controller}
    (hmemory : h.dram.tick h.cycle = .ok (done, dram)) :
    h.unstarted [] = done.started?.toList.length
      + (asks [] + asks (h.interconnect.returning done.retired).messages
        + dram.pending.length) := by
  obtain ⟨-, hscheduled⟩ := (Dram.Controller.tick_spec hs h.cycle).of_ok hmemory
  have hpending := hscheduled.pending_length
  rw [Dram.Controller.afterRetire_pending] at hpending
  dsimp only at hpending
  rw [unstarted, Interconnect.asks_returning, ← hpending]
  omega

/-- The requests that retire have their way back before them, and one that starts has its
service. -/
theorem memory_ticked (hl : s.Legal) (hs : h.dram.Sound) (hp : h.Paced s)
    (hd : h.Draining s n e (h.cycle + 1) []) {done : Dram.Cycle} {dram : Dram.Controller}
    (hmemory : h.dram.tick h.cycle = .ok (done, dram)) (counters : Counters) :
    { h with
      dram, counters, interconnect := h.interconnect.returning done.retired
      cycle := h.cycle + 1 }.Draining s n (e + done.started?.toList.length * s.service)
      (h.cycle + 1) [] := by
  obtain ⟨hretired, hscheduled⟩ := (Dram.Controller.tick_spec hs h.cycle).of_ok hmemory
  have hongoing := hscheduled.ongoing_eq
  rw [Dram.Controller.afterRetire_ongoing] at hongoing
  dsimp only at hretired hongoing
  refine ⟨?_, List.forall_mem_nil _, ?_, ?_⟩
  · intro m hm
    rcases Interconnect.mem_returning.mp hm with hm | ⟨b, hb, rfl⟩
    · exact Nat.lt_of_lt_of_le (hd.messages m hm) (s.deadline_mono (Nat.le_add_right _ _) _)
    · rw [hretired] at hb
      obtain ⟨r, hr, -⟩ := List.mem_map.mp hb
      have hsome : 0 < h.dram.ongoing.length := List.length_pos_of_mem (List.mem_filter.mp hr).1
      have henough := hd.enough (by omega)
      have hpos := hl.latency_pos .memoryToL2
      rw [hp.latency_eq]
      show s.latency .memoryToL2 - 1 < n - s.latency .l2ToL1
      omega
  · intro r hr
    have hpaced := ((hp.dram_ticked hl hs hmemory).2.2 r hr).2
    change r ∈ dram.ongoing at hr
    rw [hongoing] at hr
    rcases List.mem_append.mp hr with hr | hr
    · have hstop := hd.ongoing r (List.mem_filter.mp hr).1
      omega
    · rw [Option.mem_toList.mp hr]
      show _ < h.cycle + 1 + (e + 1 * s.service)
      omega
  · intro hwork
    change asks [] + asks (h.interconnect.returning done.retired).messages + dram.pending.length
      + dram.ongoing.length ≠ 0 at hwork
    show e + done.started?.toList.length * s.service
      + (asks [] + asks (h.interconnect.returning done.retired).messages + dram.pending.length)
        * s.service + s.latency .memoryToL2 + s.latency .l2ToL1 ≤ n
    have hunder : (h.dram.underWay h.cycle).length ≤ h.dram.ongoing.length :=
      List.length_filter_le _ _
    have hsplit := unstarted_ticked hs hmemory
    rw [hongoing, List.length_append] at hwork
    have henough := hd.enough (by omega)
    rw [hsplit, Nat.add_mul] at henough
    omega

theorem ticked (hl : s.Legal) (hs : h.Sound frame contents []) (hp : h.Paced s)
    (hbusy : h.dram.pending ≠ [] → h.dram.ongoing ≠ []) (hd : h.Draining s (n + 1) e h.cycle [])
    (ht : Ticked h h') : ∃ e', h'.Draining s n e' h'.cycle [] := by
  obtain ⟨h₁, done, dram, counters, hdue, hmemory⟩ := ht
  have hdelivered : Ends h.deliverDue Overflows fun h₁ =>
      (h₁.Paced s ∧ h₁.cycle = h.cycle) ∧ h₁.Draining s n (e - 1) (h.cycle + 1) [] := by
    apply deliver_all_keep (fun due h₁ => (h₁.Paced s ∧ h₁.cycle = h.cycle)
      ∧ h₁.Draining s n (e - 1) (h.cycle + 1) due) ?_ _ (due_sound hs)
      ⟨⟨hp.due, rfl⟩, hd.tick_due hp hbusy⟩
    intro m due h₂ h₃ hs₂ hh₂ hd₂
    obtain ⟨⟨hp₂, hcycle₂⟩, hdrain₂⟩ := hh₂
    obtain ⟨hp₃, hcycle₃⟩ := hp₂.delivered hl hs₂ hd₂
    exact ⟨⟨hp₃, hcycle₃.trans hcycle₂⟩, hdrain₂.delivered hl hp₂ hd₂⟩
  obtain ⟨⟨hp₁, hcycle₁⟩, hdrain₁⟩ := hdelivered.of_ok hdue
  have hs₁ := (deliverDue_sound hs).of_ok hdue
  rw [← hcycle₁] at hdrain₁
  exact ⟨_, hdrain₁.memory_ticked hl hs₁.dram hp₁ hmemory counters⟩

end Draining

/-- Nothing is on its way after `n` ticks. -/
def Drains (s : Setting) (n : Nat) (h : Hierarchy) : Prop := ∃ e, h.Draining s n e h.cycle []

theorem Drains.quiescent (hl : s.Legal) (hs : h.Sound frame contents []) (hd : h.Drains s 0) :
    h.isQuiescent = true := by
  obtain ⟨e, hd⟩ := hd
  have hpos := hl.latency_pos .l2ToL1
  have hwork : h.unstarted [] + h.dram.ongoing.length = 0 := by
    by_contra hne
    have henough := hd.enough hne
    omega
  obtain ⟨hunstarted, hongoing⟩ := Nat.add_eq_zero_iff.mp hwork
  obtain ⟨hasks, hpending⟩ := Nat.add_eq_zero_iff.mp hunstarted
  have hmessages : h.interconnect.messages = [] := by
    rw [List.eq_nil_iff_forall_not_mem]
    intro m hm
    have hbound := hd.messages m hm
    cases hroute : m.route with
    | l2ToL1 => rw [hroute] at hbound; exact absurd hbound (Nat.not_lt_zero _)
    | l2ToMemory =>
      have hnone := List.countP_eq_zero.mp (Nat.add_eq_zero_iff.mp hasks).2 m hm
      exact hnone (beq_iff_eq.mpr hroute)
    | memoryToL2 =>
      rw [hroute, Setting.deadline, Nat.zero_sub] at hbound
      exact absurd hbound (Nat.not_lt_zero _)
  rw [List.length_eq_zero_iff] at hongoing hpending
  have hmisses : h.l2.misses.isEmpty = true := by
    have hlength := hs.tracked.length_eq
    rw [List.nil_append, inTransit, hmessages, Dram.Controller.requests, hongoing, hpending]
      at hlength
    rw [MissTable.isEmpty, MissTable.size_eq, hlength]
    rfl
  exact quiescent_iff.mpr ⟨hmessages, hpending, hongoing, hmisses⟩

/-- The bound of `Config.drainBound` for a setting. -/
def Setting.drainBound (s : Setting) (misses : Nat) : Nat :=
  s.latency .l2ToMemory + misses * s.service + s.latency .memoryToL2 + s.latency .l2ToL1

theorem Setting.latency_le_deadline (s : Setting) (misses more : Nat) (route : Route) :
    s.latency route
      ≤ s.deadline (s.drainBound misses) (s.latency .l2ToMemory + more) route := by
  cases route <;> simp only [deadline, drainBound] <;> omega

theorem Paced.drains (hs : h.Sound frame contents []) (hp : h.Paced s) :
    h.Drains s (s.drainBound h.l2.misses.size) := by
  have hmisses : h.unstarted [] + h.dram.ongoing.length ≤ h.l2.misses.size := by
    have hcarried := asks_le_carried h.interconnect.messages
    have hnil : asks [] = 0 := rfl
    rw [MissTable.size_eq, hs.tracked.length_eq, unstarted, inTransit, Dram.Controller.requests,
      List.nil_append, List.length_append, List.length_map, List.length_append]
    omega
  refine ⟨s.latency .l2ToMemory + h.dram.ongoing.length * s.service, ?_, List.forall_mem_nil _, ?_,
    ?_⟩
  · intro m hm
    exact Nat.lt_of_lt_of_le (hp.messages m hm) (s.latency_le_deadline _ _ m.route)
  · intro r hr
    have hstop := (hp.ongoing r hr).2
    have hsome : 0 < h.dram.ongoing.length := List.length_pos_of_mem hr
    have hservice : 1 * s.service ≤ h.dram.ongoing.length * s.service :=
      Nat.mul_le_mul_right _ hsome
    omega
  · intro _
    have hservice := Nat.mul_le_mul_right s.service hmisses
    rw [Nat.add_mul] at hservice
    rw [Setting.drainBound]
    omega

/-! ## Waiting -/

/-- What `h` has come to when it became quiescent after so many ticks, `n` at most. -/
structure Settled (h : Hierarchy) (n ticks : Nat) (h' : Hierarchy) : Prop where
  bound : ticks ≤ n
  quiescent : h'.isQuiescent = true
  run : h.run ticks = .ok h'
  least : ∀ j < ticks, ∃ between, h.run j = .ok between ∧ between.isQuiescent = false

theorem run_succ (h : Hierarchy) (cycles : Nat) (ht : h.tick = .ok h') :
    h.run (cycles + 1) = h'.run cycles := by
  rw [run, ht]
  rfl

theorem Settled.later (hquiet : h.isQuiescent = false) (ht : h.tick = .ok h') {ticks : Nat}
    {last : Hierarchy} (hs : h'.Settled n ticks last) : h.Settled (n + 1) (ticks + 1) last where
  bound := Nat.succ_le_succ hs.bound
  quiescent := hs.quiescent
  run := by
    rw [run_succ h ticks ht]
    exact hs.run
  least := by
    intro j hj
    cases j with
    | zero => exact ⟨h, rfl, hquiet⟩
    | succ j =>
      rw [run_succ h j ht]
      exact hs.least j (Nat.lt_of_succ_lt_succ hj)

/-- Where every tick uses up one of those that are left, and none is left only if nothing is on
its way, waiting ends in time. -/
theorem settle_of_measure {E : Fault → Prop} (I : Nat → Hierarchy → Prop)
    (hquiet : ∀ h, I 0 h → h.isQuiescent = true)
    (htick : ∀ n h, I (n + 1) h → Ends h.tick E (I n)) :
    ∀ (limit n : Nat) (h : Hierarchy) (waited : Nat), I n h → n ≤ limit →
      Ends (h.settle limit waited) E fun r => ∃ ticks, r.1 = waited + ticks
        ∧ h.Settled n ticks r.2
  | limit, n, h, waited, hI, hle => by
    by_cases hq : h.isQuiescent = true
    · have hnow : h.settle limit waited = .ok (waited, h) := by
        cases limit with
        | zero => rfl
        | succ limit => rw [settle, if_pos hq]
      rw [hnow]
      exact ⟨0, rfl, ⟨Nat.zero_le _, hq, rfl, fun j hj => absurd hj (Nat.not_lt_zero j)⟩⟩
    · match limit, n, hI, hle with
      | _, 0, hI, _ => exact absurd (hquiet h hI) hq
      | limit + 1, n + 1, hI, hle =>
        rw [settle, if_neg hq]
        apply Ends.bind' (htick n h hI).and_eq
        intro h₁ hh₁
        apply (settle_of_measure I hquiet htick limit n h₁ (waited + 1) hh₁.1
          (Nat.le_of_succ_le_succ hle)).weaken
        intro r hr
        obtain ⟨ticks, hwaited, hsettled⟩ := hr
        refine ⟨ticks + 1, ?_, hsettled.later (Bool.eq_false_iff.mpr hq) hh₁.2⟩
        rw [hwaited]
        omega

/-! ## Nothing on its way -/

/-- The hierarchy after so many cycles in which nothing happened. -/
def idleFor (h : Hierarchy) (cycles : Nat) : Hierarchy :=
  { h with
    cycle := h.cycle + cycles
    counters := { h.counters with cycles := h.cycle + cycles } }

theorem tick_quiescent (hq : h.isQuiescent = true) (hcycle : h.cycle + 1 < UInt64.size) :
    h.tick = .ok (h.idleFor 1) := by
  obtain ⟨hmessages, hpending, hongoing, -⟩ := quiescent_iff.mp hq
  have hdue : h.deliverDue = .ok h := by
    obtain ⟨l1, l2, ⟨messages, latencies⟩, dram, memories, memoryBytes, cycle, counters⟩ := h
    subst hmessages
    rfl
  have hmemory : h.tickMemory = .ok h := by
    rw [tickMemory, Dram.Controller.tick_idle ⟨hpending, hongoing⟩]
    rfl
  have hsum : sum64 h.cycle 1 = .ok (h.cycle + 1) := sum64_eq_ok.mpr ⟨hcycle, rfl⟩
  rw [tick, hdue]
  apply bind_eq_ok.mpr ⟨h, hmemory, ?_⟩
  rw [advance, hsum]
  rfl

/-- Where nothing is on its way, the ticks change the clock and nothing else. -/
theorem run_quiescent : ∀ (k : Nat) (h : Hierarchy), h.isQuiescent = true →
    h.cycle + (k + 1) < UInt64.size → h.run (k + 1) = .ok (h.idleFor (k + 1))
  | 0, h, hq, hcycle => by
    rw [run_succ h 0 (tick_quiescent hq hcycle)]
    rfl
  | k + 1, h, hq, hcycle => by
    have hnext : (h.idleFor 1).cycle + (k + 1) = h.cycle + (k + 1 + 1) := by
      show h.cycle + 1 + (k + 1) = _
      omega
    rw [run_succ h (k + 1) (tick_quiescent hq (by omega)),
      run_quiescent k (h.idleFor 1) hq (by rw [hnext]; exact hcycle), idleFor, hnext]
    rfl

/-! ## Every state -/

/-- A hierarchy in which nothing is on its way after `n` ticks, with the cycles for them; and with
room to count what is on its way, if it is known to have any. -/
structure InTime (frame : Frame) (s : Setting) (contents : Kind → Nat → Word) (spacious : Prop)
    (n : Nat) (h : Hierarchy) : Prop where
  sound : h.Sound frame contents []
  paced : h.Paced s
  busy : h.dram.pending ≠ [] → h.dram.ongoing ≠ []
  drains : h.Drains s n
  cycle : h.cycle + n + s.wiring.timing.horizon < UInt64.size
  roomy : spacious → h.Roomy 0

theorem InTime.tick {spacious : Prop} (hl : s.Legal)
    (hh : h.InTime frame s contents spacious (n + 1)) :
    Ends h.tick (fun f => f = .overflow ∧ ¬spacious) (InTime frame s contents spacious n) := by
  obtain ⟨e, hd⟩ := hh.drains
  have hcycle := hh.cycle
  have hafter : ∀ h', h'.Sound frame contents [] ∧ Ticked h h' → (spacious → h'.Roomy 0) →
      h'.InTime frame s contents spacious n := by
    intro h' hh' hroomy
    obtain ⟨hs', ht⟩ := hh'
    obtain ⟨hp', hcycle', hbusy'⟩ := hh.paced.ticked hl hh.sound ht
    refine ⟨hs', hp', hbusy', hd.ticked hl hh.sound hh.paced hh.busy ht, ?_, hroomy⟩
    rw [hcycle']
    omega
  have hticked := (tick_sound hh.sound).both (tick_effect hh.sound)
  by_cases hspacious : spacious
  · apply (hticked.and_never (tick_roomy hl hh.sound hh.paced (hh.roomy hspacious) (by omega))).mono
    · exact fun _ he => he.elim
    · exact fun h' hh' => hafter h' hh'.1 fun _ => hh'.2
  · apply hticked.mono
    · exact fun _ he => ⟨he.1, hspacious⟩
    · exact fun h' hh' => hafter h' hh' fun hs => absurd hs hspacious

/-- **Draining.** Whatever has been done to a hierarchy, waiting for it ends with nothing on its
way, after `drainBound` ticks at most and no later than it must; from then on only the clock
moves. What is on its way can always be counted, unless `2 ^ 60` actions have used up a counter. -/
theorem settle_drains (c : Config) (g : Config.Geometries) (hc : c.validate = .ok g)
    (past : List (Action × Reply)) (h : Hierarchy) (hreach : Reaches c past h) (limit : Nat)
    (hlimit : c.drainBound h.l2.misses.size ≤ limit)
    (hcycle : h.cycle + c.drainBound h.l2.misses.size + h.dram.timing.horizon < UInt64.size) :
    Ends (h.settle limit) (fun f => f = .overflow ∧ twoPow 60 ≤ past.length) fun r =>
      h.Settled (c.drainBound h.l2.misses.size) r.1 r.2
        ∧ ∀ k, r.2.cycle + (k + 1) < UInt64.size → r.2.run (k + 1) = .ok (r.2.idleFor (k + 1)) := by
  have hl := Setting.ofConfig_legal (Config.validate_fitted hc)
  obtain ⟨contents, hpace⟩ := hreach.inPace hc
  have hs := hpace.holds.sound
  have hstart : h.InTime (Frame.ofConfig c g) (Setting.ofConfig c g)
      (contentsAfter (Frame.ofConfig c g).geometry contents past) (past.length < twoPow 60)
      (c.drainBound h.l2.misses.size) := by
    refine ⟨hs, hpace.paced, hpace.busy, hpace.paced.drains hs, ?_, ?_⟩
    · rw [← hpace.paced.timing_eq]
      exact hcycle
    · exact fun hlt => (hreach.roomy hc (Nat.le_of_lt hlt)).mono (Nat.zero_le _)
  have hsettle := settle_of_measure _ (fun h' hh' => hh'.drains.quiescent hl hh'.sound)
    (fun n h' hh' => hh'.tick hl) limit _ h 0 hstart hlimit
  apply hsettle.mono
  · exact fun _ he => ⟨he.1, Nat.not_lt.mp he.2⟩
  · intro r hr
    obtain ⟨ticks, hticks, hsettled⟩ := hr
    rw [Nat.zero_add] at hticks
    rw [hticks]
    exact ⟨hsettled, fun k => run_quiescent k r.2 hsettled.quiescent⟩

/-- Two outstanding misses, one of them a tick ahead. -/
theorem settle_drains_two_misses :
    ∃ (c : Config) (g : Config.Geometries) (past : List (Action × Reply)) (h : Hierarchy),
      c.validate = .ok g ∧ Reaches c past h ∧ h.l2.misses.size = 2 ∧ c.drainBound 2 = 9
        ∧ h.cycle + 9 + h.dram.timing.horizon < UInt64.size
        ∧ ∃ r, h.settle 9 = .ok r ∧ h.Settled 9 r.1 r.2
          ∧ ∀ k, r.2.cycle + (k + 1) < UInt64.size →
            r.2.run (k + 1) = .ok (r.2.idleFor (k + 1)) := by
  obtain ⟨c, g, h₀, hvalid, hbuild, hbytes, hbound, r, hr, hsize, hcycle, hlength⟩ :
      ∃ (c : Config) (g : Config.Geometries) (h₀ : Hierarchy), c.validate = .ok g
        ∧ ofConfig? c = .ok h₀ ∧ c.general.memoryBytes.toNat = 16 ∧ c.drainBound 2 = 9
        ∧ ∃ r, record Hierarchy.perform h₀ [.access .data 5, .tick, .access .data 13] = .ok r
          ∧ r.2.l2.misses.size = 2 ∧ r.2.cycle + 9 + r.2.dram.timing.horizon = 14
          ∧ r.1.length = 3 :=
    ⟨{ general := { wordBits := 8, memoryBytes := 16 }
       caches := { l1Instruction := ⟨4, 1, 4⟩, l1Data := ⟨4, 1, 4⟩, l2 := ⟨8, 1, 4⟩ }
       missTracking := { entries := 2 }
       latencies := ⟨1, 1, 1⟩
       dram := ⟨1, 4, 1, 1, 1⟩ }, _, _, rfl, rfl, rfl, rfl, _, rfl, rfl, rfl, rfl⟩
  obtain ⟨past, h⟩ := r
  have hreach : Reaches c past h := by
    refine ⟨h₀, [], h₀, _, hbuild, rfl, ?_, hr⟩
    rw [hbytes]
    simp [Action.InRange]
  have hword : h.cycle + 9 + h.dram.timing.horizon < UInt64.size := by
    rw [hcycle]
    decide
  have hends := settle_drains c g hvalid past h hreach 9 (by rw [hsize]; exact Nat.le_of_eq hbound)
    (by rw [hsize, hbound]; exact hword)
  rw [hsize, hbound] at hends
  have hshort : ¬twoPow 60 ≤ past.length := by
    rw [hlength]
    decide
  obtain ⟨last, hlast, hsettled⟩ :=
    Ends.exists_ok (Ends.mono hends (fun _ he => hshort he.2) fun _ h => h)
  exact ⟨c, g, past, h, hvalid, hreach, hsize, hbound, hword, last, hlast, hsettled⟩

end Hierarchy

end MemoryHierarchy
