import MemoryHierarchy.Proofs.Hierarchy.Pace

/-!
How much of 64 bits a run can use up.

Every counter, clock and number of a hierarchy grows by a bounded amount with each action, but not
at once: a message counts when it arrives, and again what its arrival sends. `debt` is the amount
that everything on its way will still cost; `Roomy n` says that all counters have room for the
debt and for `n` more. An action pays for what it starts (`perform_roomy`), a tick only pays debts
(`tick_roomy`), and so a run of fewer than `2 ^ 60` actions goes through (`runs_complete`).
-/

namespace MemoryHierarchy

open LineStore

theorem LineStore.ends_of_clock {α : Type} {s : LineStore} {x : Except Fault α} {P : α → Prop}
    (hx : Ends x s.Exhausted P) (h : s.clock + 1 < UInt64.size) : Ends x Never P :=
  hx.mono (fun _ he => absurd h (Nat.not_lt.mpr he.2)) fun _ h => h

/-! ## Counters -/

namespace Counters

/-- Every count but that of the cycles can grow by `n`. -/
def Room (n : Nat) (c : Counters) : Prop := ∀ k, k ≠ .cycles → c.get k + n < UInt64.size

variable {c : Counters} {n : Nat}

theorem Room.mono {n' : Nat} (h : c.Room n) (hle : n' ≤ n) : c.Room n' := by
  intro k hk
  have hroom := h k hk
  omega

theorem increment_room {name : Counter} (hname : name ≠ .cycles) (h : c.Room (n + 1)) :
    Ends (c.increment name) Never (Room n) := by
  have hroom := h name hname
  have hsum : sum64 (c.get name) 1 = .ok (c.get name + 1) :=
    sum64_eq_ok.mpr ⟨by omega, rfl⟩
  rw [increment]
  apply Ends.bind_ok hsum
  apply Ends.pure'
  intro k hk
  by_cases hkn : k = name
  · rw [hkn, get_set_self]
    omega
  · rw [get_set_of_ne c _ hkn]
    have hother := h k hk
    omega

theorem incrementIf_room {name : Counter} (hname : name ≠ .cycles) (happened : Bool)
    (h : c.Room (n + 1)) : Ends (c.incrementIf happened name) Never (Room n) := by
  rw [incrementIf]
  apply Ends.ite'
  · exact fun _ => increment_room hname h
  · exact fun _ => h.mono (Nat.le_succ n)

theorem countLookup_room (kind : Kind) (outcome : Outcome) (h : c.Room (n + 1)) :
    Ends (c.countLookup kind outcome) Never (Room n) := by
  cases kind <;> cases outcome <;> exact increment_room (by decide) h

theorem countResponse_room (response : L2.Response) (h : c.Room (n + 2)) :
    Ends (c.countResponse response) Never (Room n) := by
  cases response with
  | hit => exact increment_room (by decide) (h.mono (Nat.le_succ _))
  | miss disposition =>
    apply Ends.bind' (increment_room (by decide) h)
    intro c' hc'
    exact increment_room (by cases disposition <;> decide) hc'

theorem countRow_room (status : Dram.RowStatus) (h : c.Room (n + 1)) :
    Ends (c.countRow status) Never (Room n) := by
  cases status <;> exact increment_room (by decide) h

end Counters

/-! ## Debt -/

/-- What the delivery of a message will cost, with all that follows from it. -/
def Route.cost : Route → Nat
  | .l2ToL1 => 2
  | .l2ToMemory => 9
  | .memoryToL2 => 5

/-- What these messages will cost. -/
def costOf : List Message → Nat
  | [] => 0
  | m :: rest => m.route.cost + costOf rest

theorem costOf_append (l₁ l₂ : List Message) : costOf (l₁ ++ l₂) = costOf l₁ + costOf l₂ := by
  induction l₁ with
  | nil => exact (Nat.zero_add _).symm
  | cons m rest ih => rw [List.cons_append, costOf, costOf, ih, Nat.add_assoc]

theorem costOf_countDown (l : List Message) : costOf (l.map Message.countDown) = costOf l := by
  induction l with
  | nil => rfl
  | cons m rest ih => rw [List.map_cons, costOf, costOf, ih, Message.countDown]

theorem costOf_perm {l₁ l₂ : List Message} (h : l₁.Perm l₂) : costOf l₁ = costOf l₂ := by
  induction h with
  | nil => rfl
  | cons m _ ih => rw [costOf, costOf, ih]
  | swap m m' l => rw [costOf, costOf, costOf, costOf, Nat.add_left_comm]
  | trans _ _ ih₁ ih₂ => exact ih₁.trans ih₂

namespace Interconnect

/-- What the messages will cost. -/
def cost (ic : Interconnect) : Nat := costOf ic.messages

theorem cost_sendOn (ic : Interconnect) (b : BlockRef) (route : Route) :
    (ic.sendOn b route).cost = ic.cost + route.cost := by
  rw [cost, sendOn, send, costOf_append]
  rfl

theorem cost_tick (ic : Interconnect) : costOf ic.tick.1 + ic.tick.2.cost = ic.cost := by
  rw [cost, cost, tick_due, tick_waiting, costOf_countDown, ← costOf_append]
  exact costOf_perm (List.filter_append_perm Message.isDue ic.messages)

end Interconnect

namespace Dram.Controller

/-- What the requests will cost. -/
def cost (c : Controller) : Nat := 7 * c.pending.length + 6 * c.ongoing.length

/-- A cycle of the controller turns the cost of a waiting request into that of one under way, and
drops the cost of those that retire. -/
theorem tick_cost {c : Controller} (hc : c.Sound) (now : Nat) :
    Ends (c.tick now) Overflows fun r =>
      r.2.cost + 6 * r.1.retired.length + r.1.started?.toList.length = c.cost
        ∧ r.2.nextId = c.nextId := by
  apply (tick_lengths hc now).weaken
  intro r hr
  obtain ⟨hpending, hongoing, hid⟩ := hr
  refine ⟨?_, hid⟩
  rw [cost, cost]
  omega

end Dram.Controller

namespace Hierarchy

/-- What everything on its way will cost. -/
def debt (h : Hierarchy) : Nat := h.interconnect.cost + h.dram.cost

/-- All that counts up has room for the debt and for `n` more. -/
structure Roomy (n : Nat) (h : Hierarchy) : Prop where
  counters : h.counters.Room (h.debt + n)
  l1 : ∀ kind, (h.l1.get kind).store.clock + h.debt + n < UInt64.size
  l2 : h.l2.store.clock + h.debt + n < UInt64.size
  dram : h.dram.nextId + h.debt + n < UInt64.size

variable {frame : Frame} {contents : Kind → Nat → Word} {held : List BlockRef} {h h' : Hierarchy}
  {s : Setting} {n : Nat}

/-- What becomes of the room when the debt grows, and the rest by one at most. -/
theorem Roomy.spend {n' : Nat} (hr : h.Roomy n) (hdebt : h'.debt + n' + 1 ≤ h.debt + n)
    (hcounters : h'.counters.Room (h'.debt + n'))
    (hl1 : ∀ kind, L1.Kept (h.l1.get kind) (h'.l1.get kind))
    (hl2 : h'.l2.store.clock ≤ h.l2.store.clock + 1)
    (hdram : h'.dram.nextId ≤ h.dram.nextId + 1) : h'.Roomy n' where
  counters := hcounters
  l1 kind := by
    have hroom := hr.l1 kind
    have hclock := (hl1 kind).clock
    omega
  l2 := by
    have hroom := hr.l2
    omega
  dram := by
    have hroom := hr.dram
    omega

/-! ## Requests -/

theorem lookUp_roomy (hs : h.Sound frame contents held) (hr : h.Roomy (n + 1)) (kind : Kind)
    (a : Nat) : Ends (h.lookUp kind a) Never fun r => r.2.Roomy n := by
  have hclock := hr.l1 kind
  rw [lookUp]
  apply Ends.bind' (ends_of_clock (L1.access_spec (hs.l1 kind) a) (by omega))
  intro found hfound
  apply Ends.bind' (Counters.countLookup_room (n := h.debt + n) _ _ hr.counters)
  intro counters hcounters
  exact Ends.pure' (hr.spend (Nat.le_refl _) hcounters (l1_kept hs hfound.1) (Nat.le_succ _)
    (Nat.le_succ _))

theorem probe_roomy (hs : h.Sound frame contents held) (hr : h.Roomy (n + 11)) (p : Probe) :
    Ends (h.probe p) Never fun r => r.2.Roomy n := by
  have hclock := hr.l2
  rw [probe]
  apply Ends.bind' (ends_of_clock (L2.probe_spec hs.coherent.sound p h.interconnect) (by omega))
  intro probed hprobed
  have hl2 : probed.cache.store.clock ≤ h.l2.store.clock + 1 := by
    rcases hprobed with ⟨way, line, -, rfl⟩ | ⟨-, rfl⟩
    · exact Nat.le_refl _
    · rw [L2.probeMiss_store]
      exact Nat.le_succ _
  have hcost : probed.interconnect.cost ≤ h.interconnect.cost + 9 := by
    rcases probe_sends hprobed with heq | ⟨b, route, heq⟩
    · rw [heq]
      exact Nat.le_add_right _ _
    · rw [heq, Interconnect.cost_sendOn]
      exact Nat.add_le_add_left (by cases route <;> decide) _
  have hcounters := hr.counters
  rw [debt] at hcounters
  apply Ends.bind' (Counters.countResponse_room (n := probed.interconnect.cost + h.dram.cost + n) _
    (hcounters.mono (by omega)))
  intro counters hcounters'
  have hdebt : probed.interconnect.cost + h.dram.cost + n + 1
      ≤ h.interconnect.cost + h.dram.cost + (n + 11) := by omega
  exact Ends.pure' (hr.spend hdebt hcounters' (fun kind => ⟨rfl, rfl, Nat.le_succ _, hs.l1 kind⟩)
    hl2 (Nat.le_succ _))

theorem Roomy.mono {n' : Nat} (hr : h.Roomy n) (hle : n' ≤ n) : h.Roomy n' where
  counters := hr.counters.mono (Nat.add_le_add_left hle _)
  l1 kind := Nat.lt_of_le_of_lt (Nat.add_le_add_left hle _) (hr.l1 kind)
  l2 := Nat.lt_of_le_of_lt (Nat.add_le_add_left hle _) hr.l2
  dram := Nat.lt_of_le_of_lt (Nat.add_le_add_left hle _) hr.dram

/-- What is left after a counter has counted. -/
theorem Roomy.withCounters (hr : h.Roomy (n + 1)) {counters : Counters}
    (hcounters : counters.Room (h.debt + n)) : { h with counters }.Roomy n :=
  ⟨hcounters, (hr.mono (Nat.le_succ n)).l1, (hr.mono (Nat.le_succ n)).l2,
    (hr.mono (Nat.le_succ n)).dram⟩

theorem access_roomy (hs : h.Sound frame contents held) (hr : h.Roomy (n + 13)) (kind : Kind)
    {a : Nat} (ha : a < frame.memoryBytes) :
    Ends (h.access kind a) Never fun r => r.2.Roomy n := by
  rw [access]
  apply Ends.bind_ok (checkAddress_eq hs ha)
  apply Ends.bind' ((lookUp_sound hs kind a).and_never (lookUp_roomy (n := n + 12) hs hr kind a))
  intro found hfound
  obtain ⟨lookup, h₁⟩ := found
  obtain ⟨⟨hs₁, -⟩, hr₁⟩ := hfound
  cases lookup with
  | hit => exact Ends.pure' (hr₁.mono (Nat.le_add_right _ _))
  | miss p =>
    apply Ends.bind' (probe_roomy hs₁ (hr₁.mono (Nat.le_succ _)) p)
    exact fun _ hr₂ => Ends.pure' hr₂

theorem write_roomy (hs : h.Sound frame contents held) (hr : h.Roomy (n + 13)) {a : Nat}
    (ha : a < frame.memoryBytes) (word : Word) :
    Ends (h.write a word) Never fun r => r.2.Roomy n := by
  rw [write]
  apply Ends.bind_ok (checkAddress_eq hs ha)
  apply Ends.bind' ((lookUp_sound hs .data a).and_never (lookUp_roomy (n := n + 12) hs hr .data a))
  intro found hfound
  apply Ends.bind' (probe_roomy (n := n + 1) hfound.1.1 hfound.2 _)
  intro probed hr₂
  apply Ends.bind' (Counters.incrementIf_room (by decide) _ hr₂.counters)
  exact fun counters hcounters => Ends.pure' (hr₂.withCounters hcounters)

theorem cancel_roomy (hr : h.Roomy (n + 1)) (kind : Kind) (a : Nat) :
    Ends (h.cancel kind a) Never fun r => r.2.Roomy n := by
  rw [cancel]
  apply Ends.bind' (Counters.incrementIf_room (n := h.debt + n) (by decide) _ hr.counters)
  intro counters hcounters
  have hleft := hr.withCounters hcounters
  exact Ends.pure' ⟨hleft.counters, hleft.l1, hleft.l2, hleft.dram⟩

/-! ## Ticks -/

theorem arriveAtL1_roomy (hs : h.Sound frame contents held) (hr : h.Roomy (n + 1)) (b : BlockRef) :
    Ends (h.arriveAtL1 b) Never (Roomy n) := by
  have hclock := hr.l1 b.kind
  rw [arriveAtL1]
  apply Ends.bind' (ends_of_clock (L1.insert_spec (hs.l1 b.kind) b.address) (by omega))
  intro inserted hinserted
  apply Ends.bind' (Counters.incrementIf_room (n := h.debt + n) (by decide) _ hr.counters)
  intro counters hcounters
  exact Ends.pure' (hr.spend (Nat.le_refl _) hcounters (l1_kept hs hinserted.1) (Nat.le_succ _)
    (Nat.le_succ _))

theorem arriveAtMemory_roomy (hs : h.Sound frame contents held) (hr : h.Roomy (n + 8))
    (hw : h.dram.wiring.Legal) (hcycle : h.cycle + h.dram.timing.horizon < UInt64.size)
    (b : BlockRef) : Ends (h.arriveAtMemory b) Never (Roomy n) := by
  have hid := hr.dram
  rw [arriveAtMemory]
  apply Ends.bind' ((Dram.Controller.add_spec hs.dram.maskable b h.cycle).and_never
    (Dram.Controller.add_total hs.dram.maskable hw b hcycle (by omega)))
  intro added hadded
  obtain ⟨r, dram⟩ := added
  obtain ⟨⟨heq, -⟩, -⟩ := hadded
  dsimp only at heq
  subst heq
  have hcost : { h.dram with
      pending := h.dram.pending ++ [r], nextId := h.dram.nextId + 1 }.cost = h.dram.cost + 7 := by
    simp only [Dram.Controller.cost, List.length_append, List.length_singleton]
    omega
  have hcounters := hr.counters
  apply Ends.bind' (Counters.increment_room (n := h.debt + 7 + n) (by decide)
    (hcounters.mono (by omega)))
  intro counters hcounters'
  have hdebt : h.interconnect.cost + { h.dram with
      pending := h.dram.pending ++ [r], nextId := h.dram.nextId + 1 }.cost = h.debt + 7 := by
    rw [hcost, debt]
    omega
  apply Ends.pure'
  refine hr.spend ?_ ?_ (fun kind => ⟨rfl, rfl, Nat.le_succ _, hs.l1 kind⟩) (Nat.le_succ _)
    (Nat.le_refl _)
  · show h.interconnect.cost + _ + n + 1 ≤ _
    rw [hdebt]
    omega
  · show counters.Room (h.interconnect.cost + _ + n)
    rw [hdebt]
    exact hcounters'

theorem arriveAtL2_roomy {b : BlockRef} (hs : h.Sound frame contents (b :: held))
    (hr : h.Roomy (n + 4)) : Ends (h.arriveAtL2 b) Never (Roomy n) := by
  have hclock := hr.l2
  obtain ⟨-, -, hfill⟩ := held_arrival hs
  rw [arriveAtL2]
  apply Ends.bind' (ends_of_clock hfill (by omega))
  intro filled hfilled
  have hcounters := hr.counters
  apply Ends.bind' (Counters.increment_room (n := h.debt + n + 3) (by decide) hcounters)
  intro counters hcounters'
  apply Ends.bind' (Counters.incrementIf_room (n := h.debt + n + 2) (by decide) _ hcounters')
  intro counters' hcounters''
  have hcost : filled.interconnect.cost ≤ h.interconnect.cost + 2 := by
    rw [hfilled.interconnect]
    split
    · rw [Interconnect.cost_sendOn]
      exact Nat.le_refl _
    · exact Nat.le_add_right _ _
  have hdebt : filled.interconnect.cost + h.dram.cost + n + 1
      ≤ h.interconnect.cost + h.dram.cost + (n + 4) := by omega
  apply Ends.pure'
  refine hr.spend hdebt (hcounters''.mono ?_) (fun kind => ⟨rfl, rfl, Nat.le_succ _, hs.l1 kind⟩)
    (Nat.le_of_eq hfilled.clock) (Nat.le_succ _)
  show filled.interconnect.cost + h.dram.cost + n ≤ h.interconnect.cost + h.dram.cost + n + 2
  omega

/-- A delivery costs what the message was expected to cost. -/
theorem deliver_roomy {m : Message} {due : List Message}
    (hs : h.Sound frame contents (carried (m :: due))) (hr : h.Roomy (n + m.route.cost))
    (hw : h.dram.wiring.Legal) (hcycle : h.cycle + h.dram.timing.horizon < UInt64.size) :
    Ends (h.deliver m) Never (Roomy n) := by
  obtain ⟨b, remaining, route⟩ := m
  have hdelivered : ∀ k, h.Roomy (n + k + 1) →
      Ends (h.counters.increment .messagesDelivered) Never fun counters =>
        { h with counters }.Roomy (n + k) := by
    intro k hr
    apply (Counters.increment_room (n := h.debt + (n + k)) (by decide) hr.counters).weaken
    exact fun counters hcounters => hr.withCounters hcounters
  rw [deliver]
  cases route with
  | l2ToL1 =>
    apply Ends.bind' (hdelivered 1 hr)
    exact fun counters hr' => arriveAtL1_roomy (hs.withCounters counters) hr' b
  | l2ToMemory =>
    apply Ends.bind' (hdelivered 8 hr)
    exact fun counters hr' => arriveAtMemory_roomy (hs.withCounters counters) hr' hw hcycle b
  | memoryToL2 =>
    apply Ends.bind' (hdelivered 4 hr)
    exact fun counters hr' => arriveAtL2_roomy (hs.withCounters counters) hr'

/-- The debt may pass from one place to another, or shrink. -/
theorem Roomy.trade {n' : Nat} (hr : h.Roomy n) {ic : Interconnect} {dram : Dram.Controller}
    (hcost : ic.cost + dram.cost + n' ≤ h.debt + n) (hid : dram.nextId = h.dram.nextId) :
    { h with interconnect := ic, dram }.Roomy n' where
  counters := hr.counters.mono hcost
  l1 kind := by
    have hroom := hr.l1 kind
    show (h.l1.get kind).store.clock + (ic.cost + dram.cost) + n' < _
    omega
  l2 := by
    have hroom := hr.l2
    show h.l2.store.clock + (ic.cost + dram.cost) + n' < _
    omega
  dram := by
    have hroom := hr.dram
    show dram.nextId + (ic.cost + dram.cost) + n' < _
    omega

theorem deliverDue_roomy (hl : s.Legal) (hs : h.Sound frame contents []) (hp : h.Paced s)
    (hr : h.Roomy n) (hcycle : h.cycle + s.wiring.timing.horizon < UInt64.size) :
    Ends h.deliverDue Never (Roomy n) := by
  have hcost := h.interconnect.cost_tick
  have hdue : { h with interconnect := h.interconnect.tick.2 }.Roomy
      (n + costOf h.interconnect.tick.1) := hr.trade (by rw [debt]; omega) rfl
  -- The messages still to be delivered are paid for already.
  have hfold : Ends (h.interconnect.tick.1.foldlM deliver
      { h with interconnect := h.interconnect.tick.2 }) Never fun h₁ =>
      h₁.Sound frame contents (carried []) ∧ (h₁.Paced s ∧ h₁.cycle = h.cycle)
        ∧ h₁.Roomy (n + costOf []) := by
    apply Ends.foldlM' (fun (due : List Message) (h₁ : Hierarchy) =>
      h₁.Sound frame contents (carried due)
      ∧ (h₁.Paced s ∧ h₁.cycle = h.cycle) ∧ h₁.Roomy (n + costOf due)) ?_ _ _
      ⟨due_sound hs, ⟨hp.due, rfl⟩, hdue⟩
    intro m due h₁ hh₁
    obtain ⟨hs₁, ⟨hp₁, hcycle₁⟩, hr₁⟩ := hh₁
    rw [costOf, Nat.add_comm m.route.cost, ← Nat.add_assoc] at hr₁
    have hhorizon : h₁.cycle + h₁.dram.timing.horizon < UInt64.size := by
      rw [hcycle₁, hp₁.timing_eq]
      exact hcycle
    have hstep := ((deliver_sound hs₁).both (deliver_effect hs₁)).and_never
      (deliver_roomy hs₁ hr₁ (hp₁.wiring ▸ hl.wiring) hhorizon)
    apply hstep.weaken
    intro h₂ hh₂
    obtain ⟨⟨hs₂, hd⟩, hr₂⟩ := hh₂
    obtain ⟨hp₂, hcycle₂⟩ := hp₁.delivered hl hs₁ hd
    exact ⟨hs₂, ⟨hp₂, hcycle₂.trans hcycle₁⟩, hr₂⟩
  exact hfold.weaken fun _ hh => hh.2.2

theorem sendBack_roomy (hr : h.Roomy (n + 6)) (b : BlockRef) :
    Ends (h.sendBack b) Never (Roomy n) := by
  rw [sendBack]
  apply Ends.bind' (Counters.increment_room (n := h.debt + (n + 5)) (by decide) hr.counters)
  intro counters hcounters
  have hcost := h.interconnect.cost_sendOn b .memoryToL2
  change _ = _ + 5 at hcost
  refine Ends.pure' ((hr.withCounters hcounters).trade ?_ rfl)
  show _ + h.dram.cost + n ≤ h.interconnect.cost + h.dram.cost + (n + 5)
  omega

theorem tickMemory_roomy (hl : s.Legal) (hs : h.Sound frame contents held) (hp : h.Paced s)
    (hr : h.Roomy n) (hcycle : h.cycle + s.wiring.timing.horizon < UInt64.size) :
    Ends h.tickMemory Never (Roomy n) := by
  rw [← hp.timing_eq] at hcycle
  have htick := (Dram.Controller.tick_cost hs.dram h.cycle).and_never
    (hs.dram.tick_total (hp.wiring ▸ hl.wiring) hcycle)
  rw [tickMemory]
  apply Ends.bind' htick
  intro ticked hticked
  obtain ⟨done, dram⟩ := ticked
  obtain ⟨⟨hcost, hid⟩, -⟩ := hticked
  have hstart : { h with dram }.Roomy (n + done.started?.toList.length + 6 * done.retired.length) :=
    hr.trade (by rw [debt, ← hcost]; dsimp only; omega) hid
  have hfold : Ends (done.retired.foldlM sendBack { h with dram }) Never fun h₁ =>
      h₁.Roomy (n + done.started?.toList.length + 6 * ([] : List BlockRef).length) := by
    apply Ends.foldlM' (fun blocks h₁ =>
      Roomy (n + done.started?.toList.length + 6 * blocks.length) h₁) ?_ _ _ hstart
    intro b blocks h₁ hr₁
    exact sendBack_roomy hr₁ b
  apply Ends.bind' hfold
  intro h₁ hr₁
  cases hstarted : done.started? with
  | none => exact Ends.pure' (hr₁.mono (Nat.le_add_right _ _))
  | some request =>
    rw [hstarted] at hr₁
    apply Ends.bind' (Counters.countRow_room (n := h₁.debt + n) _ hr₁.counters)
    exact fun counters hcounters => Ends.pure' (Roomy.withCounters hr₁ hcounters)

/-- A tick needs room for what is on its way and nothing else. -/
theorem tick_roomy (hl : s.Legal) (hs : h.Sound frame contents []) (hp : h.Paced s)
    (hr : h.Roomy n) (hcycle : h.cycle + s.wiring.timing.horizon < UInt64.size) :
    Ends h.tick Never (Roomy n) := by
  have hbefore := (((deliverDue_sound hs).both (hp.deliverDue hl hs)).and_never
    (deliverDue_roomy hl hs hp hr hcycle))
  rw [tick]
  apply Ends.bind' hbefore
  intro h₁ hh₁
  obtain ⟨⟨hs₁, hp₁, hcycle₁⟩, hr₁⟩ := hh₁
  rw [← hcycle₁] at hcycle
  apply Ends.bind' ((tickMemory_effect hs₁.dram).and_never (tickMemory_roomy hl hs₁ hp₁ hr₁ hcycle))
  intro h₂ hh₂
  obtain ⟨⟨done, dram, -, heq⟩, hr₂⟩ := hh₂
  have hcycle₂ : h₂.cycle = h₁.cycle := by rw [heq]
  have hpos := hl.wiring.timing.horizon_pos
  have hsum : sum64 h₂.cycle 1 = .ok (h₂.cycle + 1) :=
    sum64_eq_ok.mpr ⟨by rw [hcycle₂]; omega, rfl⟩
  rw [advance]
  apply Ends.bind_ok hsum
  refine Ends.pure' ⟨?_, hr₂.l1, hr₂.l2, hr₂.dram⟩
  intro k hk
  have hroom := hr₂.counters k hk
  show ((h₂.counters.set .cycles _).get k) + _ < _
  rw [Counters.get_set_of_ne _ _ hk]
  exact hroom

/-! ## Runs -/

theorem perform_roomy (hl : s.Legal) (hs : h.Sound frame contents []) (hp : h.Paced s)
    (hr : h.Roomy (n + 13)) {action : Action} (haction : action.InRange frame.memoryBytes)
    (hcycle : h.cycle + [action].count .tick + s.wiring.timing.horizon ≤ UInt64.size) :
    Ends (h.perform action) Never fun r => r.2.Roomy n := by
  cases action with
  | access kind a =>
    apply Ends.bind' (access_roomy hs hr kind haction)
    exact fun _ hr' => Ends.pure' hr'
  | write a word =>
    apply Ends.bind' (write_roomy hs hr haction word)
    exact fun _ hr' => Ends.pure' hr'
  | cancel kind a =>
    apply Ends.bind' (cancel_roomy (hr.mono (Nat.add_le_add_left (by decide) n)) kind a)
    exact fun _ hr' => Ends.pure' hr'
  | tick =>
    have hnow : h.cycle + s.wiring.timing.horizon < UInt64.size := by
      change h.cycle + 1 + s.wiring.timing.horizon ≤ _ at hcycle
      omega
    apply Ends.bind' (tick_roomy hl hs hp (hr.mono (Nat.le_add_right n 13)) hnow)
    exact fun _ hr' => Ends.pure' hr'

/-- A run with room for what is still to come, and for `n` more. -/
structure InRoom (frame : Frame) (s : Setting) (contents : Kind → Nat → Word) (n : Nat)
    (rest : List Action) (past : List (Action × Reply)) (h : Hierarchy) : Prop where
  inPace : h.InPace frame s contents rest past
  roomy : h.Roomy (n + 13 * rest.length)
  cycle : h.cycle + rest.count .tick + s.wiring.timing.horizon ≤ UInt64.size

theorem InRoom.perform {action : Action} {rest : List Action} {past : List (Action × Reply)}
    (hl : s.Legal) (hh : h.InRoom frame s contents n (action :: rest) past) :
    Ends (h.perform action) Never fun r =>
      r.2.InRoom frame s contents n rest ((action, r.1) :: past) := by
  have hs := hh.inPace.holds.sound
  have haction := hh.inPace.holds.inRange action List.mem_cons_self
  have hcycle := hh.cycle
  rw [count_tick_cons] at hcycle
  have hroomy : h.Roomy (n + 13 * rest.length + 13) := hh.roomy
  apply ((hh.inPace.perform hl).and_never
    (perform_roomy hl hs hh.inPace.paced hroomy haction (by omega))).weaken
  intro r hr
  obtain ⟨⟨hpace, hcycle'⟩, hroomy'⟩ := hr
  exact ⟨hpace, hroomy', by omega⟩

theorem run_inRoom (hl : s.Legal) {actions : List Action} {past : List (Action × Reply)}
    (hh : h.InRoom frame s contents n actions past) :
    Ends (record Hierarchy.perform h actions past) Never fun r =>
      r.2.InRoom frame s contents n [] r.1 :=
  Ends.record (InRoom frame s contents n) (fun _ _ _ _ hh => hh.perform hl) actions past h hh

/-! ## The first state -/

theorem build_roomy (c : Config) (g : Config.Geometries) (memories : PerKind Port) {n : Nat}
    (hn : n < UInt64.size) : { build c g with memories }.Roomy n := by
  have hzero : 0 + 0 + n < UInt64.size := by omega
  refine ⟨?_, ?_, hzero, hzero⟩
  · intro k _
    have hsum : 0 + (0 + n) < UInt64.size := by omega
    cases k <;> exact hsum
  · intro kind
    cases kind <;> exact hzero

/-- A run of so many actions from the first state has room. -/
theorem start_inRoom {c : Config} {g : Config.Geometries} (hc : c.validate = .ok g)
    {h₀ start : Hierarchy} {loads : List Preload} (hbuild : ofConfig? c = .ok h₀)
    (hload : h₀.preload loads = .ok start) {actions : List Action}
    (hactions : ∀ action ∈ actions, action.InRange c.general.memoryBytes.toNat)
    (hlength : actions.length ≤ twoPow 60) :
    ∃ contents, start.InRoom (Frame.ofConfig c g) (Setting.ofConfig c g) contents
      (13 * (twoPow 60 - actions.length)) actions [] := by
  obtain ⟨memories, rfl, hpace⟩ := start_inPace hc hbuild hload hactions
  have hword : UInt64.size = 2 ^ 64 := rfl
  have hmost : twoPow 60 = 2 ^ 60 := rfl
  have hplan : twoPow 34 = 2 ^ 34 := rfl
  have hhorizon := Dram.Controller.idle_horizon_le (Config.validate_fitted hc).dram g.l2.lineBytes
  have hcount : actions.count .tick ≤ actions.length := List.count_le_length
  refine ⟨_, hpace, build_roomy c g memories (by omega), ?_⟩
  show 0 + actions.count .tick + (Dram.Controller.idle c.dram g.l2.lineBytes).timing.horizon ≤ _
  omega

/-- **No faults.** A configuration that passes its checks can be built, and whatever its memories
are preloaded with, every run of fewer than `2 ^ 60` actions in range goes through. -/
theorem runs_complete (c : Config) (g : Config.Geometries) (hc : c.validate = .ok g) :
    ∃ h₀, ofConfig? c = .ok h₀ ∧ ∀ loads start, h₀.preload loads = .ok start →
      ∀ actions : List Action, (∀ action ∈ actions, action.InRange c.general.memoryBytes.toNat) →
        actions.length < twoPow 60 → ∃ r, record Hierarchy.perform start actions = .ok r := by
  have hbuild : ofConfig? c = .ok (build c g) := by rw [ofConfig?, hc]; rfl
  refine ⟨_, hbuild, ?_⟩
  intro loads start hload actions hactions hlength
  have hl := Setting.ofConfig_legal (Config.validate_fitted hc)
  obtain ⟨contents, hstart⟩ := start_inRoom hc hbuild hload hactions (Nat.le_of_lt hlength)
  obtain ⟨r, hr, -⟩ := (run_inRoom hl hstart).exists_ok
  exact ⟨r, hr⟩

/-- A store that misses, its block on the way, and the same store again. -/
theorem runs_complete_one_store :
    ∃ (c : Config) (g : Config.Geometries) (h₀ : Hierarchy), c.validate = .ok g
      ∧ ofConfig? c = .ok h₀
      ∧ (∀ action ∈ [Action.write 5 7, .tick, .tick, .tick, .tick, .tick, .write 5 7,
            .cancel .data 9],
          action.InRange c.general.memoryBytes.toNat)
      ∧ ∃ r, record Hierarchy.perform h₀
          [.write 5 7, .tick, .tick, .tick, .tick, .tick, .write 5 7, .cancel .data 9] = .ok r := by
  have hvalid : Config.validate
      { general := { wordBits := 8, memoryBytes := 16 }
        caches := { l1Instruction := ⟨4, 1, 4⟩, l1Data := ⟨4, 1, 4⟩, l2 := ⟨8, 1, 4⟩ }
        missTracking := { entries := 2 }
        latencies := ⟨1, 1, 1⟩
        dram := ⟨1, 4, 1, 1, 1⟩ } = .ok _ := rfl
  have hactions : ∀ action ∈
      [Action.write 5 7, .tick, .tick, .tick, .tick, .tick, .write 5 7, .cancel .data 9],
      action.InRange 16 := by
    simp [Action.InRange]
  obtain ⟨h₀, hbuild, hruns⟩ := runs_complete _ _ hvalid
  exact ⟨_, _, h₀, hvalid, hbuild, hactions, hruns [] h₀ rfl _ hactions (by decide)⟩

/-- What is known of a state with fewer than `2 ^ 60` actions behind it. -/
theorem Reaches.roomy {c : Config} {g : Config.Geometries} (hc : c.validate = .ok g)
    {past : List (Action × Reply)} (hreach : Reaches c past h) (hlength : past.length ≤ twoPow 60) :
    h.Roomy (13 * (twoPow 60 - past.length)) := by
  obtain ⟨h₀, loads, start, actions, hbuild, hload, hactions, hrun⟩ := hreach
  have hl := Setting.ofConfig_legal (Config.validate_fitted hc)
  have hsame : past.length = [].length + actions.length := (length_record _ _ _ _).of_ok hrun
  rw [List.length_nil, Nat.zero_add] at hsame
  obtain ⟨contents, hstart⟩ := start_inRoom hc hbuild hload hactions (hsame ▸ hlength)
  have hroom := ((run_inRoom hl hstart).of_ok hrun).roomy
  rw [← hsame] at hroom
  exact hroom

end Hierarchy

end MemoryHierarchy
