import MemoryHierarchy.Proofs.Hierarchy.Draining

/-!
How long a read takes when nothing else is on its way.

`Awaits` follows the block of an access to its L1: memory is asked for it, memory transfers it, it
comes back, it is announced, and it is there. Each stage says how many ticks the block still takes.
Asking again changes none of that (`Awaits.access`), and a tick takes one of them away, at the end
of a stage by the next one (`Awaits.ticked`). So the block arrives with tick `readLatency` and not
before (`read_latency`).
-/

namespace MemoryHierarchy

/-- The ticks from an access to the arrival of its block in the L1, by whether the L2 has the block
and by the row buffer of its bank. -/
def Config.readLatency (c : Config) (resident : Bool) (status : Dram.RowStatus) : Nat :=
  if resident then c.latencies.l2ToL1.toNat
  else c.latencies.l2ToMemory.toNat + phases status * c.dram.bankBusyCycles.toNat
    + c.dram.dataCycles.toNat + c.latencies.memoryToL2.toNat + c.latencies.l2ToL1.toNat - 1
where
  /-- A row that is open needs no other command, a row to be opened one, a row in its place two. -/
  phases : Dram.RowStatus → Nat
    | .hit => 1
    | .miss => 2
    | .conflict => 3

namespace Interconnect

variable {ic : Interconnect} {b : BlockRef} {n : Nat} {route : Route}

theorem tick_none (h : ∀ m ∈ ic.messages, m.remaining ≠ 0) : ic.tick.1 = [] := by
  rw [tick_due, List.filter_eq_nil_iff]
  intro m hm
  simpa [Message.isDue] using h m hm

theorem tick_last (h : ic.messages = [⟨b, 0, route⟩]) :
    ic.tick = ([⟨b, 0, route⟩], { ic with messages := [] }) := by
  rw [tick, h]
  rfl

theorem tick_later (h : ic.messages = [⟨b, n + 1, route⟩]) :
    ic.tick = ([], { ic with messages := [⟨b, n, route⟩] }) := by
  rw [tick, h]
  rfl

end Interconnect

namespace Hierarchy

open LineStore

variable {frame : Frame} {contents : Kind → Nat → Word} {h h' : Hierarchy} {s : Setting}
  {b : BlockRef} {left : Nat}

/-! ## Stages -/

/-- Where a block is on its way to its L1, with nothing else on its way, and how many ticks it still
takes. Until it is announced it is an outstanding miss that nobody has withdrawn. It may be
announced several times: the first time counts. -/
inductive Awaits (s : Setting) (b : BlockRef) (left : Nat) (h : Hierarchy) : Prop
  | asked (n : Nat) (status : Dram.RowStatus)
    (hmessages : h.interconnect.messages = [⟨b, n, .l2ToMemory⟩])
    (hidle : h.dram.pending = [] ∧ h.dram.ongoing = [])
    (hstatus : h.dram.rowStatus b.address = .ok status)
    (hwanted : h.l2.misses.withdrawn b = false)
    (habsent : (h.l1.get b.kind).contains b.address = .ok false)
    (hleft : left = n + 1 + s.wiring.timing.service status.phaseCount + s.latency .memoryToL2
      + s.latency .l2ToL1)
  | underWay (n : Nat) (r : Dram.Request) (hmessages : h.interconnect.messages = [])
    (hpending : h.dram.pending = []) (hongoing : h.dram.ongoing = [r]) (hblock : r.block = b)
    (hstop : r.plan.data.stop = h.cycle + n) (hwanted : h.l2.misses.withdrawn b = false)
    (habsent : (h.l1.get b.kind).contains b.address = .ok false)
    (hleft : left = n + 1 + s.latency .memoryToL2 + s.latency .l2ToL1)
  | returning (n : Nat) (hmessages : h.interconnect.messages = [⟨b, n, .memoryToL2⟩])
    (hidle : h.dram.pending = [] ∧ h.dram.ongoing = [])
    (hwanted : h.l2.misses.withdrawn b = false)
    (habsent : (h.l1.get b.kind).contains b.address = .ok false)
    (hleft : left = n + 1 + s.latency .l2ToL1)
  | announced (n : Nat)
    (hall : ∀ m ∈ h.interconnect.messages, m.block = b ∧ m.route = .l2ToL1 ∧ n ≤ m.remaining)
    (hfirst : ∃ m ∈ h.interconnect.messages, m.remaining = n)
    (hidle : h.dram.pending = [] ∧ h.dram.ongoing = []) (hresident : h.l2.store.Resident b)
    (habsent : (h.l1.get b.kind).contains b.address = .ok false) (hleft : left = n + 1)
  | arrived (hall : ∀ m ∈ h.interconnect.messages, m.block = b ∧ m.route = .l2ToL1)
    (hidle : h.dram.pending = [] ∧ h.dram.ongoing = [])
    (hhere : (h.l1.get b.kind).contains b.address = .ok true) (hleft : left = 0)

namespace Awaits

/-- The block is in its L1 as soon as no tick is left, and not before. -/
theorem contains (hw : h.Awaits s b left) :
    (h.l1.get b.kind).contains b.address = .ok (decide (left = 0)) := by
  cases hw with
  | asked n status hmessages hidle hstatus hwanted habsent hleft =>
    rw [habsent, decide_eq_false (by omega)]
  | underWay n r hmessages hpending hongoing hblock hstop hwanted habsent hleft =>
    rw [habsent, decide_eq_false (by omega)]
  | returning n hmessages hidle hwanted habsent hleft =>
    rw [habsent, decide_eq_false (by omega)]
  | announced n hall hfirst hidle hresident habsent hleft =>
    rw [habsent, decide_eq_false (by omega)]
  | arrived hall hidle hhere hleft =>
    rw [hhere, decide_eq_true hleft]

/-- A look-up that does not change what is in the L1. -/
theorem withL1 (hw : h.Awaits s b left) {l1 : PerKind L1}
    (hsame : (l1.get b.kind).contains b.address = (h.l1.get b.kind).contains b.address)
    (counters : Counters) : { h with l1, counters }.Awaits s b left := by
  cases hw with
  | asked n status hmessages hidle hstatus hwanted habsent hleft =>
    exact .asked n status hmessages hidle hstatus hwanted (hsame.trans habsent) hleft
  | underWay n r hmessages hpending hongoing hblock hstop hwanted habsent hleft =>
    exact .underWay n r hmessages hpending hongoing hblock hstop hwanted (hsame.trans habsent) hleft
  | returning n hmessages hidle hwanted habsent hleft =>
    exact .returning n hmessages hidle hwanted (hsame.trans habsent) hleft
  | announced n hall hfirst hidle hresident habsent hleft =>
    exact .announced n hall hfirst hidle hresident (hsame.trans habsent) hleft
  | arrived hall hidle hhere hleft =>
    exact .arrived hall hidle (hsame.trans hhere) hleft

end Awaits

/-! ## Asking again -/

theorem blockOf_eq (hs : h.Sound frame contents []) {a : Nat}
    (hblock : (frame.geometry.locate a).block = b.address) : h.l2.blockOf a b.kind = b := by
  rw [L2.blockOf, hs.geometry, hblock]

/-- A look-up changes nothing but the recency of a block. -/
theorem lookUp_keeps (hl : s.Legal) (hs : h.Sound frame contents []) (hp : h.Paced s) (kind : Kind)
    (a : Nat) : Ends (h.lookUp kind a) Overflows fun r => ∃ l1 counters,
      r.2 = { h with l1, counters }
        ∧ (∀ a', (l1.get kind).contains a' = (h.l1.get kind).contains a')
        ∧ r.2.Sound frame contents [] ∧ r.2.Paced s
        ∧ ((h.l1.get kind).contains a = .ok true ∧ r.1 = .hit
          ∨ (h.l1.get kind).contains a = .ok false ∧ r.1 = .miss ⟨a, kind, .read⟩) := by
  apply (lookUp_effect hs kind a).weaken
  intro r hr
  obtain ⟨l1, heq, hkept, hcontains, hlookup⟩ := hr
  have hrequested : Requested h r.2 := by
    rw [heq]
    exact ⟨l1_kept hs hkept, rfl, rfl, .inl rfl⟩
  rw [hp.kind] at hlookup
  refine ⟨_, _, heq, ?_, ?_, hp.requested hl hrequested, hlookup⟩
  · intro a'
    rw [PerKind.get_set_self, hcontains]
  · rw [heq]
    exact hs.withL1 (hs.l1_set kind hkept.shaped) h.cycle _

/-- A probe of a block that is on its way only takes back a withdrawal. -/
theorem probe_outstanding (hs : h.Sound frame contents []) {p : Probe}
    (hp : h.l2.blockOf p.address p.kind = b) (hb : b ∈ h.inTransit) :
    Ends (h.probe p) Overflows fun r => ∃ counters,
      r.2 = { h with l2 := { h.l2 with misses := h.l2.misses.rearm b }, counters } := by
  have hmiss : b ∈ h.l2.misses.blocks := hs.tracked.mem_iff.mpr hb
  apply (probe_effect hs p).weaken
  intro r hr
  obtain ⟨probed, rfl, ⟨way, line, hc, -⟩ | ⟨-, rfl⟩⟩ := hr
  · rw [hp] at hc
    exact absurd hc.resident (hs.absent b hmiss)
  · refine ⟨h.counters.answered (h.l2.probeMiss p h.interconnect).response, ?_⟩
    rw [L2.probeMiss, hp, if_pos (MissTable.contains_iff.mpr hmiss)]

/-- A read of a block that the L2 has announces it. -/
theorem probe_resident (hs : h.Sound frame contents []) {p : Probe}
    (hp : h.l2.blockOf p.address p.kind = b) (hread : p.operation = .read)
    (hresident : h.l2.store.Resident b) :
    Ends (h.probe p) Overflows fun r => ∃ l2 counters, l2.store.Resident b
      ∧ r.2 = { h with l2, counters, interconnect := h.interconnect.sendOn b .l2ToL1 } := by
  apply (probe_effect hs p).weaken
  intro r hr
  obtain ⟨probed, rfl, ⟨way, line, hc, rfl⟩ | ⟨hno, -⟩⟩ := hr
  · refine ⟨_, h.counters.answered .hit,
      (L2.served_resident hc h.interconnect b).mpr hresident, ?_⟩
    rw [L2.served, hread, hp]
  · rw [hp] at hno
    exact absurd hresident hno

/-- A probe of a block that is neither in the L2 nor outstanding takes a free slot and asks memory
for the block. -/
theorem probe_asks (hs : h.Sound frame contents []) {p : Probe}
    (hp : h.l2.blockOf p.address p.kind = b) (habsent : ¬h.l2.store.Resident b)
    (hnew : h.l2.misses.contains b = false) (hfree : h.l2.misses.isFull = false) :
    Ends (h.probe p) Overflows fun r => ∃ counters,
      r.2 = { h with
        l2 := { h.l2 with misses := h.l2.misses.add b }, counters
        interconnect := h.interconnect.sendOn b .l2ToMemory } := by
  apply (probe_effect hs p).weaken
  intro r hr
  obtain ⟨probed, rfl, ⟨way, line, hc, -⟩ | ⟨-, rfl⟩⟩ := hr
  · rw [hp] at hc
    exact absurd hc.resident habsent
  · refine ⟨h.counters.answered (h.l2.probeMiss p h.interconnect).response, ?_⟩
    rw [L2.probeMiss, hp, hnew, hfree, if_neg Bool.false_ne_true, if_neg Bool.false_ne_true]

namespace Awaits

theorem probe (hs : h.Sound frame contents []) (hp : h.Paced s) (hw : h.Awaits s b left)
    (habsent : (h.l1.get b.kind).contains b.address = .ok false) {p : Probe}
    (hblock : h.l2.blockOf p.address p.kind = b) (hread : p.operation = .read) :
    Ends (h.probe p) Overflows fun r => r.2.Awaits s b left := by
  cases hw with
  | asked n status hmessages hidle hstatus hwanted _ hleft =>
    have hb : b ∈ h.inTransit := by simp [inTransit, hmessages, carried, Message.isTransfer]
    apply (probe_outstanding hs hblock hb).weaken
    intro r hr
    obtain ⟨counters, heq⟩ := hr
    rw [heq]
    exact .asked n status hmessages hidle hstatus (MissTable.withdrawn_rearm _ b) habsent hleft
  | underWay n r hmessages hpending hongoing hr hstop hwanted _ hleft =>
    have hb : b ∈ h.inTransit := by simp [inTransit, Dram.Controller.requests, hongoing, hr]
    apply (probe_outstanding hs hblock hb).weaken
    intro q hq
    obtain ⟨counters, heq⟩ := hq
    rw [heq]
    exact .underWay n r hmessages hpending hongoing hr hstop (MissTable.withdrawn_rearm _ b)
      habsent hleft
  | returning n hmessages hidle hwanted _ hleft =>
    have hb : b ∈ h.inTransit := by simp [inTransit, hmessages, carried, Message.isTransfer]
    apply (probe_outstanding hs hblock hb).weaken
    intro r hr
    obtain ⟨counters, heq⟩ := hr
    rw [heq]
    exact .returning n hmessages hidle (MissTable.withdrawn_rearm _ b) habsent hleft
  | announced n hall hfirst hidle hresident _ hleft =>
    -- The L2 announces the block once more, behind what is on its way already.
    obtain ⟨first, hfirst, hn⟩ := hfirst
    have hbound := hp.messages first hfirst
    rw [(hall first hfirst).2.1] at hbound
    apply (probe_resident hs hblock hread hresident).weaken
    intro r hr
    obtain ⟨l2, counters, hhere, heq⟩ := hr
    rw [heq]
    refine .announced n ?_ ⟨first, Interconnect.mem_sendOn.mpr (.inl hfirst), hn⟩ hidle hhere
      habsent hleft
    intro m hm
    rcases Interconnect.mem_sendOn.mp hm with hm | rfl
    · exact hall m hm
    · refine ⟨rfl, rfl, ?_⟩
      rw [hp.latency_eq]
      show n ≤ s.latency .l2ToL1 - 1
      omega
  | arrived _ _ hhere _ =>
    rw [habsent] at hhere
    cases hhere

/-- An access to the block again. -/
theorem access (hl : s.Legal) (hs : h.Sound frame contents []) (hp : h.Paced s)
    (hw : h.Awaits s b left) {a : Nat} (ha : a < frame.memoryBytes)
    (hblock : (frame.geometry.locate a).block = b.address)
    (hsame : (h.l1.get b.kind).contains a = (h.l1.get b.kind).contains b.address) :
    Ends (h.access b.kind a) Overflows fun r => r.2.Awaits s b left := by
  rw [Hierarchy.access]
  apply Ends.bind_ok (checkAddress_eq hs ha)
  apply Ends.bind' (lookUp_keeps hl hs hp b.kind a)
  intro found hfound
  obtain ⟨lookup, h₁⟩ := found
  obtain ⟨l1, counters, rfl, hcontains, hs₁, hp₁, hlookup⟩ := hfound
  have hw₁ := hw.withL1 (hcontains b.address) counters
  rcases hlookup with ⟨-, rfl⟩ | ⟨habsent, rfl⟩
  · exact Ends.pure' hw₁
  · rw [hsame, ← hcontains] at habsent
    apply Ends.bind' (hw₁.probe hs₁ hp₁ habsent (blockOf_eq hs hblock) rfl)
    exact fun _ hr => Ends.pure' hr

end Awaits

/-! ## Ticks -/

/-- A tick that delivers nothing. -/
theorem Ticked.quiet (ht : Ticked h h') (hdue : h.interconnect.tick.1 = []) :
    ∃ done dram counters, h.dram.tick h.cycle = .ok (done, dram)
      ∧ h' = { h with
        dram, counters, interconnect := h.interconnect.tick.2.returning done.retired
        cycle := h.cycle + 1 } := by
  obtain ⟨h₁, done, dram, counters, hdelivered, hmemory⟩ := ht
  have hnone : h.deliverDue = .ok { h with interconnect := h.interconnect.tick.2 } := by
    show h.interconnect.tick.1.foldlM deliver _ = _
    rw [hdue]
    rfl
  obtain rfl := Except.ok.inj (hnone.symm.trans hdelivered)
  exact ⟨done, dram, counters, hmemory, rfl⟩

/-- A tick that delivers nothing, with no request to memory. -/
theorem Ticked.idle (ht : Ticked h h') (hdue : h.interconnect.tick.1 = [])
    (hidle : h.dram.pending = [] ∧ h.dram.ongoing = []) :
    ∃ counters, h' = { h with
      counters, interconnect := h.interconnect.tick.2, cycle := h.cycle + 1 } := by
  obtain ⟨done, dram, counters, hmemory, rfl⟩ := ht.quiet hdue
  obtain ⟨rfl, rfl⟩ := Dram.Controller.tick_idle_inj hidle hmemory
  exact ⟨counters, by rw [Interconnect.returning_nil]⟩

/-- A tick that delivers one message. -/
theorem Ticked.one (hs : h.Sound frame contents []) (ht : Ticked h h') {m : Message}
    (hdue : h.interconnect.tick.1 = [m]) :
    ∃ h₁ done dram counters, Delivered { h with interconnect := h.interconnect.tick.2 } m h₁
      ∧ h₁.dram.Sound ∧ h₁.dram.tick h₁.cycle = .ok (done, dram)
      ∧ h' = { h₁ with
        dram, counters, interconnect := h₁.interconnect.returning done.retired
        cycle := h₁.cycle + 1 } := by
  obtain ⟨h₁, done, dram, counters, hdelivered, hmemory⟩ := ht
  have hs₁ := (deliverDue_sound hs).of_ok hdelivered
  have hheld := due_sound hs
  change h.interconnect.tick.1.foldlM deliver _ = _ at hdelivered
  rw [hdue] at hdelivered hheld
  obtain ⟨h₂, hone, hlast⟩ := bind_eq_ok.mp hdelivered
  obtain rfl := Except.ok.inj hlast
  exact ⟨h₂, done, dram, counters, (deliver_effect hheld).of_ok hone, hs₁.dram, hmemory, rfl⟩

/-- An announcement that is delivered leaves the block in its L1. -/
theorem Delivered.announced {m : Message} (hd : Delivered h m h') (hroute : m.route = .l2ToL1) :
    (h'.l1.get m.block.kind).contains m.block.address = .ok true
      ∧ ∃ l1 counters, h' = { h with l1, counters } := by
  cases hd with
  | atL1 l1 counters _ hkept hhere =>
    refine ⟨?_, _, counters, rfl⟩
    show ((h.l1.set m.block.kind l1).get m.block.kind).contains m.block.address = _
    rw [PerKind.get_set_self]
    exact hhere
  | atMemory r counters hother =>
    rw [hroute] at hother
    cases hother
  | atL2 filled counters hother =>
    rw [hroute] at hother
    cases hother

/-- The deliveries of a tick that finds only announcements of the block. -/
theorem deliverDue_announced (hs : h.Sound frame contents [])
    (hall : ∀ m ∈ h.interconnect.messages, m.block = b ∧ m.route = .l2ToL1)
    (hhere : (h.l1.get b.kind).contains b.address = .ok true
      ∨ ∃ m ∈ h.interconnect.messages, m.remaining = 0) :
    Ends h.deliverDue Overflows fun h₁ => (h₁.l1.get b.kind).contains b.address = .ok true
      ∧ ∃ l1 counters, h₁ = { h with l1, counters, interconnect := h.interconnect.tick.2 } := by
  have hdue : ∀ m ∈ h.interconnect.tick.1, m.block = b ∧ m.route = .l2ToL1 := by
    intro m hm
    rw [Interconnect.tick_due] at hm
    exact hall m (List.mem_filter.mp hm).1
  have hsome : (h.l1.get b.kind).contains b.address = .ok true ∨ h.interconnect.tick.1 ≠ [] := by
    apply hhere.imp_right
    intro hfirst
    obtain ⟨m, hm, hzero⟩ := hfirst
    rw [Interconnect.tick_due]
    exact List.ne_nil_of_mem (List.mem_filter.mpr ⟨hm, beq_iff_eq.mpr hzero⟩)
  -- The block is here from the first delivery on.
  have hfold := deliver_all_keep (fun due h₁ => (∀ m ∈ due, m.block = b ∧ m.route = .l2ToL1)
      ∧ ((h₁.l1.get b.kind).contains b.address = .ok true ∨ due ≠ [])
      ∧ ∃ l1 counters, h₁ = { h with l1, counters, interconnect := h.interconnect.tick.2 })
    (by
      intro m due h₁ h₂ _ hh₁ hd
      obtain ⟨hdue₁, -, l1, counters, rfl⟩ := hh₁
      obtain ⟨rfl, hroute⟩ := hdue₁ m List.mem_cons_self
      obtain ⟨hhere₂, l1', counters', rfl⟩ := hd.announced hroute
      exact ⟨fun m hm => hdue₁ m (List.mem_cons_of_mem _ hm), .inl hhere₂, _, _, rfl⟩)
    h.interconnect.tick.1 (due_sound hs) ⟨hdue, hsome, h.l1, h.counters, rfl⟩
  apply hfold.weaken
  intro h₁ hh₁
  exact ⟨hh₁.2.1.resolve_right fun hne => hne rfl, hh₁.2.2⟩

namespace Awaits

/-- The request reaches memory and starts at once. -/
theorem ticked_asked (hl : s.Legal) (hs : h.Sound frame contents []) (hp : h.Paced s)
    {status : Dram.RowStatus} (hmessages : h.interconnect.messages = [⟨b, 0, .l2ToMemory⟩])
    (hidle : h.dram.pending = [] ∧ h.dram.ongoing = [])
    (hstatus : h.dram.rowStatus b.address = .ok status)
    (hwanted : h.l2.misses.withdrawn b = false)
    (habsent : (h.l1.get b.kind).contains b.address = .ok false) (ht : Ticked h h') :
    h'.Awaits s b (s.wiring.timing.service status.phaseCount + s.latency .memoryToL2
      + s.latency .l2ToL1) := by
  have hpositive : s.wiring.timing.Positive := hl.wiring.timing
  have htick := Interconnect.tick_last hmessages
  obtain ⟨h₁, done, dram, counters, hd, hdram, hmemory, rfl⟩ := ht.one hs (congrArg Prod.fst htick)
  cases hd with
  | atMemory r counters₁ _ hblock hbank hrow =>
    have hpending : h.dram.pending ++ [r] = [r] := by rw [hidle.1]; rfl
    have htiming : h.dram.timing.Positive := hp.timing_eq ▸ hpositive
    obtain ⟨hretired, hpending', q, hongoing, hq, hstop⟩ :=
      (hdram.tick_first htiming hpending hidle.2 hbank hrow hstatus).of_ok hmemory
    change done.retired = [] at hretired
    change q.plan.data.stop = h.cycle + h.dram.timing.service status.phaseCount at hstop
    rw [hp.timing_eq] at hstop
    have hservice := hpositive.service_pos status.phaseCount_pos
    refine .underWay (s.wiring.timing.service status.phaseCount - 1) q ?_ hpending' hongoing
      (hq.trans hblock) ?_ hwanted habsent (by omega)
    · show (h.interconnect.tick.2.returning done.retired).messages = []
      rw [hretired, Interconnect.returning_nil, htick]
    · show _ = h.cycle + 1 + _
      omega
  | atL1 l1 counters₁ hother => cases hother
  | atL2 filled counters₁ hother => cases hother

/-- The transfer goes on, or has ended and the block is sent back. -/
theorem ticked_underWay (hl : s.Legal) (hs : h.Sound frame contents []) (hp : h.Paced s) {n : Nat}
    {r : Dram.Request} (hmessages : h.interconnect.messages = []) (hpending : h.dram.pending = [])
    (hongoing : h.dram.ongoing = [r]) (hblock : r.block = b)
    (hstop : r.plan.data.stop = h.cycle + n) (hwanted : h.l2.misses.withdrawn b = false)
    (habsent : (h.l1.get b.kind).contains b.address = .ok false) (ht : Ticked h h') :
    h'.Awaits s b (n + s.latency .memoryToL2 + s.latency .l2ToL1) := by
  have hnone : h.interconnect.tick.1 = [] :=
    Interconnect.tick_none (by rw [hmessages]; exact List.forall_mem_nil _)
  have hwaiting : h.interconnect.tick.2.messages = [] := by
    rw [Interconnect.tick_waiting, hmessages]
    rfl
  obtain ⟨done, dram, counters, hmemory, rfl⟩ := ht.quiet hnone
  obtain ⟨hretired, -, hpending', hongoing'⟩ := (hs.dram.tick_none hpending).of_ok hmemory
  dsimp only at hretired hpending' hongoing'
  rw [Dram.Controller.ended, hongoing] at hretired
  rw [Dram.Controller.underWay, hongoing] at hongoing'
  cases n with
  | zero =>
    have hended : Dram.Controller.hasEnded h.cycle r = true := decide_eq_true (by omega)
    rw [List.filter_cons_of_pos hended, List.filter_nil, List.map_singleton, hblock] at hretired
    rw [List.filter_cons_of_neg (by simp [hended]), List.filter_nil] at hongoing'
    have hpos := hl.latency_pos .memoryToL2
    refine .returning (s.latency .memoryToL2 - 1) ?_ ⟨hpending', hongoing'⟩ hwanted habsent
      (by omega)
    show (h.interconnect.tick.2.returning done.retired).messages = _
    rw [hretired, Interconnect.returning, hwaiting, ← hp.latency_eq]
    rfl
  | succ n =>
    have hended : Dram.Controller.hasEnded h.cycle r = false := decide_eq_false (by omega)
    rw [List.filter_cons_of_neg (by simp [hended]), List.filter_nil, List.map_nil] at hretired
    rw [List.filter_cons_of_pos (by simp [hended]), List.filter_nil] at hongoing'
    refine .underWay n r ?_ hpending' hongoing' hblock ?_ hwanted habsent rfl
    · show (h.interconnect.tick.2.returning done.retired).messages = []
      rw [hretired, Interconnect.returning_nil, hwaiting]
    · show _ = h.cycle + 1 + n
      omega

/-- The block reaches the L2 and is announced. -/
theorem ticked_returning (hl : s.Legal) (hs : h.Sound frame contents []) (hp : h.Paced s)
    (hmessages : h.interconnect.messages = [⟨b, 0, .memoryToL2⟩])
    (hidle : h.dram.pending = [] ∧ h.dram.ongoing = []) (hwanted : h.l2.misses.withdrawn b = false)
    (habsent : (h.l1.get b.kind).contains b.address = .ok false) (ht : Ticked h h') :
    h'.Awaits s b (s.latency .l2ToL1) := by
  have htick := Interconnect.tick_last hmessages
  obtain ⟨h₁, done, dram, counters, hd, -, hmemory, rfl⟩ := ht.one hs (congrArg Prod.fst htick)
  cases hd with
  | atL2 filled counters₁ _ hgeometry hhere hmisses hnotified hsent =>
    obtain ⟨rfl, rfl⟩ := Dram.Controller.tick_idle_inj hidle hmemory
    have hnotified : filled.notified = true := by
      rw [hnotified]
      exact congrArg (!·) hwanted
    have hannounced : (filled.interconnect.returning []).messages
        = [⟨b, s.latency .l2ToL1 - 1, .l2ToL1⟩] := by
      rw [Interconnect.returning_nil, hsent, if_pos hnotified, htick, ← hp.latency_eq]
      rfl
    have hpos := hl.latency_pos .l2ToL1
    refine .announced (s.latency .l2ToL1 - 1) ?_ ?_ hidle hhere habsent (by omega)
    · show ∀ m ∈ (filled.interconnect.returning []).messages, _
      rw [hannounced]
      exact List.forall_mem_singleton.mpr ⟨rfl, rfl, Nat.le_refl _⟩
    · show ∃ m ∈ (filled.interconnect.returning []).messages, _
      rw [hannounced]
      exact ⟨_, List.mem_singleton_self _, rfl⟩
  | atL1 l1 counters₁ hother => cases hother
  | atMemory r counters₁ hother => cases hother

/-- An announcement finds the block in the L1 or brings it there. -/
theorem ticked_arrived (hs : h.Sound frame contents [])
    (hall : ∀ m ∈ h.interconnect.messages, m.block = b ∧ m.route = .l2ToL1)
    (hidle : h.dram.pending = [] ∧ h.dram.ongoing = [])
    (hhere : (h.l1.get b.kind).contains b.address = .ok true
      ∨ ∃ m ∈ h.interconnect.messages, m.remaining = 0) (ht : Ticked h h') :
    h'.Awaits s b 0 := by
  obtain ⟨h₁, done, dram, counters, hdelivered, hmemory⟩ := ht
  obtain ⟨hhere₁, l1, counters₁, rfl⟩ := (deliverDue_announced hs hall hhere).of_ok hdelivered
  obtain ⟨rfl, rfl⟩ := Dram.Controller.tick_idle_inj hidle hmemory
  refine .arrived ?_ hidle hhere₁ rfl
  intro m hm
  rcases Interconnect.mem_returning.mp hm with hm | ⟨_, hnone, -⟩
  · obtain ⟨m₀, hm₀, -, rfl⟩ := Interconnect.mem_tick_waiting.mp hm
    exact hall m₀ hm₀
  · cases hnone

/-- The announcements come closer, or the first of them brings the block. -/
theorem ticked_announced (hs : h.Sound frame contents []) {n : Nat}
    (hall : ∀ m ∈ h.interconnect.messages, m.block = b ∧ m.route = .l2ToL1 ∧ n ≤ m.remaining)
    (hfirst : ∃ m ∈ h.interconnect.messages, m.remaining = n)
    (hidle : h.dram.pending = [] ∧ h.dram.ongoing = []) (hresident : h.l2.store.Resident b)
    (habsent : (h.l1.get b.kind).contains b.address = .ok false) (ht : Ticked h h') :
    h'.Awaits s b n := by
  cases n with
  | zero =>
    exact ticked_arrived hs (fun m hm => ⟨(hall m hm).1, (hall m hm).2.1⟩) hidle (.inr hfirst) ht
  | succ n =>
    have hnone : h.interconnect.tick.1 = [] := by
      apply Interconnect.tick_none
      intro m hm
      have hlate := (hall m hm).2.2
      omega
    obtain ⟨counters, rfl⟩ := ht.idle hnone hidle
    refine .announced n ?_ ?_ hidle hresident habsent rfl
    · intro m hm
      obtain ⟨m₀, hm₀, -, rfl⟩ := Interconnect.mem_tick_waiting.mp hm
      obtain ⟨hblock, hroute, hlate⟩ := hall m₀ hm₀
      exact ⟨hblock, hroute, Nat.le_sub_one_of_lt hlate⟩
    · obtain ⟨m, hm, hn⟩ := hfirst
      refine ⟨m.countDown, Interconnect.mem_tick_waiting.mpr ⟨m, hm, by omega, rfl⟩, ?_⟩
      show m.remaining - 1 = n
      omega

/-- A tick takes one of the ticks that are left away. -/
theorem ticked (hl : s.Legal) (hs : h.Sound frame contents []) (hp : h.Paced s)
    (hw : h.Awaits s b left) (ht : Ticked h h') : h'.Awaits s b (left - 1) := by
  cases hw with
  | asked n status hmessages hidle hstatus hwanted habsent hleft =>
    cases n with
    | zero =>
      have hlast : left - 1 = s.wiring.timing.service status.phaseCount + s.latency .memoryToL2
          + s.latency .l2ToL1 := by omega
      rw [hlast]
      exact ticked_asked hl hs hp hmessages hidle hstatus hwanted habsent ht
    | succ n =>
      have htick := Interconnect.tick_later hmessages
      obtain ⟨counters, rfl⟩ := ht.idle (congrArg Prod.fst htick) hidle
      exact .asked n status (by rw [htick]) hidle hstatus hwanted habsent (by omega)
  | underWay n r hmessages hpending hongoing hblock hstop hwanted habsent hleft =>
    have hnext : left - 1 = n + s.latency .memoryToL2 + s.latency .l2ToL1 := by omega
    rw [hnext]
    exact ticked_underWay hl hs hp hmessages hpending hongoing hblock hstop hwanted habsent ht
  | returning n hmessages hidle hwanted habsent hleft =>
    cases n with
    | zero =>
      have hlast : left - 1 = s.latency .l2ToL1 := by omega
      rw [hlast]
      exact ticked_returning hl hs hp hmessages hidle hwanted habsent ht
    | succ n =>
      have htick := Interconnect.tick_later hmessages
      obtain ⟨counters, rfl⟩ := ht.idle (congrArg Prod.fst htick) hidle
      exact .returning n (by rw [htick]) hidle hwanted habsent (by omega)
  | announced n hall hfirst hidle hresident habsent hleft =>
    rw [hleft, Nat.add_sub_cancel]
    exact ticked_announced hs hall hfirst hidle hresident habsent ht
  | arrived hall hidle hhere hleft =>
    rw [hleft]
    exact ticked_arrived hs hall hidle (.inl hhere) ht

end Awaits

/-! ## Runs -/

/-- Whether an action lets time pass, or accesses this block again. -/
def Action.Repeats (g : Geometry) (b : BlockRef) : Action → Prop
  | .access kind address => kind = b.kind ∧ (g.locate address).block = b.address
  | .write _ _ => False
  | .cancel _ _ => False
  | .tick => True

/-- L1s that cut addresses into the blocks of the L2 do not tell the addresses of a block apart. -/
theorem l1_contains_block {g : Geometry} (hp : h.Paced s)
    (hblocks : ∀ kind a, ((s.l1.get kind).locate a).block = (g.locate a).block) (kind : Kind)
    (a : Nat) : (h.l1.get kind).contains a = (h.l1.get kind).contains (g.locate a).block := by
  apply L1.contains_congr
  rw [hp.l1, hblocks, hblocks, Geometry.locate_locate_block]

theorem Awaits.perform (hl : s.Legal) (hs : h.Sound frame contents []) (hp : h.Paced s)
    (hblocks : ∀ kind a, ((s.l1.get kind).locate a).block = (frame.geometry.locate a).block)
    (hw : h.Awaits s b left) {action : Action} (haction : action.InRange frame.memoryBytes)
    (hrepeats : action.Repeats frame.geometry b) :
    Ends (h.perform action) Overflows fun r =>
      r.2.Awaits s b (left - [action].count .tick) := by
  cases action with
  | access kind a =>
    obtain ⟨rfl, hblock⟩ := hrepeats
    have hsame := l1_contains_block hp hblocks b.kind a
    rw [hblock] at hsame
    apply Ends.bind' (hw.access hl hs hp haction hblock hsame)
    exact fun _ hr => Ends.pure' hr
  | write a word => exact hrepeats.elim
  | cancel kind a => exact hrepeats.elim
  | tick =>
    apply Ends.bind' (tick_effect hs)
    exact fun _ ht => Ends.pure' (hw.ticked hl hs hp ht)

/-- A run that only waits for a block, which takes `final` more ticks after the actions still to
come. -/
structure Waiting (frame : Frame) (s : Setting) (contents : Kind → Nat → Word) (b : BlockRef)
    (final : Nat) (rest : List Action) (past : List (Action × Reply)) (h : Hierarchy) : Prop where
  inPace : h.InPace frame s contents rest past
  repeats : ∀ action ∈ rest, action.Repeats frame.geometry b
  awaits : ∃ left, h.Awaits s b left ∧ left - rest.count .tick = final

theorem Waiting.perform {final : Nat} {action : Action} {rest : List Action}
    {past : List (Action × Reply)} (hl : s.Legal)
    (hblocks : ∀ kind a, ((s.l1.get kind).locate a).block = (frame.geometry.locate a).block)
    (hh : h.Waiting frame s contents b final (action :: rest) past) :
    Ends (h.perform action) Overflows fun r =>
      r.2.Waiting frame s contents b final rest ((action, r.1) :: past) := by
  obtain ⟨hpace, hrepeats, left, hw, hfinal⟩ := hh
  have haction := hpace.holds.inRange action List.mem_cons_self
  have hstep := hw.perform hl hpace.holds.sound hpace.paced hblocks haction
    (hrepeats action List.mem_cons_self)
  apply ((hpace.perform hl).also hstep).weaken
  intro r hr
  refine ⟨hr.1.1, fun action ha => hrepeats action (List.mem_cons_of_mem _ ha), _, hr.2, ?_⟩
  rw [← hfinal, count_tick_cons action rest, Nat.sub_sub]

theorem run_waiting {final : Nat} {actions : List Action} {past : List (Action × Reply)}
    (hl : s.Legal)
    (hblocks : ∀ kind a, ((s.l1.get kind).locate a).block = (frame.geometry.locate a).block)
    (hh : h.Waiting frame s contents b final actions past) :
    Ends (record Hierarchy.perform h actions past) Overflows fun r =>
      r.2.Waiting frame s contents b final [] r.1 :=
  Ends.record (Waiting frame s contents b final) (fun _ _ _ _ hh => hh.perform hl hblocks) actions
    past h hh

/-! ## The first access -/

/-- The ticks of `Config.readLatency` for a setting. -/
def Setting.readLatency (s : Setting) (resident : Bool) (status : Dram.RowStatus) : Nat :=
  if resident then s.latency .l2ToL1
  else s.latency .l2ToMemory + s.wiring.timing.service status.phaseCount + s.latency .memoryToL2
    + s.latency .l2ToL1

theorem Setting.ofConfig_readLatency {c : Config} {g : Config.Geometries} (hc : c.Fitted g)
    (resident : Bool) (status : Dram.RowStatus) :
    (Setting.ofConfig c g).readLatency resident status = c.readLatency resident status := by
  have hdata := hc.dram.data.1
  cases resident with
  | true => rfl
  | false =>
    have hphases : status.phaseCount = Config.readLatency.phases status := by
      cases status <;> rfl
    show c.latencies.l2ToMemory.toNat
      + (status.phaseCount * c.dram.bankBusyCycles.toNat + c.dram.dataCycles.toNat - 1)
      + c.latencies.memoryToL2.toNat + c.latencies.l2ToL1.toNat = _
    rw [Config.readLatency, if_neg Bool.false_ne_true, ← hphases]
    omega

/-- With nothing on its way a read is served from the L2, or memory is asked. -/
theorem probe_awaits (hl : s.Legal) (hs : h.Sound frame contents []) (hp : h.Paced s)
    (hslots : 1 ≤ frame.missSlots) (hquiet : h.isQuiescent = true)
    (habsent : (h.l1.get b.kind).contains b.address = .ok false) {p : Probe}
    (hblock : h.l2.blockOf p.address p.kind = b) (hread : p.operation = .read) {resident : Bool}
    (hresident : resident = true ↔ h.l2.store.Resident b) {status : Dram.RowStatus}
    (hstatus : h.dram.rowStatus b.address = .ok status) :
    Ends (h.probe p) Overflows fun r => r.2.Awaits s b (s.readLatency resident status) := by
  obtain ⟨hmessages, hpending, hongoing, hmisses⟩ := quiescent_iff.mp hquiet
  have hsend : ∀ route, (h.interconnect.sendOn b route).messages
      = [⟨b, s.latency route - 1, route⟩] := by
    intro route
    rw [Interconnect.sendOn, Interconnect.send, hmessages, hp.latency_eq]
    rfl
  by_cases hhere : h.l2.store.Resident b
  · apply (probe_resident hs hblock hread hhere).weaken
    intro r hr
    obtain ⟨l2, counters, hhere', heq⟩ := hr
    have hpos := hl.latency_pos .l2ToL1
    have hleft : s.readLatency resident status = s.latency .l2ToL1 - 1 + 1 := by
      rw [Setting.readLatency, if_pos (hresident.mpr hhere)]
      omega
    rw [heq]
    refine .announced (s.latency .l2ToL1 - 1) ?_ ?_ ⟨hpending, hongoing⟩ hhere' habsent hleft
    · show ∀ m ∈ (h.interconnect.sendOn b .l2ToL1).messages, _
      rw [hsend]
      exact List.forall_mem_singleton.mpr ⟨rfl, rfl, Nat.le_refl _⟩
    · show ∃ m ∈ (h.interconnect.sendOn b .l2ToL1).messages, _
      rw [hsend]
      exact ⟨_, List.mem_singleton_self _, rfl⟩
  · have hnew := MissTable.contains_of_isEmpty hmisses b
    have hfree := MissTable.isFull_of_isEmpty hmisses (hs.missSlots ▸ hslots)
    apply (probe_asks hs hblock hhere hnew hfree).weaken
    intro r hr
    obtain ⟨counters, heq⟩ := hr
    have hpos := hl.latency_pos .l2ToMemory
    have hleft : s.readLatency resident status = s.latency .l2ToMemory - 1 + 1
        + s.wiring.timing.service status.phaseCount + s.latency .memoryToL2
        + s.latency .l2ToL1 := by
      rw [Setting.readLatency, if_neg fun h => hhere (hresident.mp h)]
      omega
    rw [heq]
    exact .asked (s.latency .l2ToMemory - 1) status (hsend .l2ToMemory) ⟨hpending, hongoing⟩
      hstatus (MissTable.withdrawn_add hnew) habsent hleft

theorem access_awaits (hl : s.Legal) (hs : h.Sound frame contents []) (hp : h.Paced s)
    (hslots : 1 ≤ frame.missSlots) (hquiet : h.isQuiescent = true) {a : Nat}
    (ha : a < frame.memoryBytes) (hblock : (frame.geometry.locate a).block = b.address)
    (hsame : (h.l1.get b.kind).contains a = (h.l1.get b.kind).contains b.address)
    (habsent : (h.l1.get b.kind).contains a = .ok false) {resident : Bool}
    (hresident : resident = true ↔ h.l2.store.Resident b) {status : Dram.RowStatus}
    (hstatus : h.dram.rowStatus b.address = .ok status) :
    Ends (h.access b.kind a) Overflows fun r =>
      r.2.Awaits s b (s.readLatency resident status) := by
  rw [access]
  apply Ends.bind_ok (checkAddress_eq hs ha)
  apply Ends.bind' (lookUp_keeps hl hs hp b.kind a)
  intro found hfound
  obtain ⟨lookup, h₁⟩ := found
  obtain ⟨l1, counters, rfl, hcontains, hs₁, hp₁, ⟨hhit, -⟩ | ⟨-, rfl⟩⟩ := hfound
  · rw [habsent] at hhit
    cases hhit
  · rw [hsame, ← hcontains] at habsent
    apply Ends.bind' (probe_awaits hl hs₁ hp₁ hslots hquiet habsent (blockOf_eq hs hblock) rfl
      hresident hstatus)
    exact fun _ hr => Ends.pure' hr

/-- A read of a block that is not in its L1, the ticks that follow, and other accesses to the
block. -/
theorem run_read (hl : s.Legal)
    (hblocks : ∀ kind a, ((s.l1.get kind).locate a).block = (frame.geometry.locate a).block)
    (hslots : 1 ≤ frame.missSlots) (hquiet : h.isQuiescent = true) {a : Nat} {rest : List Action}
    {past : List (Action × Reply)}
    (hh : h.InPace frame s contents (.access b.kind a :: rest) past)
    (hblock : (frame.geometry.locate a).block = b.address)
    (hrepeats : ∀ action ∈ rest, action.Repeats frame.geometry b)
    (habsent : (h.l1.get b.kind).contains a = .ok false) {resident : Bool}
    (hresident : resident = true ↔ h.l2.store.Resident b) {status : Dram.RowStatus}
    (hstatus : h.dram.rowStatus b.address = .ok status) :
    Ends (record Hierarchy.perform h (.access b.kind a :: rest) past) Overflows fun r =>
      (r.2.l1.get b.kind).contains a
        = .ok (decide (s.readLatency resident status ≤ rest.count .tick)) := by
  have hcontains : ∀ {h' : Hierarchy}, h'.Paced s →
      (h'.l1.get b.kind).contains a = (h'.l1.get b.kind).contains b.address := by
    intro h' hp'
    rw [← hblock]
    exact l1_contains_block hp' hblocks b.kind a
  have ha : a < frame.memoryBytes := hh.holds.inRange _ List.mem_cons_self
  have hawaits : Ends (h.perform (.access b.kind a)) Overflows fun r =>
      r.2.Awaits s b (s.readLatency resident status) := by
    apply Ends.bind' (access_awaits hl hh.holds.sound hh.paced hslots hquiet ha hblock
      (hcontains hh.paced) habsent hresident hstatus)
    exact fun _ hr => Ends.pure' hr
  rw [record]
  apply Ends.bind' ((hh.perform hl).also hawaits)
  intro r hr
  have hstart : r.2.Waiting frame s contents b (s.readLatency resident status - rest.count .tick)
      rest ((.access b.kind a, r.1) :: past) := ⟨hr.1.1, hrepeats, _, hr.2, rfl⟩
  apply (run_waiting hl hblocks hstart).weaken
  intro r' hr'
  obtain ⟨hpace, -, left, hw, hleft⟩ := hr'
  rw [List.count_nil, Nat.sub_zero] at hleft
  rw [hcontains hpace.paced, hw.contains, hleft]
  exact congrArg Except.ok (decide_eq_decide.mpr Nat.sub_eq_zero_iff_le)

/-! ## Every state -/

/-- A run from a state that a hierarchy has come to goes on in pace. -/
theorem Reaches.extend {c : Config} {g : Config.Geometries} (hc : c.validate = .ok g)
    {past : List (Action × Reply)} (hreach : Reaches c past h) {actions : List Action}
    (hactions : ∀ action ∈ actions, action.InRange c.general.memoryBytes.toNat) :
    ∃ contents, h.InPace (Frame.ofConfig c g) (Setting.ofConfig c g) contents actions past := by
  obtain ⟨contents, hh⟩ := hreach.inPace hc
  exact ⟨contents, ⟨hactions, hh.holds.pastInRange, hh.holds.sound⟩, hh.paced, hh.busy, hh.cycle⟩

/-- A run of fewer than `2 ^ 60` actions in all goes through from any state. -/
theorem Reaches.run_total {c : Config} {g : Config.Geometries} (hc : c.validate = .ok g)
    {past : List (Action × Reply)} (hreach : Reaches c past h) {actions : List Action}
    (hactions : ∀ action ∈ actions, action.InRange c.general.memoryBytes.toNat)
    (hlength : past.length + actions.length < twoPow 60) :
    Ends (record Hierarchy.perform h actions past) Never fun _ => True := by
  have hl := Setting.ofConfig_legal (Config.validate_fitted hc)
  obtain ⟨contents, hpace⟩ := hreach.extend hc hactions
  have hword : UInt64.size = 2 ^ 64 := rfl
  have hmost : twoPow 60 = 2 ^ 60 := rfl
  have hplan : twoPow 34 = 2 ^ 34 := rfl
  have hhorizon := Dram.Controller.idle_horizon_le (Config.validate_fitted hc).dram g.l2.lineBytes
  have hcount : actions.count .tick ≤ actions.length := List.count_le_length
  have hcycle := hpace.cycle
  have hroomy : h.Roomy (0 + 13 * actions.length) :=
    (hreach.roomy hc (by omega)).mono (by omega)
  have hroom : h.InRoom (Frame.ofConfig c g) (Setting.ofConfig c g) contents 0 actions past := by
    refine ⟨hpace, hroomy, ?_⟩
    show _ + (Dram.Controller.idle c.dram g.l2.lineBytes).timing.horizon ≤ _
    omega
  exact (run_inRoom hl hroom).weaken fun _ _ => trivial

/-- **Read latency.** If nothing is on its way and the block of an address is not in its L1, an
access brings it there with tick `readLatency` and not before, whatever has been done to the
hierarchy, and however often the block is accessed again meanwhile. The run goes through unless
`2 ^ 60` actions have used up a number. -/
theorem read_latency (c : Config) (g : Config.Geometries) (hc : c.validate = .ok g)
    (past : List (Action × Reply)) (h : Hierarchy) (hreach : Reaches c past h)
    (hquiet : h.isQuiescent = true) (kind : Kind) (a : Nat)
    (ha : a < c.general.memoryBytes.toNat) (habsent : (h.l1.get kind).contains a = .ok false) :
    ∃ resident status, h.l2.contains a kind = .ok resident
      ∧ h.dram.rowStatus (g.l2.locate a).block = .ok status
      ∧ ∀ rest : List Action, (∀ action ∈ rest, action.InRange c.general.memoryBytes.toNat
          ∧ action.Repeats g.l2 ⟨(g.l2.locate a).block, kind⟩) →
        Ends (record Hierarchy.perform h (.access kind a :: rest) past)
          (fun f => f = .overflow ∧ twoPow 60 ≤ past.length + (rest.length + 1)) fun r =>
            (r.2.l1.get kind).contains a
              = .ok (decide (c.readLatency resident status ≤ rest.count .tick)) := by
  have hfit := Config.validate_fitted hc
  have hl := Setting.ofConfig_legal hfit
  obtain ⟨contents, hpace⟩ := hreach.inPace hc
  have hs := hpace.holds.sound
  obtain ⟨resident, hcontains, hresident⟩ := contains_spec hs.coherent.sound a kind
  rw [hs.geometry] at hresident
  have hwiring : h.dram.wiring.Legal := hpace.paced.wiring ▸ hl.wiring
  obtain ⟨status, hstatus, -⟩ := (Dram.Controller.rowStatus_total hs.dram.maskable hwiring
    (g.l2.locate a).block).exists_ok
  refine ⟨resident, status, hcontains, hstatus, ?_⟩
  intro rest hrest
  have hactions : ∀ action ∈ Action.access kind a :: rest,
      action.InRange c.general.memoryBytes.toNat :=
    List.forall_mem_cons.mpr ⟨ha, fun action haction => (hrest action haction).1⟩
  obtain ⟨contents', hpace'⟩ := hreach.extend hc hactions
  have hblocks : ∀ kind a, (((Setting.ofConfig c g).l1.get kind).locate a).block
      = ((Frame.ofConfig c g).geometry.locate a).block := hfit.locate_block
  have hread := run_read (b := ⟨(g.l2.locate a).block, kind⟩) hl hblocks hfit.missSlots
    hquiet hpace' rfl (fun action haction => (hrest action haction).2) habsent hresident hstatus
  rw [Setting.ofConfig_readLatency hfit] at hread
  by_cases hshort : past.length + (rest.length + 1) < twoPow 60
  · apply (hread.and_never (hreach.run_total hc hactions hshort)).mono
    · exact fun _ he => he.elim
    · exact fun _ hr => hr.1
  · exact hread.mono (fun _ he => ⟨he, Nat.not_lt.mp hshort⟩) fun _ hr => hr

/-- The first read with the default latencies, and one of a block that only the L1 has lost. -/
example : Config.readLatency {} false .miss = 274 ∧ Config.readLatency {} true .hit = 15 := by
  decide

/-- A read that finds another row open, and is repeated after two ticks. -/
theorem read_latency_row_conflict :
    ∃ (c : Config) (g : Config.Geometries) (past : List (Action × Reply)) (h : Hierarchy),
      c.validate = .ok g ∧ Reaches c past h ∧ h.isQuiescent = true
        ∧ (h.l1.get .data).contains 21 = .ok false ∧ c.readLatency false .conflict = 6
        ∧ ∃ r, record Hierarchy.perform h
            [.access .data 21, .tick, .tick, .access .data 20, .tick, .tick, .tick, .tick] past
              = .ok r
          ∧ (r.2.l1.get .data).contains 21 = .ok true := by
  obtain ⟨c, g, h₀, hvalid, hbuild, hbytes, hlatency, hblocks, r, hr, hquiet, habsent, hl2, hrow,
      hlength⟩ :
      ∃ (c : Config) (g : Config.Geometries) (h₀ : Hierarchy), c.validate = .ok g
        ∧ ofConfig? c = .ok h₀ ∧ c.general.memoryBytes.toNat = 32
        ∧ c.readLatency false .conflict = 6
        ∧ ((g.l2.locate 21).block = 20 ∧ (g.l2.locate 20).block = 20)
        ∧ ∃ r, record Hierarchy.perform h₀ [.access .data 5, .tick, .tick, .tick, .tick, .tick]
            = .ok r
          ∧ r.2.isQuiescent = true ∧ (r.2.l1.get .data).contains 21 = .ok false
          ∧ r.2.l2.contains 21 .data = .ok false ∧ r.2.dram.rowStatus 20 = .ok .conflict
          ∧ r.1.length = 6 :=
    ⟨{ general := { wordBits := 8, memoryBytes := 32 }
       caches := { l1Instruction := ⟨4, 1, 4⟩, l1Data := ⟨4, 1, 4⟩, l2 := ⟨8, 1, 4⟩ }
       missTracking := { entries := 2 }
       latencies := ⟨1, 1, 1⟩
       dram := ⟨1, 4, 1, 1, 1⟩ }, _, _, rfl, rfl, rfl, rfl, ⟨rfl, rfl⟩, _, rfl, rfl, rfl, rfl, rfl,
      rfl⟩
  obtain ⟨past, h⟩ := r
  have hreach : Reaches c past h := by
    refine ⟨h₀, [], h₀, _, hbuild, rfl, ?_, hr⟩
    rw [hbytes]
    simp [Action.InRange]
  obtain ⟨resident, status, hcontains, hstatus, hread⟩ := read_latency c g hvalid past h hreach
    hquiet .data 21 (by rw [hbytes]; decide) habsent
  obtain rfl := Except.ok.inj (hcontains.symm.trans hl2)
  rw [hblocks.1] at hstatus hread
  obtain rfl := Except.ok.inj (hstatus.symm.trans hrow)
  have hends := hread [.tick, .tick, .access .data 20, .tick, .tick, .tick, .tick]
    (by simp [Action.InRange, Action.Repeats, hbytes, hblocks.2])
  have hshort : ¬twoPow 60 ≤ past.length + (7 + 1) := by
    rw [hlength]
    decide
  obtain ⟨last, hlast, hhere⟩ :=
    Ends.exists_ok (Ends.mono hends (fun _ he => hshort he.2) fun _ h => h)
  rw [hlatency] at hhere
  exact ⟨c, g, past, h, hvalid, hreach, hquiet, habsent, hlatency, last, hlast, hhere⟩

end Hierarchy

end MemoryHierarchy
