import MemoryHierarchy.Proofs.Dram.Progress
import MemoryHierarchy.Proofs.Hierarchy.Actions
import MemoryHierarchy.Proofs.L2.DirtyLines

/-!
What each part of an action changes, and what it leaves alone.

A look-up and a probe are requests: they touch a cache, and send one message at most
(`Requested`). A delivery changes the component at the end of its route (`Delivered`). The memory
controller sends back what it retires (`tickMemory_effect`). Each says what it counts.
-/

namespace MemoryHierarchy

/-- The messages after these blocks have been sent from memory to the L2. -/
def Interconnect.returning (ic : Interconnect) (blocks : List BlockRef) : Interconnect :=
  { ic with
    messages := ic.messages ++ blocks.map
      ({ block := ·, remaining := ic.latency .memoryToL2 - 1, route := .memoryToL2 }) }

@[simp] theorem Interconnect.returning_nil (ic : Interconnect) : ic.returning [] = ic := by
  rw [returning, List.map_nil, List.append_nil]

theorem Interconnect.returning_cons (ic : Interconnect) (b : BlockRef) (rest : List BlockRef) :
    ic.returning (b :: rest) = (ic.sendOn b .memoryToL2).returning rest := by
  simp [returning, sendOn, send, latency]

theorem Interconnect.mem_returning {ic : Interconnect} {blocks : List BlockRef} {m : Message} :
    m ∈ (ic.returning blocks).messages ↔ m ∈ ic.messages
      ∨ ∃ b ∈ blocks, m = ⟨b, ic.latency .memoryToL2 - 1, .memoryToL2⟩ := by
  simp [returning, eq_comm]

theorem Interconnect.messagesOn_returning (ic : Interconnect) (blocks : List BlockRef)
    (route : Route) : messagesOn route (ic.returning blocks).messages
      = messagesOn route ic.messages + if route = .memoryToL2 then blocks.length else 0 := by
  rw [returning, messagesOn_append]
  congr 1
  rw [messagesOn, List.countP_map]
  cases route <;> simp [Function.comp_def]

/-- The counters after a cycle of the memory controller that did this. -/
def Counters.afterCycle (c : Counters) (done : Dram.Cycle) : Counters :=
  match done.started? with
  | none => c.plus .dramRetired done.retired.length
  | some r => (c.plus .dramRetired done.retired.length).plus (rowCounter r.status) 1

namespace Hierarchy

open LineStore

variable {frame : Frame} {contents : Kind → Nat → Word} {held : List BlockRef} {h h' : Hierarchy}
  {b : BlockRef}

theorem l1_kept (hs : h.Sound frame contents held) {kind : Kind} {l1 : L1}
    (hl1 : L1.Kept (h.l1.get kind) l1) :
    ∀ k, L1.Kept (h.l1.get k) ((h.l1.set kind l1).get k) := by
  apply PerKind.forall_get_set (P := fun k c => L1.Kept (h.l1.get k) c)
  · exact hl1
  · exact fun k _ => ⟨rfl, rfl, Nat.le_succ _, hs.l1 k⟩

/-! ## Requests -/

theorem lookUp_effect (hs : h.Sound frame contents held) (kind : Kind) (a : Nat) :
    Ends (h.lookUp kind a) Overflows fun r => ∃ l1,
      r.2 = { h with
          l1 := h.l1.set kind l1
          counters := h.counters.plus (Counters.lookupCounter kind r.1.outcome) 1 }
        ∧ L1.Kept (h.l1.get kind) l1
        ∧ (∀ a', l1.contains a' = (h.l1.get kind).contains a')
        ∧ ((h.l1.get kind).contains a = .ok true ∧ r.1 = .hit
          ∨ (h.l1.get kind).contains a = .ok false
            ∧ r.1 = .miss ⟨a, (h.l1.get kind).kind, .read⟩) := by
  rw [lookUp]
  apply Ends.bind' ((L1.access_spec (hs.l1 kind) a).mono (fun _ => Exhausted.overflows)
    fun _ h => h)
  intro found hfound
  apply Ends.bind' (Counters.countLookup_spec _ _ _)
  intro counters hcounters
  subst hcounters
  exact Ends.pure' ⟨found.2, rfl, hfound⟩

theorem probe_effect (hs : h.Sound frame contents held) (p : Probe) :
    Ends (h.probe p) Overflows fun r => ∃ probed,
      r = (probed.response,
        { h with
          l2 := probed.cache, interconnect := probed.interconnect
          counters := h.counters.answered probed.response })
        ∧ ((∃ way line, h.l2.store.CopyAt (h.l2.store.geometry.locate p.address).index way
              (h.l2.blockOf p.address p.kind) line
              ∧ probed = h.l2.served p way line h.interconnect)
          ∨ ¬h.l2.store.Resident (h.l2.blockOf p.address p.kind)
            ∧ probed = h.l2.probeMiss p h.interconnect) := by
  rw [probe]
  apply Ends.bind' ((L2.probe_spec hs.coherent.sound p h.interconnect).mono
    (fun _ => Exhausted.overflows) fun _ h => h)
  intro probed hprobed
  apply Ends.bind' (Counters.countResponse_spec _ _)
  intro counters hcounters
  subst hcounters
  exact Ends.pure' ⟨probed, rfl, hprobed⟩

/-- What a request leaves as it was. It sends one message at most. -/
structure Requested (h h' : Hierarchy) : Prop where
  l1 : ∀ kind, L1.Kept (h.l1.get kind) (h'.l1.get kind)
  dram : h'.dram = h.dram
  cycle : h'.cycle = h.cycle
  sent : h'.interconnect = h.interconnect
    ∨ ∃ b route, h'.interconnect = h.interconnect.sendOn b route

theorem probe_sends {c : L2} {p : Probe} {ic : Interconnect} {probed : L2.Probed}
    (h : (∃ way line, c.store.CopyAt (c.store.geometry.locate p.address).index way
          (c.blockOf p.address p.kind) line ∧ probed = c.served p way line ic)
        ∨ ¬c.store.Resident (c.blockOf p.address p.kind) ∧ probed = c.probeMiss p ic) :
    probed.interconnect = ic ∨ ∃ b route, probed.interconnect = ic.sendOn b route := by
  rcases h with ⟨way, line, -, rfl⟩ | ⟨-, rfl⟩
  · rw [L2.served]
    cases p.operation with
    | read => exact .inr ⟨_, _, rfl⟩
    | write word => exact .inl rfl
  · rw [L2.probeMiss]
    split
    · exact .inl rfl
    · split
      · exact .inl rfl
      · exact .inr ⟨_, _, rfl⟩

/-- A probe behind a look-up. -/
theorem probe_requested (hs : h.Sound frame contents held) {kind : Kind} {l1 : L1}
    (hl1 : L1.Kept (h.l1.get kind) l1) (counters : Counters) (p : Probe) :
    Ends ({ h with l1 := h.l1.set kind l1, counters }.probe p) Overflows fun r =>
      Requested h r.2 := by
  have hs' := hs.withL1 (hs.l1_set kind hl1.shaped) h.cycle counters
  apply (probe_effect hs' p).weaken
  intro r hr
  obtain ⟨probed, rfl, hprobed⟩ := hr
  exact ⟨l1_kept hs hl1, rfl, rfl, probe_sends hprobed⟩

theorem access_requested (hs : h.Sound frame contents held) (kind : Kind) {a : Nat}
    (ha : a < frame.memoryBytes) :
    Ends (h.access kind a) Overflows fun r => Requested h r.2 := by
  rw [access]
  apply Ends.bind_ok (checkAddress_eq hs ha)
  apply Ends.bind' (lookUp_effect hs kind a)
  intro found hfound
  obtain ⟨lookup, h₁⟩ := found
  dsimp only at hfound
  obtain ⟨l1, rfl, hkept, -⟩ := hfound
  cases lookup with
  | hit => exact Ends.pure' ⟨l1_kept hs hkept, rfl, rfl, .inl rfl⟩
  | miss p =>
    apply Ends.bind' (probe_requested hs hkept _ p)
    exact fun _ hr => Ends.pure' hr

theorem write_requested (hs : h.Sound frame contents held) {a : Nat} (ha : a < frame.memoryBytes)
    (word : Word) : Ends (h.write a word) Overflows fun r => Requested h r.2 := by
  rw [write]
  apply Ends.bind_ok (checkAddress_eq hs ha)
  apply Ends.bind' (lookUp_effect hs .data a)
  intro found hfound
  obtain ⟨lookup, h₁⟩ := found
  dsimp only at hfound
  obtain ⟨l1, rfl, hkept, -⟩ := hfound
  apply Ends.bind' (probe_requested hs hkept _ _)
  intro probed hprobed
  apply Ends.bind' (Counters.incrementIf_ends _ _ _)
  intro counters' _
  exact Ends.pure' ⟨hprobed.l1, hprobed.dram, hprobed.cycle, hprobed.sent⟩

theorem cancel_requested (hs : h.Sound frame contents held) (kind : Kind) (a : Nat) :
    Ends (h.cancel kind a) Overflows fun r => Requested h r.2 := by
  rw [cancel]
  apply Ends.bind' (Counters.incrementIf_ends _ _ _)
  intro counters _
  exact Ends.pure' ⟨fun kind => ⟨rfl, rfl, Nat.le_succ _, hs.l1 kind⟩, rfl, rfl, .inl rfl⟩

/-! ## Deliveries -/

/-- What the delivery of a message changes, route by route. -/
inductive Delivered (h : Hierarchy) (m : Message) : Hierarchy → Prop
  | atL1 (l1 : L1) (counters : Counters) (hroute : m.route = .l2ToL1)
    (hkept : L1.Kept (h.l1.get m.block.kind) l1) (hhere : l1.contains m.block.address = .ok true)
    (hcounted : ∃ inserted : Bool,
      counters = (h.counters.plus .messagesDelivered 1).plus .l1Fills inserted.toNat) :
    Delivered h m { h with l1 := h.l1.set m.block.kind l1, counters }
  | atMemory (r : Dram.Request) (counters : Counters) (hroute : m.route = .l2ToMemory)
    (hblock : r.block = m.block) (hbank : h.dram.bankIndex m.block.address = .ok r.bank)
    (hrow : h.dram.row m.block.address = .ok r.row)
    (hcounted : counters = (h.counters.plus .messagesDelivered 1).plus .dramRequests 1) :
    Delivered h m
      { h with
        dram := { h.dram with
          pending := h.dram.pending ++ [r], nextId := h.dram.nextId + 1 }
        counters }
  | atL2 (filled : L2.Filled) (counters : Counters) (hroute : m.route = .memoryToL2)
    (hgeometry : filled.cache.store.geometry = h.l2.store.geometry)
    (hhere : filled.cache.store.Resident m.block)
    (hmisses : filled.cache.misses = h.l2.misses.erase m.block)
    (hnotified : filled.notified = !(h.l2.misses.get? m.block).any (·.cancelled))
    (hsent : filled.interconnect
      = if filled.notified then h.interconnect.sendOn m.block .l2ToL1 else h.interconnect)
    (hdirty : filled.cache.store.dirtyLines + filled.wroteBack?.isSome.toNat
      = h.l2.store.dirtyLines)
    (hcounted : counters = ((h.counters.plus .messagesDelivered 1).plus .l2Fills 1).plus
      .l2WriteBacks filled.wroteBack?.isSome.toNat) :
    Delivered h m
      { h with
        l2 := filled.cache, interconnect := filled.interconnect, memories := filled.memories
        counters }

theorem add_place (c : Dram.Controller) (block : BlockRef) (now : Nat) :
    Ends (c.add block now) (fun _ => True) fun r =>
      c.bankIndex block.address = .ok r.1.bank ∧ c.row block.address = .ok r.1.row := by
  rw [Dram.Controller.add]
  apply Ends.bind' Ends.any.and_eq
  intro index hindex
  apply Ends.bind' Ends.any.and_eq
  intro row hrow
  apply Ends.bind' Ends.any
  intro bank _
  apply Ends.bind' Ends.any
  intro plan _
  apply Ends.bind' Ends.any
  intro nextId _
  exact Ends.pure' ⟨hindex.2, hrow.2⟩

theorem deliver_effect {m : Message} {due : List Message}
    (hs : h.Sound frame contents (carried (m :: due))) :
    Ends (h.deliver m) Overflows (Delivered h m) := by
  obtain ⟨b, remaining, route⟩ := m
  rw [deliver]
  apply Ends.bind' (Counters.increment_spec _ _)
  intro counters hcounters
  subst hcounters
  have hs' := hs.withCounters (h.counters.plus .messagesDelivered 1)
  cases route with
  | l2ToL1 =>
    apply Ends.bind' ((L1.insert_spec (hs.l1 b.kind) b.address).mono (fun _ => Exhausted.overflows)
      fun _ h => h)
    intro inserted hinserted
    apply Ends.bind' (Counters.incrementIf_spec _ _ _)
    intro counters hcounters
    exact Ends.pure' (.atL1 inserted.2 counters rfl hinserted.1 hinserted.2 ⟨_, hcounters⟩)
  | l2ToMemory =>
    apply Ends.bind' ((Dram.Controller.add_spec hs.dram.maskable b h.cycle).also
      (add_place h.dram b h.cycle))
    intro added hadded
    obtain ⟨⟨heq, -, hblock, -⟩, hbank, hrow⟩ := hadded
    apply Ends.bind' (Counters.increment_spec _ _)
    intro counters hcounters
    apply Ends.pure'
    rw [heq]
    exact .atMemory added.1 counters rfl hblock hbank hrow hcounters
  | memoryToL2 =>
    obtain ⟨-, hwaiting, hfill⟩ := held_arrival hs'
    apply Ends.bind' ((hfill.mono (fun _ => Exhausted.overflows) fun _ h => h).also
      (L2.fill_dirtyLines hs.coherent.sound.shaped b h.interconnect h.memories))
    intro filled hboth
    obtain ⟨hfilled, hdirty⟩ := hboth
    apply Ends.bind' (Counters.increment_spec _ _)
    intro counters hcounters
    subst hcounters
    apply Ends.bind' (Counters.incrementIf_spec _ _ _)
    intro counters hcounters
    have hnotified := hfilled.notified
    have hmisses := hfilled.misses
    have hhere := hfilled.resident
    rw [hwaiting] at hnotified hmisses hhere
    exact Ends.pure' (.atL2 filled counters rfl hfilled.geometry hhere hmisses hnotified
      hfilled.interconnect hdirty hcounters)

/-! ## Memory -/

theorem sendBack_effect (h : Hierarchy) (b : BlockRef) :
    Ends (h.sendBack b) Overflows (· = { h with
      interconnect := h.interconnect.sendOn b .memoryToL2
      counters := h.counters.plus .dramRetired 1 }) := by
  rw [sendBack]
  apply Ends.bind' (Counters.increment_spec _ _)
  intro counters hcounters
  subst hcounters
  exact Ends.pure' rfl

theorem sendBack_all_effect : ∀ (blocks : List BlockRef) (h : Hierarchy),
    Ends (blocks.foldlM sendBack h) Overflows (· = { h with
      interconnect := h.interconnect.returning blocks
      counters := h.counters.plus .dramRetired blocks.length })
  | [], h => by
    apply Ends.pure'
    rw [Interconnect.returning_nil, List.length_nil, Counters.plus_zero]
  | b :: rest, h => by
    rw [List.foldlM_cons]
    apply Ends.bind' (sendBack_effect h b)
    intro h₁ hh₁
    subst hh₁
    apply (sendBack_all_effect rest _).weaken
    intro h₂ hh₂
    rw [hh₂, Interconnect.returning_cons, Counters.plus_plus, List.length_cons, Nat.add_comm 1]

/-- Memory sends back what its controller retires. -/
theorem tickMemory_effect (hdram : h.dram.Sound) :
    Ends h.tickMemory Overflows fun h' => ∃ done dram,
      h.dram.tick h.cycle = .ok (done, dram)
        ∧ h' = { h with
          dram, interconnect := h.interconnect.returning done.retired
          counters := h.counters.afterCycle done } := by
  rw [tickMemory]
  apply Ends.bind' (Dram.Controller.tick_spec hdram h.cycle).and_eq
  intro ticked hticked
  obtain ⟨done, dram⟩ := ticked
  apply Ends.bind' (sendBack_all_effect done.retired _)
  intro h₁ hh₁
  subst hh₁
  cases hstarted : done.started? with
  | none =>
    refine Ends.pure' ⟨done, dram, hticked.2, ?_⟩
    rw [Counters.afterCycle, hstarted]
  | some request =>
    apply Ends.bind' (Counters.countRow_spec _ _)
    intro counters hcounters
    subst hcounters
    refine Ends.pure' ⟨done, dram, hticked.2, ?_⟩
    rw [Counters.afterCycle, hstarted]

/-! ## Ticks -/

/-- What a tick does: it delivers, then lets the memory controller work, then goes on to the next
cycle. -/
inductive Ticked (h : Hierarchy) : Hierarchy → Prop
  | intro (h₁ : Hierarchy) (done : Dram.Cycle) (dram : Dram.Controller) (counters : Counters)
    (hdue : h.deliverDue = .ok h₁) (hmemory : h₁.dram.tick h₁.cycle = .ok (done, dram)) :
    Ticked h
      { h₁ with
        dram, counters, interconnect := h₁.interconnect.returning done.retired
        cycle := h₁.cycle + 1 }

theorem deliverDue_sound (hs : h.Sound frame contents []) :
    Ends h.deliverDue Overflows (Sound frame contents []) := deliver_all_sound _ (due_sound hs)

theorem tick_effect (hs : h.Sound frame contents []) : Ends h.tick Overflows (Ticked h) := by
  rw [tick]
  apply Ends.bind' (deliverDue_sound hs).and_eq
  intro h₁ hh₁
  apply Ends.bind' (tickMemory_effect hh₁.1.dram)
  intro h₂ hh₂
  obtain ⟨done, dram, hmemory, rfl⟩ := hh₂
  apply Ends.bind' (sum64_spec _ _)
  intro cycle hcycle
  subst hcycle
  exact Ends.pure' (.intro h₁ done dram _ hh₁.2 hmemory)

/-- What every delivery keeps, with the other messages still to be delivered, the deliveries of a
tick keep. -/
theorem deliver_all_keep (I : List Message → Hierarchy → Prop)
    (hstep : ∀ m due h h', h.Sound frame contents (carried (m :: due)) → I (m :: due) h →
      Delivered h m h' → I due h') (due : List Message) (hs : h.Sound frame contents (carried due))
    (hI : I due h) : Ends (due.foldlM deliver h) Overflows (I []) := by
  have hboth : Ends (due.foldlM deliver h) Overflows fun h' =>
      h'.Sound frame contents (carried []) ∧ I [] h' := by
    apply Ends.foldlM' (fun due h => h.Sound frame contents (carried due) ∧ I due h) ?_ due h
      ⟨hs, hI⟩
    intro m due h hh
    apply ((deliver_sound hh.1).also (deliver_effect hh.1)).weaken
    exact fun h' hh' => ⟨hh'.1, hstep m due h h' hh.1 hh.2 hh'.2⟩
  exact hboth.weaken fun _ hh => hh.2

end Hierarchy

end MemoryHierarchy
