import MemoryHierarchy.Proofs.Accepted
import MemoryHierarchy.Proofs.Counting
import MemoryHierarchy.Proofs.Hierarchy.Transfers
import MemoryHierarchy.Proofs.L1.Residency
import MemoryHierarchy.Proofs.L2.Answers
import MemoryHierarchy.Proofs.Outstanding

/-!
The invariant of a hierarchy.

`Sound` says that the outstanding misses are the blocks in transit, each once and none of them
resident, and that L2 and memories have the contents. Every part of an action keeps it
(`lookUp_sound`, `probe_sound`, `deliver_sound`, `sendBack_sound`), and so does every action
(`perform_sound`): only a write that hits changes the contents. While a tick hands a block
from one place to the next, the block is in neither; it is then among those `held`.
-/

namespace MemoryHierarchy

open LineStore

namespace Dram.Controller

/-- What a cycle retires is what it takes out of the requests. -/
theorem tick_requests {c : Controller} (h : c.Sound) (now : Nat) :
    Ends (c.tick now) Overflows fun r => r.2.Sound
      ∧ (r.1.retired ++ r.2.requests.map (·.block)).Perm (c.requests.map (·.block)) := by
  apply (tick_spec h now).weaken
  intro r hr
  obtain ⟨hretired, hscheduled⟩ := hr
  refine ⟨(h.afterRetire now).scheduled hscheduled, ?_⟩
  have hperm := hscheduled.requests_perm (f := (·.block)) fun _ _ _ => rfl
  rw [requests_afterRetire] at hperm
  -- What was under way has ended or goes on.
  have hsplit : (c.ended now ++ c.underWay now).Perm c.ongoing :=
    List.filter_append_perm (hasEnded now) c.ongoing
  rw [hretired]
  apply (hperm.append_left _).trans
  rw [← List.map_append, ← List.append_assoc]
  exact (hsplit.append_right _).map _

theorem add_requests {c : Controller} (h : c.Sound) (block : BlockRef) (now : Nat) :
    Ends (c.add block now) Overflows fun r => r.2.Sound
      ∧ r.2.requests.map (·.block) = c.requests.map (·.block) ++ [block] := by
  apply (add_spec h.maskable block now).weaken
  intro added hadded
  obtain ⟨heq, hid, hblock, hbank⟩ := hadded
  rw [heq]
  refine ⟨h.add hid hbank, ?_⟩
  rw [requests, requests, ← List.append_assoc, List.map_append, ← hblock]
  rfl

end Dram.Controller

/-! ## The invariant -/

namespace Hierarchy

/-- What no action changes. -/
structure Frame where
  geometry : Geometry
  memoryBytes : Nat
  missSlots : Nat

/-- The outstanding misses are the blocks held and in transit, each once and none of them
resident, and L2 and memories have the contents. -/
structure Sound (frame : Frame) (contents : Kind → Nat → Word) (held : List BlockRef)
    (h : Hierarchy) : Prop where
  geometry : h.l2.store.geometry = frame.geometry
  memoryBytes : h.memoryBytes = frame.memoryBytes
  missSlots : h.l2.misses.capacity = frame.missSlots
  l1 : ∀ kind, (h.l1.get kind).store.Shaped 0
  dram : h.dram.Sound
  coherent : Coherent (fun _ => frame.memoryBytes) h.l2.store h.memories contents
  tracked : h.l2.misses.blocks.Perm (held ++ h.inTransit)
  nodup : h.l2.misses.blocks.Nodup
  canonical : ∀ b ∈ h.l2.misses.blocks, (frame.geometry.locate b.address).block = b.address
  inside : ∀ b ∈ h.l2.misses.blocks, b.address < frame.memoryBytes
  absent : ∀ b ∈ h.l2.misses.blocks, ¬h.l2.store.Resident b

variable {frame : Frame} {contents : Kind → Nat → Word} {held : List BlockRef} {h : Hierarchy}

namespace Sound

/-- Counters and the state of the L1s have no part in the protocol. -/
theorem withL1 (hs : h.Sound frame contents held) {l1 : PerKind L1}
    (hl1 : ∀ kind, (l1.get kind).store.Shaped 0) (cycle : Nat) (counters : Counters) :
    { h with l1, cycle, counters }.Sound frame contents held :=
  ⟨hs.geometry, hs.memoryBytes, hs.missSlots, hl1, hs.dram, hs.coherent, hs.tracked, hs.nodup,
    hs.canonical, hs.inside, hs.absent⟩

theorem withCounters (hs : h.Sound frame contents held) (counters : Counters) :
    { h with counters }.Sound frame contents held := hs.withL1 hs.l1 h.cycle counters

theorem l1_set (hs : h.Sound frame contents held) (k : Kind) {c : L1} (hc : c.store.Shaped 0) :
    ∀ kind, ((h.l1.set k c).get kind).store.Shaped 0 := by
  apply PerKind.forall_get_set (P := fun _ (l1 : L1) => l1.store.Shaped 0)
  · exact hc
  · exact fun kind _ => hs.l1 kind

/-- A miss table with the same blocks, and messages that carry the same ones. -/
theorem withMisses (hs : h.Sound frame contents held) {misses : MissTable} {ic : Interconnect}
    (hslots : misses.capacity = h.l2.misses.capacity) (hblocks : misses.blocks = h.l2.misses.blocks)
    (hcarried : carried ic.messages = carried h.interconnect.messages) (counters : Counters) :
    { h with l2 := { h.l2 with misses }, interconnect := ic, counters }.Sound frame contents
      held where
  geometry := hs.geometry
  memoryBytes := hs.memoryBytes
  missSlots := hslots.trans hs.missSlots
  l1 := hs.l1
  dram := hs.dram
  coherent := hs.coherent
  tracked := by
    show misses.blocks.Perm (held ++ (carried ic.messages ++ _))
    rw [hblocks, hcarried]
    exact hs.tracked
  nodup := hblocks ▸ hs.nodup
  canonical := hblocks ▸ hs.canonical
  inside := hblocks ▸ hs.inside
  absent := hblocks ▸ hs.absent

end Sound

/-! ## Requests -/

/-- A look-up keeps the invariant, and asks the L2 for nothing but its address. -/
theorem lookUp_sound (hs : h.Sound frame contents held) (kind : Kind) (a : Nat) :
    Ends (h.lookUp kind a) Overflows fun r => r.2.Sound frame contents held
      ∧ ∀ p, r.1 = .miss p → p.address = a ∧ p.operation = .read := by
  rw [lookUp]
  apply Ends.bind' ((L1.access_spec (hs.l1 kind) a).mono (fun _ => Exhausted.overflows)
    fun _ h => h)
  intro found hfound
  obtain ⟨hkept, -, hlookup⟩ := hfound
  apply Ends.bind' (Counters.countLookup_ends _ _ _)
  intro counters _
  refine Ends.pure' ⟨hs.withL1 (hs.l1_set kind hkept.shaped) h.cycle counters, ?_⟩
  intro p hp
  rcases hlookup with ⟨-, hhit⟩ | ⟨-, hmiss⟩
  · rw [hhit] at hp
    cases hp
  · rw [hmiss] at hp
    obtain rfl := Lookup.miss.inj hp
    exact ⟨rfl, rfl⟩

/-- The contents after a probe that was answered like this. -/
def afterProbe (g : Geometry) (p : Probe) (response : L2.Response) (contents : Kind → Nat → Word) :
    Kind → Nat → Word :=
  match response with
  | .hit => p.operation.store p.kind (g.wordIndex p.address) contents
  | .miss _ => contents

theorem served_sound (hs : h.Sound frame contents held) {p : Probe} {way : Nat} {line : Line}
    (hc : h.l2.store.CopyAt (h.l2.store.geometry.locate p.address).index way
      (h.l2.blockOf p.address p.kind) line) (counters : Counters) :
    { h with
      l2 := (h.l2.served p way line h.interconnect).cache
      interconnect := (h.l2.served p way line h.interconnect).interconnect
      counters }.Sound frame (afterProbe frame.geometry p .hit contents) held where
  geometry := hs.geometry
  memoryBytes := hs.memoryBytes
  missSlots := hs.missSlots
  l1 := hs.l1
  dram := hs.dram
  coherent := by
    rw [← hs.geometry]
    exact hs.coherent.perform hc p.operation
  tracked := by
    have hcarried : carried (h.l2.served p way line h.interconnect).interconnect.messages
        = carried h.interconnect.messages := by
      rw [L2.served]
      cases p.operation with
      | read => exact h.interconnect.carried_announce _
      | write word => rfl
    show h.l2.misses.blocks.Perm (held ++ (carried _ ++ _))
    rw [hcarried]
    exact hs.tracked
  nodup := hs.nodup
  canonical := hs.canonical
  inside := hs.inside
  absent := fun b hb hres => hs.absent b hb ((L2.served_resident hc h.interconnect b).mp hres)

/-- A block that is not here, not outstanding and inside memory may be asked for. -/
theorem asked_sound (hs : h.Sound frame contents held) {b : BlockRef}
    (hno : ¬h.l2.store.Resident b)
    (hcanonical : (frame.geometry.locate b.address).block = b.address)
    (hin : b.address < frame.memoryBytes) (hnew : b ∉ h.l2.misses.blocks)
    (hfull : h.l2.misses.isFull = false) (counters : Counters) :
    { h with
      l2 := { h.l2 with misses := h.l2.misses.add b }
      interconnect := h.interconnect.sendOn b .l2ToMemory
      counters }.Sound frame contents held := by
  have hadd := MissTable.blocks_add hnew hfull
  have hmem : ∀ {b'}, b' ∈ (h.l2.misses.add b).blocks → b' = b ∨ b' ∈ h.l2.misses.blocks :=
    fun hb' => List.mem_cons.mp (hadd.mem_iff.mp hb')
  refine { geometry := hs.geometry, memoryBytes := hs.memoryBytes, missSlots := ?_, l1 := hs.l1,
           dram := hs.dram, coherent := hs.coherent, tracked := ?_, nodup := ?_, canonical := ?_,
           inside := ?_, absent := ?_ }
  · exact (MissTable.capacity_add _ _).trans hs.missSlots
  · have hsend := h.interconnect.carried_sendOn .l2ToMemory (by decide) b
    show (h.l2.misses.add b).blocks.Perm (held ++ (carried _ ++ h.dram.requests.map (·.block)))
    rw [hsend, List.append_assoc, List.singleton_append]
    apply hadd.trans
    apply (hs.tracked.cons b).trans
    rw [inTransit, ← List.append_assoc, ← List.append_assoc]
    exact List.perm_middle.symm
  · exact hadd.nodup_iff.mpr (List.nodup_cons.mpr ⟨hnew, hs.nodup⟩)
  · intro b' hb'
    rcases hmem hb' with rfl | hb'
    · exact hcanonical
    · exact hs.canonical b' hb'
  · intro b' hb'
    rcases hmem hb' with rfl | hb'
    · exact hin
    · exact hs.inside b' hb'
  · intro b' hb'
    rcases hmem hb' with rfl | hb'
    · exact hno
    · exact hs.absent b' hb'

theorem probe_sound (hs : h.Sound frame contents held) (p : Probe)
    (hp : p.address < frame.memoryBytes) :
    Ends (h.probe p) Overflows fun r =>
      r.2.Sound frame (afterProbe frame.geometry p r.1 contents) held
        ∧ (r.1 = .hit →
          r.2.l2.store.Resident ⟨(frame.geometry.locate p.address).block, p.kind⟩) := by
  rw [probe]
  apply Ends.bind' ((L2.probe_spec hs.coherent.sound p h.interconnect).mono
    (fun _ => Exhausted.overflows) fun _ h => h)
  intro r hr
  apply Ends.bind' (Counters.countResponse_ends _ _)
  intro counters _
  apply Ends.pure'
  rcases hr with ⟨way, line, hc, rfl⟩ | ⟨hno, rfl⟩
  · refine ⟨served_sound hs hc counters, fun _ => ?_⟩
    rw [← hs.geometry]
    exact (L2.served_resident hc h.interconnect _).mpr hc.resident
  · obtain ⟨disposition, hmiss⟩ := h.l2.probeMiss_response p h.interconnect
    refine ⟨?_, fun hhit => by rw [hmiss] at hhit; cases hhit⟩
    rw [L2.probeMiss]
    -- The block is outstanding already, or no slot is free, or it is asked for.
    by_cases hcontains : h.l2.misses.contains (h.l2.blockOf p.address p.kind) = true
    · rw [if_pos hcontains]
      exact hs.withMisses (MissTable.capacity_mark _ _ _) (MissTable.blocks_mark _ _ _) rfl counters
    · rw [if_neg hcontains]
      by_cases hfull : h.l2.misses.isFull = true
      · rw [if_pos hfull]
        exact hs.withMisses rfl rfl rfl counters
      · rw [if_neg hfull]
        apply asked_sound hs hno
        · rw [← hs.geometry]
          exact Geometry.locate_locate_block p.address
        · apply Nat.lt_of_le_of_lt _ hp
          exact Nat.le_trans (Geometry.locate_block_le_self _) (Nat.mod_le _ _)
        · exact fun hb => hcontains (MissTable.contains_iff.mpr hb)
        · exact Bool.not_eq_true _ ▸ hfull

end Hierarchy

end MemoryHierarchy
