import MemoryHierarchy.Proofs.Hierarchy.Actions

/-!
The protocol of misses.

A miss is outstanding in the L2 exactly as long as its block is on its way below the L2. So a
block is asked for once, it is not resident while it is on its way, and when it arrives it settles
its miss (`miss_protocol`).
-/

namespace MemoryHierarchy.Hierarchy

open LineStore

/-- What the arrival of a block finds and does: one slot waits for the block and the block is not
here; afterwards it is here, and the slot is free. -/
structure Settles (h : Hierarchy) (b : BlockRef) : Prop where
  tracked : h.l2.misses.slots.countP (MissTable.tracks (h.l2.waiting b)) = 1
  absent : h.l2.contains b.address b.kind = .ok false
  filled : Ends (h.l2.fill b h.interconnect h.memories) Overflows fun r =>
    r.cache.misses.slots.countP (MissTable.tracks (h.l2.waiting b)) = 0
      ∧ r.cache.misses.size + 1 = h.l2.misses.size
      ∧ r.cache.contains b.address b.kind = .ok true

/-- The protocol of misses, with so many slots. -/
structure MissProtocol (missSlots : Nat) (h : Hierarchy) : Prop where
  tracked : h.l2.misses.blocks.Perm h.transfers
  once : h.transfers.Nodup
  canonical : ∀ b ∈ h.transfers, (h.l2.store.geometry.locate b.address).block = b.address
  absent : ∀ b ∈ h.transfers, h.l2.contains b.address b.kind = .ok false
  bounded : h.transfers.length ≤ missSlots
  arrivals : ∀ before m after, h.interconnect.tick.1 = before ++ m :: after →
    m.route = .memoryToL2 →
    Ends (before.foldlM deliver { h with interconnect := h.interconnect.tick.2 }) Overflows
      fun h' => h'.Settles m.block

variable {frame : Frame} {contents : Kind → Nat → Word} {held : List BlockRef} {h : Hierarchy}
  {b : BlockRef}

theorem contains_block {c : L2} (hs : c.store.Sound)
    (hb : (c.store.geometry.locate b.address).block = b.address) :
    ∃ found, c.contains b.address b.kind = .ok found ∧ (found = true ↔ c.store.Resident b) := by
  obtain ⟨found, hcontains, hiff⟩ := contains_spec hs b.address b.kind
  rw [hb] at hiff
  exact ⟨found, hcontains, hiff⟩

theorem contains_absent {c : L2} (hs : c.store.Sound)
    (hb : (c.store.geometry.locate b.address).block = b.address) (hno : ¬c.store.Resident b) :
    c.contains b.address b.kind = .ok false := by
  obtain ⟨found, hcontains, hiff⟩ := contains_block hs hb
  rw [hcontains, Bool.eq_false_iff.mpr fun h => hno (hiff.mp h)]

theorem contains_resident {c : L2} (hs : c.store.Sound)
    (hb : (c.store.geometry.locate b.address).block = b.address) (hres : c.store.Resident b) :
    c.contains b.address b.kind = .ok true := by
  obtain ⟨found, hcontains, hiff⟩ := contains_block hs hb
  rw [hcontains, hiff.mpr hres]

/-- A held block settles its miss when it arrives. -/
theorem Sound.settles (hs : h.Sound frame contents (b :: held)) : h.Settles b := by
  obtain ⟨hb, hwaiting, hfill⟩ := held_arrival hs
  have hcanonical : (h.l2.store.geometry.locate b.address).block = b.address := by
    rw [hs.geometry]
    exact hs.canonical b hb
  refine ⟨?_, contains_absent hs.coherent.sound hcanonical (hs.absent b hb), ?_⟩
  · rw [MissTable.countP_tracks, hwaiting]
    exact List.count_eq_one_of_mem hs.nodup hb
  · -- The table lists the block once, so without it the block is not listed.
    apply hfill.mono fun _ => Exhausted.overflows
    intro r hr
    have herase := MissTable.blocks_erase hb
    have hmisses : r.cache.misses = h.l2.misses.erase b := by rw [hr.misses, hwaiting]
    refine ⟨?_, ?_, ?_⟩
    · rw [MissTable.countP_tracks, hwaiting, hmisses]
      exact List.count_eq_zero_of_not_mem (List.nodup_cons.mp (herase.nodup_iff.mp hs.nodup)).1
    · rw [hmisses, MissTable.size_eq, MissTable.size_eq, herase.length_eq, List.length_cons]
    · apply contains_resident hr.coherent.sound
      · rw [hr.geometry]
        exact hcanonical
      · have hres := hr.resident
        rw [hwaiting] at hres
        exact hres

/-- What is delivered before a block leaves the block held. -/
theorem deliver_before_sound {m : Message} (after : List Message) (before : List Message)
    (hs : h.Sound frame contents (carried (before ++ m :: after))) :
    Ends (before.foldlM deliver h) Overflows (Sound frame contents (carried (m :: after))) :=
  Ends.foldlM' (fun before h => Sound frame contents (carried (before ++ m :: after)) h)
    (fun _ _ _ hs => deliver_sound hs) before h hs

/-- The invariant is the protocol. -/
theorem Sound.protocol (hs : h.Sound frame contents []) : h.MissProtocol frame.missSlots := by
  have htracked : h.l2.misses.blocks.Perm h.transfers := hs.tracked.trans h.transfers_perm.symm
  have hcanonical : ∀ b ∈ h.transfers,
      (h.l2.store.geometry.locate b.address).block = b.address := by
    intro b hb
    rw [hs.geometry]
    exact hs.canonical b (htracked.mem_iff.mpr hb)
  refine ⟨htracked, htracked.nodup_iff.mp hs.nodup, hcanonical, ?_, ?_, ?_⟩
  · intro b hb
    have habsent := hs.absent b (htracked.mem_iff.mpr hb)
    exact contains_absent hs.coherent.sound (hcanonical b hb) habsent
  · rw [← htracked.length_eq, ← hs.missSlots]
    exact h.l2.misses.length_blocks_le
  · intro before m after hdue hroute
    -- When the turn comes to `m`, its block is the first one held.
    have hheld := due_sound hs
    rw [hdue] at hheld
    apply (deliver_before_sound after before hheld).weaken
    intro h' hs'
    have htransfer : m.isTransfer = true := by rw [Message.isTransfer, hroute]; rfl
    rw [carried_cons, if_pos htransfer] at hs'
    exact hs'.settles

/-- **Protocol of misses.** Whatever is done to a hierarchy that was built from a configuration,
its outstanding misses are the blocks on their way below the L2, each of them in one place and
none of them resident, and each arrival settles one miss. The actions go through unless a number
does not fit its word. -/
theorem miss_protocol (c : Config) (h₀ : Hierarchy) (hbuild : ofConfig? c = .ok h₀)
    (actions : List Action)
    (hactions : ∀ action ∈ actions, action.InRange c.general.memoryBytes.toNat) :
    Ends (record perform h₀ actions) Overflows fun r =>
      r.2.MissProtocol c.missTracking.entries.toNat := by
  obtain ⟨g, -, -, hs⟩ := ofConfig?_sound hbuild
  apply (run_sound hs actions hactions).weaken
  intro r hr
  exact hr.sound.protocol

/-- A miss whose block is back from memory and reaches the L2 in the next tick. -/
theorem miss_protocol_one_miss :
    ∃ (c : Config) (h₀ : Hierarchy) (r : List (Action × Reply) × Hierarchy),
      ofConfig? c = .ok h₀
        ∧ (∀ action ∈ [Action.access .data 5, .tick, .tick, .tick],
          action.InRange c.general.memoryBytes.toNat)
        ∧ record perform h₀ [.access .data 5, .tick, .tick, .tick] = .ok r
        ∧ r.2.interconnect.blocksOn .memoryToL2 = [⟨4, .data⟩]
        ∧ r.2.MissProtocol c.missTracking.entries.toNat := by
  obtain ⟨h₀, hbuild, r, hr, hback⟩ : ∃ h₀,
      ofConfig?
          { general := { wordBits := 8, memoryBytes := 16 }
            caches := { l1Instruction := ⟨4, 1, 4⟩, l1Data := ⟨4, 1, 4⟩, l2 := ⟨8, 1, 4⟩ }
            missTracking := { entries := 2 }
            latencies := ⟨1, 1, 1⟩
            dram := ⟨1, 4, 1, 1, 1⟩ } = .ok h₀
        ∧ ∃ r, record perform h₀ [.access .data 5, .tick, .tick, .tick] = .ok r
          ∧ r.2.interconnect.blocksOn .memoryToL2 = [⟨4, .data⟩] := ⟨_, rfl, _, rfl, rfl⟩
  have hactions : ∀ action ∈ [Action.access .data 5, .tick, .tick, .tick],
      action.InRange 16 := by
    refine List.forall_mem_cons.mpr ⟨?_, by simp [Action.InRange]⟩
    show 5 < 16
    decide
  exact ⟨_, h₀, r, hbuild, hactions, hr, hback,
    (miss_protocol _ h₀ hbuild _ hactions).of_ok hr⟩

end MemoryHierarchy.Hierarchy
