import MemoryHierarchy.Config.Validation
import MemoryHierarchy.Proofs.Placement
import MemoryHierarchy.Proofs.Run

/-!
What the checks of a configuration let through.

`Accepted` collects what a hierarchy relies on: the L2 has machine words of the configured width,
memory is a power of two of at least one line, and so are the banks. `Fitted` is about how its
parts fit together: all caches cut addresses into the same blocks, every message takes time, and
the memory banks are laid out within the address space (`Dram.LaidOut`).
-/

namespace MemoryHierarchy

theorem requireRange_ok {field : String} {value least most : Nat}
    (h : requireRange field value least most = .ok ()) : least ≤ value ∧ value ≤ most := by
  rw [requireRange] at h
  split at h
  · assumption
  · cases h

/-- The sizes of a geometry. -/
structure Geometry.HasSizes (g : Geometry) (wordBits sizeBytes ways lineBytes : UInt32) : Prop where
  wordBits : g.word.bits = wordBits.toNat
  sizeBytes : g.sizeBytes = sizeBytes.toNat
  ways : g.ways = ways.toNat
  lineBytes : g.lineBytes = lineBytes.toNat

theorem Geometry.ofSizes?_ok {wordBits sizeBytes ways lineBytes : UInt32} {g : Geometry}
    (h : Geometry.ofSizes? wordBits sizeBytes ways lineBytes = .ok g) :
    g.HasSizes wordBits sizeBytes ways lineBytes := by
  rw [Geometry.ofSizes?] at h
  split at h
  · cases h
  · next word hword =>
    obtain ⟨⟨s, hs⟩, -, h⟩ := bind_eq_ok.mp h
    obtain ⟨⟨w, hw⟩, -, h⟩ := bind_eq_ok.mp h
    obtain ⟨⟨o, ho⟩, -, h⟩ := bind_eq_ok.mp h
    dsimp only at h
    split at h
    · cases h
    · split at h
      · cases h
      · next small =>
        split at h
        · cases h
        · have hfits : w + o ≤ s := by
            rw [hs, hw, ho, ← twoPow_add] at small
            exact twoPow_le_iff.mp (Nat.le_of_not_lt small)
          have hsize : o + (s - w - o) + w = s := by omega
          rw [← Except.ok.inj h]
          exact ⟨WordWidth.bits_of_ofBits? hword, (congrArg twoPow hsize).trans hs.symm, hw.symm,
            ho.symm⟩

namespace Config

/-- What a hierarchy relies on. -/
structure Accepted (c : Config) (g : Geometries) : Prop where
  wordBits : g.l2.word.bits = c.general.wordBits.toNat
  memory : ∃ k, c.general.memoryBytes.toNat = twoPow k
  line_le : g.l2.lineBytes ≤ c.general.memoryBytes.toNat
  memory_le : c.general.memoryBytes.toNat ≤ addressSpace
  banks : ∃ k, c.dram.banks.toNat = twoPow k

theorem General.requireMemorySize_ok {c : General} {lineBytes : Nat}
    (h : c.requireMemorySize lineBytes = .ok ()) :
    (∃ k, c.memoryBytes.toNat = twoPow k) ∧ lineBytes ≤ c.memoryBytes.toNat
      ∧ c.memoryBytes.toNat ≤ addressSpace := by
  obtain ⟨k, -, h⟩ := bind_eq_ok.mp h
  exact ⟨⟨k.1, k.2⟩, requireRange_ok h⟩

/-- The bank bits lie above the line, the row above the bank bits, and every duration is a
positive number of at most 32 bits. -/
structure Dram.LaidOut (c : Dram) (offsetBits : Nat) : Prop where
  bankTop : ∃ k, c.banks.toNat = twoPow k ∧ offsetBits + k ≤ c.rowShift.toNat
  rowShift : c.rowShift.toNat < 32
  command : 1 ≤ c.commandCycles.toNat ∧ c.commandCycles.toNat < UInt32.size
  bankBusy : 1 ≤ c.bankBusyCycles.toNat ∧ c.bankBusyCycles.toNat < UInt32.size
  data : 1 ≤ c.dataCycles.toNat ∧ c.dataCycles.toNat < UInt32.size

theorem Dram.requireLayout_ok {c : Dram} {offsetBits : Nat}
    (h : c.requireLayout offsetBits = .ok ()) : c.LaidOut offsetBits := by
  have hduration : ∀ {field : String} {n : Nat},
      requireRange field n 1 (UInt32.size - 1) = .ok () → 1 ≤ n ∧ n < UInt32.size := by
    intro field n hn
    have hrange := requireRange_ok hn
    exact ⟨hrange.1, Nat.lt_of_le_pred (by decide) hrange.2⟩
  obtain ⟨⟨k, hk⟩, -, h⟩ := bind_eq_ok.mp h
  dsimp only at h
  split at h
  · cases h
  · obtain ⟨_, hrow, h⟩ := bind_eq_ok.mp h
    obtain ⟨_, hcommand, h⟩ := bind_eq_ok.mp h
    obtain ⟨_, hbank, hdata⟩ := bind_eq_ok.mp h
    have hrow := requireRange_ok hrow
    exact ⟨⟨k, hk, hrow.1⟩, Nat.lt_succ_of_le hrow.2, hduration hcommand, hduration hbank,
      hduration hdata⟩

/-- Every message takes a cycle at least. -/
structure Latencies.Positive (c : Latencies) : Prop where
  l2ToL1 : 1 ≤ c.l2ToL1.toNat
  l2ToMemory : 1 ≤ c.l2ToMemory.toNat
  memoryToL2 : 1 ≤ c.memoryToL2.toNat

theorem Latencies.requirePositive_ok {c : Latencies} (h : c.requirePositive = .ok ()) :
    c.Positive := by
  obtain ⟨_, hfirst, h⟩ := bind_eq_ok.mp h
  obtain ⟨_, hsecond, hthird⟩ := bind_eq_ok.mp h
  exact ⟨(requireRange_ok hfirst).1, (requireRange_ok hsecond).1, (requireRange_ok hthird).1⟩

/-- How the parts of a hierarchy fit together. -/
structure Fitted (c : Config) (g : Geometries) : Prop where
  word : ∀ kind, (g.l1.get kind).word = g.l2.word
  offsetBits : ∀ kind, (g.l1.get kind).offsetBits = g.l2.offsetBits
  missSlots : 1 ≤ c.missTracking.entries.toNat
  latencies : c.latencies.Positive
  dram : c.dram.LaidOut g.l2.offsetBits

/-- Every configuration that passes the checks is as a hierarchy relies on. -/
theorem validate_accepted {c : Config} {g : Geometries} (h : c.validate = .ok g) :
    Accepted c g := by
  obtain ⟨instruction, -, h⟩ := bind_eq_ok.mp h
  obtain ⟨data, -, h⟩ := bind_eq_ok.mp h
  obtain ⟨l2, hl2, h⟩ := bind_eq_ok.mp h
  obtain ⟨_, -, h⟩ := bind_eq_ok.mp h
  obtain ⟨_, hmemory, h⟩ := bind_eq_ok.mp h
  obtain ⟨_, -, h⟩ := bind_eq_ok.mp h
  obtain ⟨_, -, h⟩ := bind_eq_ok.mp h
  obtain ⟨_, hdram, h⟩ := bind_eq_ok.mp h
  obtain rfl := Except.ok.inj h
  obtain ⟨hpower, hle, hmost⟩ := General.requireMemorySize_ok hmemory
  obtain ⟨k, hk, -⟩ := (Dram.requireLayout_ok hdram).bankTop
  exact ⟨(Geometry.ofSizes?_ok hl2).wordBits, hpower, hle, hmost, ⟨k, hk⟩⟩

/-- Caches with words and lines of the same sizes cut addresses into the same blocks. -/
theorem CacheSizes.geometry_ok {sizes l2 : CacheSizes} {wordBits : UInt32} {g g₂ : Geometry}
    (h : sizes.geometry wordBits = .ok g) (h₂ : l2.geometry wordBits = .ok g₂)
    (hline : sizes.lineBytes = l2.lineBytes) : g.word = g₂.word ∧ g.offsetBits = g₂.offsetBits := by
  obtain ⟨hword, -, -, hbytes⟩ := Geometry.ofSizes?_ok h
  obtain ⟨hword₂, -, -, hbytes₂⟩ := Geometry.ofSizes?_ok h₂
  constructor
  · have hbits := hword.trans hword₂.symm
    generalize g.word = word at hbits ⊢
    generalize g₂.word = word₂ at hbits ⊢
    cases word <;> cases word₂ <;> simp_all [WordWidth.bits]
  · have hpowers : twoPow g.offsetBits = twoPow g₂.offsetBits := by
      rw [hline, ← hbytes₂] at hbytes
      exact hbytes
    exact twoPow_inj hpowers

/-- The parts of a hierarchy fit together if its configuration passes the checks. -/
theorem validate_fitted {c : Config} {g : Geometries} (h : c.validate = .ok g) : Fitted c g := by
  obtain ⟨instruction, hinstruction, h⟩ := bind_eq_ok.mp h
  obtain ⟨data, hdata, h⟩ := bind_eq_ok.mp h
  obtain ⟨l2, hl2, h⟩ := bind_eq_ok.mp h
  obtain ⟨_, hlines, h⟩ := bind_eq_ok.mp h
  obtain ⟨_, -, h⟩ := bind_eq_ok.mp h
  obtain ⟨_, hslots, h⟩ := bind_eq_ok.mp h
  obtain ⟨_, hlatencies, h⟩ := bind_eq_ok.mp h
  obtain ⟨_, hdram, h⟩ := bind_eq_ok.mp h
  obtain rfl := Except.ok.inj h
  rw [Caches.requireOneLineSize] at hlines
  split at hlines
  · next hsame =>
    have hfirst := CacheSizes.geometry_ok hinstruction hl2 hsame.1
    have hsecond := CacheSizes.geometry_ok hdata hl2 hsame.2
    refine ⟨?_, ?_, (requireRange_ok hslots).1, Latencies.requirePositive_ok hlatencies,
      Dram.requireLayout_ok hdram⟩
    · intro kind
      cases kind
      · exact hfirst.1
      · exact hsecond.1
    · intro kind
      cases kind
      · exact hfirst.2
      · exact hsecond.2
  · cases hlines

/-- All caches cut addresses into the same blocks. -/
theorem Fitted.locate_block {c : Config} {g : Geometries} (h : c.Fitted g) (kind : Kind) (a : Nat) :
    ((g.l1.get kind).locate a).block = (g.l2.locate a).block := by
  rw [Geometry.locate_block, Geometry.locate_block, Geometry.span, Geometry.span,
    Geometry.lineBytes, Geometry.lineBytes, h.word, h.offsetBits]

namespace Accepted

variable {c : Config} {g : Geometries}

/-- A machine word has the whole bytes of its bits. -/
theorem wordBytes_eq (h : c.Accepted g) : c.wordBytes = g.l2.word.bytes := by
  rw [wordBytes, ← h.wordBits, WordWidth.bits_eq, Nat.mul_div_cancel_left _ (by decide)]

theorem lineBytes_dvd (h : c.Accepted g) : g.l2.lineBytes ∣ c.general.memoryBytes.toNat := by
  obtain ⟨k, hk⟩ := h.memory
  have hle := h.line_le
  rw [hk] at hle ⊢
  exact twoPow_dvd (twoPow_le_iff.mp hle)

end Accepted

end Config

end MemoryHierarchy
