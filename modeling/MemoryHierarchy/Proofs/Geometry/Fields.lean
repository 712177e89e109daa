import MemoryHierarchy.Proofs.Placement

/-!
Geometries in 32-bit words.

`Geometry` counts in natural numbers. `Geometry.Fields` is the same in 32-bit words, each size and
each width of a shift or mask a field of its own, with arithmetic that has no result where the
machine has none: a difference below zero, a quotient by zero, a product that overflows, a shift by
the whole width or more. On the fields of a geometry every step has a result, and the result is the
one in natural numbers: addresses are cut (`fields_locate?`) and put together (`fields_blockStart?`)
alike.
-/

namespace MemoryHierarchy

/-! ## Arithmetic that may have no result -/

namespace Checked

/-- The difference, unless it is negative. -/
def sub (a b : UInt32) : Option UInt32 := if b ≤ a then some (a - b) else none

@[inherit_doc sub]
def sub64 (a b : UInt64) : Option UInt64 := if b ≤ a then some (a - b) else none

/-- The product, if it fits. -/
def mul64 (a b : UInt64) : Option UInt64 :=
  if a.toNat * b.toNat < UInt64.size then some (a * b) else none

/-- The quotient, unless the divisor is zero. -/
def div (a b : UInt32) : Option UInt32 := if b = 0 then none else some (a / b)

/-- The word shifted down by less than its width. -/
def shiftRight (a width : UInt32) : Option UInt32 :=
  if width < 32 then some (a >>> width) else none

/-- The word shifted up by less than its width; bits pushed out are lost. -/
def shiftLeft (a width : UInt32) : Option UInt32 :=
  if width < 32 then some (a <<< width) else none

@[inherit_doc shiftLeft]
def shiftLeft64 (a : UInt64) (width : UInt32) : Option UInt64 :=
  if width < 64 then some (a <<< width.toUInt64) else none

/-- A word whose lowest `width` bits are ones. -/
def mask (width : UInt32) : Option UInt32 := do
  return (← sub64 (← shiftLeft64 1 width) 1).toUInt32

/-- The `width` bits of a word from bit `low` up. -/
def bits (a low width : UInt32) : Option UInt32 := do
  return (← shiftRight a low) &&& (← mask width)

theorem sub_eq {a b : UInt32} (h : b.toNat ≤ a.toNat) :
    sub a b = some (.ofNat (a.toNat - b.toNat)) := by
  have hle : b ≤ a := UInt32.le_iff_toNat_le.mpr h
  rw [sub, if_pos hle, ← UInt32.toNat_sub_of_le _ _ hle, UInt32.ofNat_toNat]

theorem sub64_eq {a b : UInt64} (h : b.toNat ≤ a.toNat) :
    sub64 a b = some (.ofNat (a.toNat - b.toNat)) := by
  have hle : b ≤ a := UInt64.le_iff_toNat_le.mpr h
  rw [sub64, if_pos hle, ← UInt64.toNat_sub_of_le _ _ hle, UInt64.ofNat_toNat]

/-- The product of two words of half the width fits. -/
theorem mul64_eq (a b : UInt32) :
    ∃ c, mul64 a.toUInt64 b.toUInt64 = some c ∧ c.toNat = a.toNat * b.toNat := by
  have hlt : a.toUInt64.toNat * b.toUInt64.toNat < UInt64.size :=
    Nat.mul_lt_mul'' a.toNat_lt b.toNat_lt
  rw [mul64, if_pos hlt]
  refine ⟨_, rfl, ?_⟩
  rw [UInt64.toNat_mul, Nat.mod_eq_of_lt hlt, UInt32.toNat_toUInt64, UInt32.toNat_toUInt64]

theorem div_eq {a b : UInt32} (h : 0 < b.toNat) : div a b = some (.ofNat (a.toNat / b.toNat)) := by
  have hne : b ≠ 0 := by
    rintro rfl
    exact Nat.lt_irrefl 0 h
  rw [div, if_neg hne, ← UInt32.toNat_div, UInt32.ofNat_toNat]

theorem shiftRight_eq {a width : UInt32} (h : width.toNat < 32) :
    shiftRight a width = some (.ofNat (a.toNat / twoPow width.toNat)) := by
  rw [shiftRight, if_pos (UInt32.lt_iff_toNat_lt.mpr h)]
  have hshift : (a >>> width).toNat = a.toNat / twoPow width.toNat := by
    rw [UInt32.toNat_shiftRight, Nat.mod_eq_of_lt h, Nat.shiftRight_eq_div_pow]
    rfl
  rw [← hshift, UInt32.ofNat_toNat]

theorem shiftLeft_eq {a width : UInt32} (h : width.toNat < 32) :
    shiftLeft a width = some (.ofNat (a.toNat <<< width.toNat)) := by
  rw [shiftLeft, if_pos (UInt32.lt_iff_toNat_lt.mpr h)]
  congr 1
  apply UInt32.toNat_inj.mp
  rw [UInt32.toNat_shiftLeft, Nat.mod_eq_of_lt h, UInt32.toNat_ofNat']

theorem shiftLeft64_eq {a : UInt64} {width : UInt32} (h : width.toNat < 64) :
    shiftLeft64 a width = some (.ofNat (a.toNat <<< width.toNat)) := by
  rw [shiftLeft64, if_pos (UInt32.lt_iff_toNat_lt.mpr h)]
  congr 1
  apply UInt64.toNat_inj.mp
  rw [UInt64.toNat_shiftLeft, UInt32.toNat_toUInt64, Nat.mod_eq_of_lt h, UInt64.toNat_ofNat']

theorem mask_eq {width : UInt32} (h : width.toNat ≤ 32) :
    mask width = some (.ofNat (twoPow width.toNat - 1)) := by
  have hshift : (1 : UInt64).toNat <<< width.toNat = twoPow width.toNat := Nat.one_shiftLeft _
  have hlt : twoPow width.toNat < 2 ^ 64 := twoPow_lt_iff.mpr (by omega)
  have hnat : (UInt64.ofNat (twoPow width.toNat)).toNat = twoPow width.toNat := by
    rw [UInt64.toNat_ofNat', Nat.mod_eq_of_lt hlt]
  have hsub : sub64 (.ofNat (twoPow width.toNat)) 1 = some (.ofNat (twoPow width.toNat - 1)) := by
    rw [sub64_eq (by rw [hnat]; exact twoPow_pos _), hnat]
    rfl
  rw [mask, shiftLeft64_eq (by omega), hshift, Option.bind_eq_bind, Option.bind_some, hsub]
  exact congrArg some (UInt64.toUInt32_ofNat' _)

theorem bits_eq {a low width : UInt32} (hlow : low.toNat < 32) (hwidth : width.toNat ≤ 32) :
    bits a low width = some (.ofNat (a.toNat / twoPow low.toNat % twoPow width.toNat)) := by
  have hand (n : Nat) : n &&& (twoPow width.toNat - 1) = n % twoPow width.toNat :=
    Nat.and_two_pow_sub_one_eq_mod n _
  rw [bits, shiftRight_eq hlow, mask_eq hwidth, ← hand, UInt32.ofNat_and]
  rfl

end Checked

/-! ## Geometries -/

/-- A geometry in 32-bit words: its sizes, and the place and width of each part of an address. -/
structure Geometry.Fields where
  wordBits : UInt32
  sizeBytes : UInt32
  ways : UInt32
  lineBytes : UInt32
  sets : UInt32
  offsetBits : UInt32
  indexBits : UInt32
  tagShift : UInt32
  tagBits : UInt32
  deriving Repr, DecidableEq

namespace Geometry.Fields

/-- The bytes of one machine word. -/
def wordBytes (f : Fields) : UInt32 := f.wordBits / 8

/-- The tag of an address. Without tag bits there is nothing to shift down to. -/
def tag? (f : Fields) (address : UInt32) : Option UInt32 :=
  if f.tagBits = 0 then some 0
  else Checked.bits address f.tagShift f.tagBits

/-- The set of an address. -/
def index? (f : Fields) (address : UInt32) : Option UInt32 :=
  Checked.bits address f.offsetBits f.indexBits

/-- The word of an address within its line. -/
def offset? (f : Fields) (address : UInt32) : Option UInt32 := do
  Checked.div (address &&& (← Checked.sub f.lineBytes 1)) f.wordBytes

/-- The address of the first byte of the block with this tag in this set. -/
def blockStart? (f : Fields) (tag : UInt32) (index : UInt64) : Option UInt32 := do
  let high ← Checked.shiftLeft64 tag.toUInt64 f.tagShift
  let low ← Checked.shiftLeft index.toUInt32 f.offsetBits
  return high.toUInt32 ||| low

/-- Cuts an address up. -/
def locate? (f : Fields) (address : UInt32) : Option Location := do
  let tag ← f.tag? address
  let index ← f.index? address
  let offset ← f.offset? address
  let block ← f.blockStart? tag index.toUInt64
  return {
    tag := tag.toNat
    index := index.toNat
    offset := offset.toNat
    block := block.toNat }

end Geometry.Fields

namespace Geometry

/-- The fields of a geometry. -/
def fields (g : Geometry) : Fields where
  wordBits := .ofNat g.word.bits
  sizeBytes := .ofNat g.sizeBytes
  ways := .ofNat g.ways
  lineBytes := .ofNat g.lineBytes
  sets := .ofNat g.sets
  offsetBits := .ofNat g.offsetBits
  indexBits := .ofNat g.indexBits
  tagShift := .ofNat g.tagShift
  tagBits := .ofNat g.tagBits

/-- The fields are those of a geometry, number by number. -/
structure Fields.Match (f : Fields) (g : Geometry) : Prop where
  wordBits : f.wordBits.toNat = g.word.bits
  sizeBytes : f.sizeBytes.toNat = g.sizeBytes
  ways : f.ways.toNat = g.ways
  lineBytes : f.lineBytes.toNat = g.lineBytes
  sets : f.sets.toNat = g.sets
  offsetBits : f.offsetBits.toNat = g.offsetBits
  indexBits : f.indexBits.toNat = g.indexBits
  tagShift : f.tagShift.toNat = g.tagShift
  tagBits : f.tagBits.toNat = g.tagBits

variable (g : Geometry)

/-- Every number of a geometry fits its word. -/
theorem fields_match : g.fields.Match g := by
  have hsize := g.size_lt
  have hbits := g.word.bits_le
  have hexponent : ∀ {k : Nat}, k ≤ 32 → (UInt32.ofNat k).toNat = k := by
    intro k hk
    exact UInt32.toNat_ofNat_of_lt' (Nat.lt_of_le_of_lt hk (by decide))
  have hpower : ∀ {k : Nat}, k < 32 → (UInt32.ofNat (twoPow k)).toNat = twoPow k := by
    intro k hk
    exact UInt32.toNat_ofNat_of_lt' (twoPow_lt_iff.mpr hk)
  exact {
    wordBits := hexponent hbits
    sizeBytes := hpower hsize
    ways := hpower (by omega)
    lineBytes := hpower (by omega)
    sets := hpower (by omega)
    offsetBits := hexponent (by omega)
    indexBits := hexponent (by omega)
    tagShift := hexponent (by rw [Geometry.tagShift]; omega)
    tagBits := hexponent (by rw [Geometry.tagBits]; omega) }

theorem fields_wordBytes : g.fields.wordBytes.toNat = g.word.bytes := by
  rw [Fields.wordBytes, UInt32.toNat_div, g.fields_match.wordBits, g.word.bits_eq]
  exact Nat.mul_div_cancel_left _ (by decide)

variable (address : UInt32)

theorem fields_tag? :
    g.fields.tag? address = some (.ofNat (g.locate address.toNat).tag) := by
  have hbits := g.word.bits_le
  have hfits := g.fields_match
  have hzero : g.fields.tagBits = 0 ↔ g.tagBits = 0 := by
    rw [← UInt32.toNat_inj, hfits.tagBits]
    rfl
  rw [Fields.tag?]
  split
  · next h =>
    have htag : (g.locate address.toNat).tag = 0 := by
      have hlt := locate_tag_lt (g := g) address.toNat
      rw [hzero.mp h] at hlt
      exact Nat.lt_one_iff.mp hlt
    rw [htag]
    rfl
  · next h =>
    have hpos : g.tagBits ≠ 0 := fun h' => h (hzero.mpr h')
    rw [tagBits] at hpos
    rw [Checked.bits_eq (by rw [hfits.tagShift]; omega)
      (by rw [hfits.tagBits, tagBits]; omega), hfits.tagShift, hfits.tagBits]
    rfl

theorem fields_index? :
    g.fields.index? address = some (.ofNat (g.locate address.toNat).index) := by
  have hsize := g.size_lt
  have hfits := g.fields_match
  rw [Fields.index?, Checked.bits_eq (by rw [hfits.offsetBits]; omega)
    (by rw [hfits.indexBits]; omega), hfits.offsetBits, hfits.indexBits]
  rfl

theorem fields_offset? :
    g.fields.offset? address = some (.ofNat (g.locate address.toNat).offset) := by
  have hfits := g.fields_match
  have hbytes := g.fields_wordBytes
  have hand (n : Nat) : n &&& (g.lineBytes - 1) = n % g.lineBytes :=
    Nat.and_two_pow_sub_one_eq_mod n _
  have hlast : (UInt32.ofNat (g.lineBytes - 1)).toNat = g.lineBytes - 1 := by
    have hlt := g.fields.lineBytes.toNat_lt
    rw [hfits.lineBytes] at hlt
    exact UInt32.toNat_ofNat_of_lt' (Nat.lt_of_le_of_lt (Nat.sub_le _ _) hlt)
  rw [Fields.offset?, Checked.sub_eq (by rw [hfits.lineBytes]; exact g.lineBytes_pos)]
  show Checked.div (address &&& .ofNat (g.fields.lineBytes.toNat - 1)) _ = _
  rw [Checked.div_eq (by rw [hbytes]; exact g.word.bytes_pos), hbytes, hfits.lineBytes,
    UInt32.toNat_and, hlast, hand]
  rfl

/-- Addresses are put together alike. -/
theorem fields_blockStart? (tag : UInt32) (index : UInt64) :
    g.fields.blockStart? tag index = some (.ofNat (g.blockStart tag.toNat index.toNat)) := by
  have hbits := g.word.bits_le
  have hsize := g.size_lt
  have hshift := g.tagShift_le
  have hfits := g.fields_match
  rw [Fields.blockStart?, Checked.shiftLeft64_eq (by rw [hfits.tagShift, tagShift]; omega),
    Checked.shiftLeft_eq (by rw [hfits.offsetBits]; omega), hfits.tagShift, hfits.offsetBits]
  show some (UInt64.toUInt32 (.ofNat _) ||| .ofNat _) = _
  rw [UInt64.toUInt32_ofNat', ← UInt32.ofNat_or, UInt32.toNat_toUInt64, UInt64.toNat_toUInt32]
  apply congrArg some
  apply UInt32.toNat_inj.mp
  have hsize : addressSpace = 2 ^ 32 := rfl
  rw [UInt32.toNat_ofNat', UInt32.toNat_ofNat', Nat.or_mod_two_pow, blockStart, Nat.or_mod_two_pow,
    hsize, Nat.mod_mod, Nat.mod_mod]

/-- Addresses are cut alike. -/
theorem fields_locate? : g.fields.locate? address = some (g.locate address.toNat) := by
  have hshift := g.tagShift_le
  have hfits : ∀ {n k : Nat}, n < twoPow k → k ≤ g.word.bits → (UInt32.ofNat n).toNat = n := by
    intro n k hn hk
    have hk32 : twoPow k ≤ addressSpace := twoPow_le_iff.mpr (Nat.le_trans hk g.word.bits_le)
    exact UInt32.toNat_ofNat_of_lt' (Nat.lt_of_lt_of_le hn hk32)
  have htag := hfits (g.locate_tag_lt address.toNat) (Nat.sub_le _ _)
  have hindex := hfits (g.locate_index_lt address.toNat) (by omega)
  have hoffset := hfits (Nat.lt_of_lt_of_le (g.locate_offset_lt address.toNat)
    (Nat.div_le_self g.lineBytes _)) (by omega)
  have hblock : (UInt32.ofNat (g.locate address.toNat).block).toNat = _ :=
    hfits (Nat.lt_of_lt_of_le (Nat.lt_add_of_pos_right g.lineBytes_pos)
      (g.locate_block_le address.toNat)) (Nat.le_refl _)
  rw [Fields.locate?, fields_tag?, fields_index?, fields_offset?]
  simp only [Option.bind_eq_bind, Option.bind_some, fields_blockStart?, UInt32.toNat_toUInt64,
    htag, hindex, hoffset]
  exact congrArg some (Location.eq_of rfl rfl rfl hblock)

end Geometry

end MemoryHierarchy
