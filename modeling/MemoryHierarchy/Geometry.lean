import MemoryHierarchy.Address
import MemoryHierarchy.Config.Error

/-!
The geometry of a set-associative cache, and how it cuts up an address.

All sizes are powers of two, so a geometry is three exponents and a word width. An address
`... | tag | index | offset` is cut at bit `offsetBits` (the bytes of one line) and at bit
`offsetBits + indexBits` (the bytes of one way); bits from the word width up are dropped.
`locate` cuts an address, `blockStart` puts tag and index together again.
-/

namespace MemoryHierarchy

/-- The width of a machine word. -/
inductive WordWidth where
  | w8
  | w16
  | w32
  deriving Repr, DecidableEq, Inhabited

namespace WordWidth

/-- The width in bits. -/
def bits : WordWidth → Nat
  | w8 => 8
  | w16 => 16
  | w32 => 32

/-- The width in bytes. -/
def bytes : WordWidth → Nat
  | w8 => 1
  | w16 => 2
  | w32 => 4

/-- The word of so many bits. -/
def ofBits? : Nat → Option WordWidth
  | 8 => some w8
  | 16 => some w16
  | 32 => some w32
  | _ => none

theorem bits_of_ofBits? {n : Nat} {w : WordWidth} (h : ofBits? n = some w) : w.bits = n := by
  unfold ofBits? at h
  split at h <;> first | (cases h; rfl) | contradiction

theorem bits_eq (w : WordWidth) : w.bits = 8 * w.bytes := by cases w <;> rfl

end WordWidth

/-- The shape of a cache. A line holds at least one word, a way leaves no bits above the word,
and the whole cache is smaller than the address space. -/
structure Geometry where
  word : WordWidth
  /-- A line has `twoPow offsetBits` bytes. -/
  offsetBits : Nat
  /-- The cache has `twoPow indexBits` sets. -/
  indexBits : Nat
  /-- A set has `twoPow wayBits` ways. -/
  wayBits : Nat
  bytes_le : word.bytes ≤ twoPow offsetBits
  tagShift_le : offsetBits + indexBits ≤ word.bits
  size_lt : offsetBits + indexBits + wayBits < 32
  deriving Repr, DecidableEq

/-- Where an address belongs. -/
structure Location where
  /-- What tells the blocks of one set apart. -/
  tag : Nat
  /-- The set. -/
  index : Nat
  /-- The word within the line. -/
  offset : Nat
  /-- The address of the first byte of the line. -/
  block : Nat
  deriving Repr, DecidableEq

theorem Location.eq_of {p q : Location} (htag : p.tag = q.tag) (hindex : p.index = q.index)
    (hoffset : p.offset = q.offset) (hblock : p.block = q.block) : p = q := by
  cases p
  cases q
  rw [mk.injEq]
  exact ⟨htag, hindex, hoffset, hblock⟩

namespace Geometry

/-- The bytes of one line. -/
def lineBytes (g : Geometry) : Nat := twoPow g.offsetBits

/-- The number of sets. -/
def sets (g : Geometry) : Nat := twoPow g.indexBits

/-- The lines of one set. -/
def ways (g : Geometry) : Nat := twoPow g.wayBits

/-- The bytes of the whole cache. -/
def sizeBytes (g : Geometry) : Nat := twoPow (g.offsetBits + g.indexBits + g.wayBits)

/-- The words of one line. -/
def wordsPerLine (g : Geometry) : Nat := g.lineBytes / g.word.bytes

/-- The lowest bit of the tag. -/
def tagShift (g : Geometry) : Nat := g.offsetBits + g.indexBits

/-- The width of the tag. -/
def tagBits (g : Geometry) : Nat := g.word.bits - g.tagShift

/-- The geometry with these sizes. A cache given by sizes that fit together is accepted; of
several faults the first in the order of the checks is reported. -/
def ofSizes? (wordBits sizeBytes ways lineBytes : UInt32) : Except ConfigError Geometry :=
  match WordWidth.ofBits? wordBits.toNat with
  | none => .error (.outOfRange "word_bits" wordBits.toNat 8 32)
  | some word => do
    let ⟨s, hs⟩ ← requirePowerOfTwo "size_bytes" sizeBytes.toNat
    let ⟨w, hw⟩ ← requirePowerOfTwo "ways" ways.toNat
    let ⟨o, ho⟩ ← requirePowerOfTwo "line_bytes" lineBytes.toNat
    if narrow : lineBytes.toNat < word.bytes then
      .error (.lineSmallerThanWord lineBytes.toNat word.bytes)
    else if small : sizeBytes.toNat < ways.toNat * lineBytes.toNat then
      .error (.geometryTooSmall sizeBytes.toNat ways.toNat lineBytes.toNat)
    else if wide : word.bits < s - w then
      .error (.wayExceedsAddressSpace (sizeBytes.toNat / ways.toNat) word.bits)
    else
      have fits : w + o ≤ s := by
        rw [hs, hw, ho, ← twoPow_add] at small
        exact twoPow_le_iff.mp (Nat.le_of_not_lt small)
      have below : s < 32 := by
        have := sizeBytes.toNat_lt
        rw [hs] at this
        exact twoPow_lt_iff.mp this
      .ok {
        word, offsetBits := o, indexBits := s - w - o, wayBits := w
        bytes_le := by rw [← ho]; exact Nat.le_of_not_lt narrow
        tagShift_le := by omega
        size_lt := by omega }

/-- The address of the first byte of the block with this tag in this set. -/
def blockStart (g : Geometry) (tag index : Nat) : Nat :=
  (tag <<< g.tagShift) % addressSpace
    ||| ((index % addressSpace) <<< g.offsetBits) % addressSpace

/-- Cuts an address up. -/
def locate (g : Geometry) (address : Nat) : Location :=
  let tag := address / twoPow g.tagShift % twoPow g.tagBits
  let index := address / twoPow g.offsetBits % twoPow g.indexBits
  { tag, index
    offset := address % twoPow g.offsetBits / g.word.bytes
    block := g.blockStart tag index }

end Geometry

end MemoryHierarchy
