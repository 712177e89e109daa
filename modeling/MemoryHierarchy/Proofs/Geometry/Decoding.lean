import Mathlib.Data.Set.Function
import MemoryHierarchy.Proofs.Geometry.Fields

/-!
Tag and index number the lines of the addresses that a machine word can hold.

`locate` and `blockStart` are inverse to each other between the addresses of lines and the pairs of
a tag and an index (`locate_blockStart`), so two addresses have the same tag and index exactly if
they lie in the same line (`locate_eq_locate_iff`). Neither meets a step without a result when it is
done in 32-bit words.
-/

namespace MemoryHierarchy

namespace Geometry

variable (g : Geometry)

/-- How an address is cut: `place` names the line it lies in and its word there, less the bits that
a machine word drops. -/
structure CutsInto (a : Nat) (place : Location) : Prop where
  tag_lt : place.tag < twoPow g.tagBits
  index_lt : place.index < g.sets
  offset_eq : place.offset = a % g.span % g.lineBytes / g.word.bytes
  offset_lt : place.offset < g.wordsPerLine
  block_eq : place.block = a % g.span - a % g.span % g.lineBytes
  block_start : place.block = g.blockStart place.tag place.index

theorem cutsInto_locate (a : Nat) : g.CutsInto a (g.locate a) where
  tag_lt := locate_tag_lt a
  index_lt := locate_index_lt a
  offset_eq := by
    rw [Nat.mod_mod_of_dvd _ g.lineBytes_dvd_span]
    rfl
  offset_lt := locate_offset_lt a
  block_eq := by
    rw [locate_block, Nat.div_mul_self_eq_mod_sub_self]
  block_start := rfl

variable {g} {tag index : Nat}

/-- Whatever is put together is an address. -/
theorem blockStart_lt (g : Geometry) (tag index : Nat) :
    g.blockStart tag index < addressSpace := by
  have hlt (n : Nat) : n % addressSpace < 2 ^ 32 := Nat.mod_lt n (by decide)
  exact Nat.or_lt_two_pow (hlt _) (hlt _)

theorem blockStart_lt_span (ht : tag < twoPow g.tagBits) (hi : index < g.sets) :
    g.blockStart tag index < g.span :=
  Nat.lt_of_lt_of_le (Nat.lt_add_of_pos_right g.lineBytes_pos) (blockStart_le ht hi)

/-- The first byte of a block is cut into the tag and the index of the block. -/
theorem locate_blockStart (ht : tag < twoPow g.tagBits) (hi : index < g.sets) :
    g.locate (g.blockStart tag index)
      = { tag, index, offset := 0, block := g.blockStart tag index } := by
  have hdvd := blockStart_dvd ht hi
  have hblock : (g.locate (g.blockStart tag index)).block = g.blockStart tag index := by
    rw [locate_block, Nat.mod_eq_of_lt (blockStart_lt_span ht hi), Nat.div_mul_cancel hdvd]
  have hoffset : (g.locate (g.blockStart tag index)).offset = 0 := by
    show g.blockStart tag index % g.lineBytes / g.word.bytes = 0
    rw [Nat.mod_eq_zero_of_dvd hdvd, Nat.zero_div]
  obtain ⟨htag, hindex⟩ := (locate_eq_iff ht hi).mp hblock.symm
  exact Location.eq_of htag.symm hindex.symm hoffset hblock

/-- Tag and index tell lines apart, and nothing else. -/
theorem locate_eq_locate_iff (a b : Nat) :
    (g.locate a).tag = (g.locate b).tag ∧ (g.locate a).index = (g.locate b).index
      ↔ a % g.span / g.lineBytes = b % g.span / g.lineBytes := by
  rw [← locate_eq_iff (locate_tag_lt a) (locate_index_lt a)]
  show (g.locate a).block = (g.locate b).block ↔ _
  rw [locate_block, locate_block]
  exact Nat.mul_left_inj (Nat.ne_of_gt g.lineBytes_pos)

theorem locate_bijOn :
    Set.BijOn (fun a => ((g.locate a).tag, (g.locate a).index))
      { a | a < g.span ∧ g.lineBytes ∣ a } { p | p.1 < twoPow g.tagBits ∧ p.2 < g.sets } := by
  have hinverse : Set.InvOn (fun p : Nat × Nat => g.blockStart p.1 p.2)
      (fun a => ((g.locate a).tag, (g.locate a).index))
      { a | a < g.span ∧ g.lineBytes ∣ a } { p | p.1 < twoPow g.tagBits ∧ p.2 < g.sets } := by
    constructor
    · rintro a ⟨hlt, hdvd⟩
      show (g.locate a).block = a
      rw [locate_block, Nat.mod_eq_of_lt hlt, Nat.div_mul_cancel hdvd]
    · rintro ⟨tag, index⟩ ⟨ht, hi⟩
      show ((g.locate (g.blockStart tag index)).tag, (g.locate (g.blockStart tag index)).index) = _
      rw [locate_blockStart ht hi]
  apply hinverse.bijOn
  · intro a _
    exact ⟨locate_tag_lt a, locate_index_lt a⟩
  · rintro p ⟨ht, hi⟩
    exact ⟨blockStart_lt_span ht hi, blockStart_dvd ht hi⟩

/-- **Addresses and lines.** In 32-bit words every step of `locate` and `blockStart` has a result.
An address is cut into a tag, an index and a word of the line they stand for; each tag and index
stand for one line, and two addresses have them in common exactly if they lie in the same line. -/
theorem locate_bijective (g : Geometry) :
    (∀ address : UInt32, g.fields.locate? address = some (g.locate address.toNat))
      ∧ (∀ (tag : UInt32) (index : UInt64),
        (g.fields.blockStart? tag index).map UInt32.toNat
          = some (g.blockStart tag.toNat index.toNat))
      ∧ (∀ a, g.CutsInto a (g.locate a))
      ∧ (∀ tag index, tag < twoPow g.tagBits → index < g.sets →
        g.locate (g.blockStart tag index)
          = { tag, index, offset := 0, block := g.blockStart tag index })
      ∧ (∀ a b, (g.locate a).tag = (g.locate b).tag ∧ (g.locate a).index = (g.locate b).index
        ↔ a % g.span / g.lineBytes = b % g.span / g.lineBytes)
      ∧ Set.BijOn (fun a => ((g.locate a).tag, (g.locate a).index))
        { a | a < g.span ∧ g.lineBytes ∣ a } { p | p.1 < twoPow g.tagBits ∧ p.2 < g.sets } := by
  refine ⟨g.fields_locate?, ?_, g.cutsInto_locate, ?_, locate_eq_locate_iff, locate_bijOn⟩
  · intro tag index
    rw [fields_blockStart?, Option.map_some, UInt32.toNat_ofNat_of_lt' (g.blockStart_lt _ _)]
  · intro tag index ht hi
    exact locate_blockStart ht hi

end Geometry

end MemoryHierarchy
