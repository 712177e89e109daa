import MemoryHierarchy.Geometry

/-!
Where blocks lie.

Tag and index of an address are the digits of its line number, and `blockStart` reads them back:
block `tag`, `index` is line `tag * sets + index` of the addresses that a machine word can hold
(`blockStart_eq`). So blocks of different tag or index share no byte (`blockStart_inj`), and an
address lies in the block that `locate` names (`locate_block`, `locate_word`), up to the bits
that a machine word drops.
-/

namespace MemoryHierarchy

namespace WordWidth

theorem bytes_eq_twoPow (w : WordWidth) : ∃ k, w.bytes = twoPow k := by
  cases w
  · exact ⟨0, rfl⟩
  · exact ⟨1, rfl⟩
  · exact ⟨2, rfl⟩

theorem bytes_pos (w : WordWidth) : 0 < w.bytes := by cases w <;> decide

theorem bits_le (w : WordWidth) : w.bits ≤ 32 := by cases w <;> decide

end WordWidth

theorem twoPow_dvd {j k : Nat} (h : j ≤ k) : twoPow j ∣ twoPow k := Nat.pow_dvd_pow 2 h

namespace Geometry

variable (g : Geometry)

/-- The number of addresses that a machine word can hold. -/
def span : Nat := twoPow g.word.bits

theorem lineBytes_pos : 0 < g.lineBytes := twoPow_pos _

theorem sets_pos : 0 < g.sets := twoPow_pos _

theorem ways_pos : 0 < g.ways := twoPow_pos _

theorem span_pos : 0 < g.span := twoPow_pos _

theorem span_le : g.span ≤ addressSpace := twoPow_le_iff.mpr g.word.bits_le

theorem bytes_dvd_lineBytes : g.word.bytes ∣ g.lineBytes := by
  obtain ⟨k, hk⟩ := g.word.bytes_eq_twoPow
  have hle := g.bytes_le
  rw [hk] at hle ⊢
  exact twoPow_dvd (twoPow_le_iff.mp hle)

theorem span_eq : g.span = g.lineBytes * (g.sets * twoPow g.tagBits) := by
  have := g.tagShift_le
  rw [span, lineBytes, sets, tagBits, tagShift, ← twoPow_add, ← twoPow_add]
  congr 1
  omega

theorem lineBytes_dvd_span : g.lineBytes ∣ g.span := ⟨_, g.span_eq⟩

theorem bytes_dvd_span : g.word.bytes ∣ g.span :=
  Nat.dvd_trans g.bytes_dvd_lineBytes g.lineBytes_dvd_span

theorem lineBytes_eq : g.lineBytes = g.word.bytes * g.wordsPerLine :=
  (Nat.mul_div_cancel' g.bytes_dvd_lineBytes).symm

/-- All lines of a cache are fewer than 64 bits can count. -/
theorem sets_mul_ways_lt : g.sets * g.ways < UInt64.size := by
  have := g.size_lt
  rw [sets, ways, ← twoPow_add]
  have h64 : UInt64.size = twoPow 64 := rfl
  rw [h64]
  exact twoPow_lt_iff.mpr (by omega)

/-! ## Blocks -/

variable {g} {tag tag' index index' a : Nat}

/-- The line number of a block. -/
theorem blockStart_eq (ht : tag < twoPow g.tagBits) (hi : index < g.sets) :
    g.blockStart tag index = (tag * g.sets + index) * g.lineBytes := by
  have hspan := g.span_le
  have hlt : (tag * g.sets + index) * g.lineBytes < g.span := by
    rw [span_eq, Nat.mul_comm]
    apply Nat.mul_lt_mul_of_pos_left _ g.lineBytes_pos
    calc tag * g.sets + index < (tag + 1) * g.sets := by rw [Nat.succ_mul]; omega
      _ ≤ twoPow g.tagBits * g.sets := Nat.mul_le_mul_right _ ht
      _ = g.sets * twoPow g.tagBits := Nat.mul_comm _ _
  have htag : tag <<< g.tagShift = tag * g.sets * g.lineBytes := by
    rw [Nat.shiftLeft_eq, Nat.mul_assoc, tagShift, Nat.pow_add, Nat.mul_comm (2 ^ _)]
    rfl
  have hindex : index <<< g.offsetBits = index * g.lineBytes := Nat.shiftLeft_eq _ _
  have hlow : index * g.lineBytes < 2 ^ g.tagShift := by
    rw [tagShift, Nat.pow_add, Nat.mul_comm (2 ^ _)]
    exact Nat.mul_lt_mul_of_pos_right hi g.lineBytes_pos
  rw [Nat.add_mul] at hlt ⊢
  have hi32 : index < addressSpace :=
    Nat.lt_of_le_of_lt (Nat.le_mul_of_pos_right _ g.lineBytes_pos) (by omega)
  -- Neither part loses a bit to the address, and they share none.
  rw [blockStart, Nat.mod_eq_of_lt hi32, hindex, htag, Nat.mod_eq_of_lt (by omega),
    Nat.mod_eq_of_lt (by omega), ← htag, Nat.shiftLeft_add_eq_or_of_lt hlow]

theorem blockStart_dvd (ht : tag < twoPow g.tagBits) (hi : index < g.sets) :
    g.lineBytes ∣ g.blockStart tag index := by
  rw [blockStart_eq ht hi]
  exact Nat.dvd_mul_left _ _

theorem blockStart_le (ht : tag < twoPow g.tagBits) (hi : index < g.sets) :
    g.blockStart tag index + g.lineBytes ≤ g.span := by
  rw [blockStart_eq ht hi, ← Nat.succ_mul, span_eq, Nat.mul_comm]
  apply Nat.mul_le_mul_left
  calc tag * g.sets + index + 1 ≤ (tag + 1) * g.sets := by rw [Nat.succ_mul]; omega
    _ ≤ twoPow g.tagBits * g.sets := Nat.mul_le_mul_right _ ht
    _ = g.sets * twoPow g.tagBits := Nat.mul_comm _ _

theorem blockStart_inj (ht : tag < twoPow g.tagBits) (hi : index < g.sets)
    (ht' : tag' < twoPow g.tagBits) (hi' : index' < g.sets)
    (h : g.blockStart tag index = g.blockStart tag' index') : tag = tag' ∧ index = index' := by
  rw [blockStart_eq ht hi, blockStart_eq ht' hi'] at h
  have h := Nat.eq_of_mul_eq_mul_right g.lineBytes_pos h
  rw [Nat.mul_comm tag, Nat.mul_comm tag'] at h
  have hmod := congrArg (· % g.sets) h
  have hdiv := congrArg (· / g.sets) h
  simp only [Nat.mul_add_mod, Nat.mod_eq_of_lt hi, Nat.mod_eq_of_lt hi',
    Nat.mul_add_div g.sets_pos, Nat.div_eq_of_lt hi, Nat.div_eq_of_lt hi', Nat.add_zero]
    at hmod hdiv
  exact ⟨hdiv, hmod⟩

/-! ## Addresses -/

theorem locate_tag_lt (a : Nat) : (g.locate a).tag < twoPow g.tagBits :=
  Nat.mod_lt _ (twoPow_pos _)

theorem locate_index_lt (a : Nat) : (g.locate a).index < g.sets := Nat.mod_lt _ (twoPow_pos _)

theorem locate_offset_lt (a : Nat) : (g.locate a).offset < g.wordsPerLine := by
  apply Nat.div_lt_of_lt_mul
  rw [← lineBytes_eq]
  exact Nat.mod_lt _ g.lineBytes_pos

/-- The block of an address starts at the last multiple of the line size. -/
theorem locate_block (a : Nat) :
    (g.locate a).block = a % g.span / g.lineBytes * g.lineBytes := by
  have hblock : (g.locate a).block = g.blockStart (g.locate a).tag (g.locate a).index := rfl
  have htag : (g.locate a).tag = a / g.lineBytes / g.sets % twoPow g.tagBits := by
    rw [Nat.div_div_eq_div_mul, lineBytes, sets, ← twoPow_add]
    rfl
  have hindex : (g.locate a).index = a / g.lineBytes % g.sets := rfl
  rw [hblock, blockStart_eq (locate_tag_lt a) (locate_index_lt a), htag, hindex, span_eq,
    Nat.mod_mul_right_div_self, Nat.mod_mul, Nat.mul_comm _ g.sets, Nat.add_comm]

/-- The word of an address is the word at its offset in its block. -/
theorem locate_word (a : Nat) :
    (g.locate a).block / g.word.bytes + (g.locate a).offset = a % g.span / g.word.bytes := by
  have hoffset : (g.locate a).offset = a % g.span % g.lineBytes / g.word.bytes := by
    rw [Nat.mod_mod_of_dvd _ g.lineBytes_dvd_span]
    rfl
  rw [locate_block, hoffset]
  generalize a % g.span = x
  -- A line is `n` words, so the words before the line are a multiple of `n`.
  obtain ⟨n, hn⟩ := g.bytes_dvd_lineBytes
  have hb := g.word.bytes_pos
  rw [hn]
  calc x / (g.word.bytes * n) * (g.word.bytes * n) / g.word.bytes
        + x % (g.word.bytes * n) / g.word.bytes
      = n * (x / (g.word.bytes * n)) + x % (g.word.bytes * n) / g.word.bytes := by
        rw [Nat.mul_comm, Nat.mul_assoc, Nat.mul_div_cancel_left _ hb]
    _ = (g.word.bytes * (n * (x / (g.word.bytes * n))) + x % (g.word.bytes * n))
          / g.word.bytes := by rw [Nat.mul_add_div hb]
    _ = x / g.word.bytes := by rw [← Nat.mul_assoc, Nat.div_add_mod]

theorem locate_block_le (a : Nat) : (g.locate a).block + g.lineBytes ≤ g.span :=
  blockStart_le (locate_tag_lt a) (locate_index_lt a)

theorem locate_block_dvd (a : Nat) : g.lineBytes ∣ (g.locate a).block :=
  blockStart_dvd (locate_tag_lt a) (locate_index_lt a)

/-- The block of the first byte of a block is that block. -/
theorem locate_locate_block (a : Nat) :
    (g.locate (g.locate a).block).block = (g.locate a).block := by
  have hlt : (g.locate a).block < g.span := by
    have := g.locate_block_le a
    have := g.lineBytes_pos
    omega
  rw [locate_block (g.locate a).block, Nat.mod_eq_of_lt hlt,
    Nat.div_mul_cancel (locate_block_dvd a)]

/-- Tag and index of an address are those of its block. -/
theorem locate_eq_iff (ht : tag < twoPow g.tagBits) (hi : index < g.sets) :
    g.blockStart tag index = (g.locate a).block ↔
      tag = (g.locate a).tag ∧ index = (g.locate a).index := by
  constructor
  · exact fun h => blockStart_inj ht hi (locate_tag_lt a) (locate_index_lt a) h
  · intro h
    rw [h.1, h.2]
    rfl

/-- The first byte of a block lies where any other byte of it does, but at the first word. -/
theorem locate_locate (a : Nat) :
    g.locate (g.locate a).block = { g.locate a with offset := 0 } := by
  have hplace := (locate_eq_iff (locate_tag_lt _) (locate_index_lt _)).mp
    (locate_locate_block (g := g) a)
  have hoffset : (g.locate (g.locate a).block).offset = 0 := by
    obtain ⟨n, hn⟩ := locate_block_dvd (g := g) a
    show (g.locate a).block % g.lineBytes / g.word.bytes = 0
    rw [hn, Nat.mul_mod_right, Nat.zero_div]
  exact Location.eq_of hplace.1 hplace.2 hoffset (locate_locate_block a)

/-! ## Words -/

/-- The position of the word of an address among all words. -/
def wordIndex (g : Geometry) (a : Nat) : Nat := a % g.span / g.word.bytes

/-- The first byte of the block that the word at position `j` belongs to. -/
def home (g : Geometry) (j : Nat) : Nat := j / g.wordsPerLine * g.lineBytes

theorem wordsPerLine_pos : 0 < g.wordsPerLine := Nat.div_pos g.bytes_le g.word.bytes_pos

/-- A line has no more words than there are addresses. -/
theorem wordsPerLine_le : g.wordsPerLine ≤ addressSpace :=
  calc g.wordsPerLine ≤ g.lineBytes := Nat.div_le_self _ _
    _ ≤ g.span := Nat.le_of_dvd g.span_pos g.lineBytes_dvd_span
    _ ≤ addressSpace := g.span_le

theorem home_dvd (j : Nat) : g.lineBytes ∣ g.home j := Nat.dvd_mul_left _ _

theorem home_word (j : Nat) : g.home j / g.word.bytes + j % g.wordsPerLine = j := by
  rw [home, lineBytes_eq, Nat.mul_left_comm, Nat.mul_div_cancel_left _ g.word.bytes_pos,
    Nat.mul_comm, Nat.div_add_mod]

/-- The words of a block are those at the positions from its first one on. -/
theorem home_eq_iff {block j : Nat} (hd : g.lineBytes ∣ block) :
    g.home j = block
      ↔ block / g.word.bytes ≤ j ∧ j < block / g.word.bytes + g.wordsPerLine := by
  constructor
  · intro h
    subst h
    have hw := g.home_word j
    have hlt := Nat.mod_lt j g.wordsPerLine_pos
    omega
  · intro h
    obtain ⟨hle, hlt⟩ := h
    obtain ⟨n, rfl⟩ := hd
    have hn : g.lineBytes * n / g.word.bytes = g.wordsPerLine * n := by
      rw [lineBytes_eq, Nat.mul_assoc, Nat.mul_div_cancel_left _ g.word.bytes_pos]
    rw [hn] at hle hlt
    have hdiv : j / g.wordsPerLine = n := by
      apply Nat.div_eq_of_lt_le
      · rw [Nat.mul_comm]; exact hle
      · rw [Nat.succ_mul, Nat.mul_comm n]; exact hlt
    rw [home, hdiv, Nat.mul_comm]

theorem home_wordIndex (a : Nat) : g.home (g.wordIndex a) = (g.locate a).block := by
  have hw : (g.locate a).block / g.word.bytes + (g.locate a).offset = g.wordIndex a :=
    locate_word a
  have ho := g.locate_offset_lt a
  rw [home_eq_iff (locate_block_dvd a)]
  omega

theorem wordIndex_mod (a : Nat) : g.wordIndex a % g.wordsPerLine = (g.locate a).offset := by
  have hw : (g.locate a).block / g.word.bytes + (g.locate a).offset = g.wordIndex a :=
    locate_word a
  have hh := g.home_word (g.wordIndex a)
  rw [home_wordIndex] at hh
  omega

/-! ## Memories of whole lines -/

theorem locate_block_le_self (a : Nat) : (g.locate a).block ≤ a % g.span := by
  rw [locate_block]
  exact Nat.div_mul_le_self _ _

/-- A block that starts inside a memory of whole lines lies inside it. -/
theorem add_lineBytes_le {block size : Nat} (hd : g.lineBytes ∣ block) (hs : g.lineBytes ∣ size)
    (h : block < size) : block + g.lineBytes ≤ size := by
  obtain ⟨m, rfl⟩ := hd
  obtain ⟨n, rfl⟩ := hs
  rw [← Nat.mul_succ]
  exact Nat.mul_le_mul_left _ (Nat.lt_of_mul_lt_mul_left h)

end Geometry

end MemoryHierarchy
