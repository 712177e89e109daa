import MemoryHierarchy.Proofs.MemoryWords

/-!
One copy against many writes.

`load` checks a range once and copies it, `writeBlock` checks each word that it writes. In a memory
that lies within the addresses, both go through for the ranges that lie in the memory
(`HasRange`), and both put the words there (`load_eq_ok`, `writeBlock_eq_ok`), up to `addressSpace`
words. The index of a later word is cut and starts again at the first one, so that a longer block
can be written, though not loaded, where every address has a word of its own
(`writeBlock_long_iff`).
-/

namespace MemoryHierarchy.Memory

variable {m m' : Memory} {step a count i : Nat} {words : List Word}

/-! ## Ranges in memory -/

theorem size_le_sizeBytes (m : Memory) : m.words.size ≤ m.sizeBytes :=
  Nat.le_mul_of_pos_right _ m.wordBytes_pos

/-- `count` words from address `a` on lie in the memory. -/
structure HasRange (m : Memory) (a count : Nat) : Prop where
  aligned : m.wordBytes ∣ a
  inside : a / m.wordBytes + count ≤ m.words.size

theorem load_eq_ok (hne : words ≠ []) :
    m.load a words = .ok m' ↔
      m.HasRange a words.length ∧ m' = m.put (a / m.wordBytes) words := by
  rw [load]
  constructor
  · intro h
    obtain ⟨i, hi, h⟩ := bind_eq_ok.mp h
    obtain ⟨haligned, hposition⟩ := position_eq_ok.mp hi
    split at h
    · next hinside =>
      rw [← hposition] at hinside h
      exact ⟨⟨Nat.dvd_of_mod_eq_zero haligned, hinside⟩, (Except.ok.inj h).symm⟩
    · cases h
  · rintro ⟨⟨haligned, hinside⟩, rfl⟩
    have hpos : 0 < words.length := List.length_pos_iff.mpr hne
    have hposition : m.position a = .ok ⟨a / m.wordBytes, by omega⟩ :=
      position_eq_ok.mpr ⟨Nat.mod_eq_zero_of_dvd haligned, rfl⟩
    exact bind_eq_ok.mpr ⟨_, hposition, if_pos hinside⟩

/-- Where all words can be written, the last one lies in the memory. -/
theorem hasRange_of_writeFrom : ∀ {words : List Word} {m m' : Memory} {i : Nat}, words ≠ [] →
    i + words.length ≤ addressSpace → m.writeFrom m.wordBytes a i words = .ok m' →
    m.HasRange (a + i * m.wordBytes) words.length
  | [], _, _, _, hne, _, _ => absurd rfl hne
  | word :: rest, m, m', i, _, hcount, h => by
    rw [List.length_cons] at hcount
    obtain ⟨x, hx, h⟩ := bind_eq_ok.mp h
    obtain ⟨-, rfl⟩ := (wordAddress_eq_ok (by omega)).mp hx
    obtain ⟨m₁, hfirst, hrest⟩ := bind_eq_ok.mp h
    rw [writeWord] at hfirst
    obtain ⟨j, hj, hm₁⟩ := bind_eq_ok.mp hfirst
    obtain rfl := Except.ok.inj hm₁
    obtain ⟨haligned, hposition⟩ := position_eq_ok.mp hj
    refine ⟨Nat.dvd_of_mod_eq_zero haligned, ?_⟩
    -- How far the range reaches is known only where its last word is written.
    cases rest with
    | nil =>
      rw [hposition]
      exact j.isLt
    | cons next rest =>
      have hinside := (hasRange_of_writeFrom (List.cons_ne_nil _ _) (by omega) hrest).inside
      simp only [Array.size_set, Nat.succ_mul, ← Nat.add_assoc,
        Nat.add_div_right _ m.wordBytes_pos] at hinside
      rw [List.length_cons]
      omega

theorem hasRange_of_writeBlock (hne : words ≠ []) (hcount : words.length ≤ addressSpace)
    (h : m.writeBlock a words = .ok m') : m.HasRange a words.length := by
  have hrange := hasRange_of_writeFrom hne (by omega) h
  rwa [Nat.zero_mul, Nat.add_zero] at hrange

namespace HasRange

theorem start_mul (h : m.HasRange a count) : a / m.wordBytes * m.wordBytes = a :=
  Nat.div_mul_cancel h.aligned

/-- The range ends within the addresses if the memory does. -/
theorem space (h : m.HasRange a count) (hspace : m.sizeBytes ≤ addressSpace) :
    (a / m.wordBytes + count) * m.wordBytes ≤ addressSpace :=
  Nat.le_trans (Nat.mul_le_mul_right _ h.inside) hspace

/-- A memory within the addresses has at most as many words as there are addresses. -/
theorem count_le (h : m.HasRange a count) (hspace : m.sizeBytes ≤ addressSpace) :
    count ≤ addressSpace :=
  calc count ≤ m.words.size := Nat.le_trans (Nat.le_add_left _ _) h.inside
    _ ≤ m.sizeBytes := m.size_le_sizeBytes
    _ ≤ addressSpace := hspace

theorem writeBlock (h : m.HasRange a words.length) (hspace : m.sizeBytes ≤ addressSpace) :
    m.writeBlock a words = .ok (m.put (a / m.wordBytes) words) := by
  have hwrite := writeWords_eq words h.inside (h.space hspace)
  rwa [h.start_mul] at hwrite

/-- No word of the range has an address that needs more than 32 bits. -/
theorem wordAddress (h : m.HasRange a count) (hspace : m.sizeBytes ≤ addressSpace)
    (hi : i < count) : wordAddress m.wordBytes a i = .ok (a + i * m.wordBytes) := by
  obtain ⟨rest, rfl⟩ := Nat.exists_eq_add_of_le (Nat.le_of_lt hi)
  have hend := h.space hspace
  rw [← Nat.add_assoc] at hend
  have haddress := wordAddress_position (by omega) hend
  rwa [Nat.add_mul, h.start_mul] at haddress

end HasRange

theorem writeBlock_eq_ok (hspace : m.sizeBytes ≤ addressSpace) (hne : words ≠ [])
    (hcount : words.length ≤ addressSpace) : m.writeBlock a words = .ok m' ↔
      m.HasRange a words.length ∧ m' = m.put (a / m.wordBytes) words := by
  constructor
  · intro h
    have hrange := hasRange_of_writeBlock hne hcount h
    rw [hrange.writeBlock hspace] at h
    exact ⟨hrange, (Except.ok.inj h).symm⟩
  · rintro ⟨hrange, rfl⟩
    exact hrange.writeBlock hspace

/-! ## Words that have been put down -/

theorem slice_put {start : Nat} (h : start + words.length ≤ m.words.size) :
    (m.put start words).slice start words.length = words := by
  apply List.ext_getElem?
  intro i
  rw [getElem?_slice, getElem?_put h]
  split
  · rw [if_pos (by omega), Nat.add_sub_cancel_left]
  · rw [List.getElem?_eq_none (by omega)]

/-- What a load makes of a memory `m`. -/
structure Loaded (m : Memory) (a : Nat) (words : List Word) (m' : Memory) : Prop where
  wordBytes : m'.wordBytes = m.wordBytes
  size : m'.words.size = m.words.size
  block : m'.readBlock a words.length = .ok words
  outside : ∀ i, i < a / m.wordBytes ∨ a / m.wordBytes + words.length ≤ i →
    m'.words[i]? = m.words[i]?
  /-- Every block that is read, this one and others, has the words that are read one by one. -/
  reads : ∀ b count result, m'.readBlock b count = .ok result ↔ result.length = count
    ∧ ∀ i (hi : i < result.length),
      ∃ x, wordAddress m.wordBytes b i = .ok x ∧ m'.readWord x = .ok result[i]
  /-- No address needs more than 32 bits. -/
  address : ∀ i < words.length, wordAddress m.wordBytes a i = .ok (a + i * m.wordBytes)

theorem HasRange.loaded (h : m.HasRange a words.length) (hspace : m.sizeBytes ≤ addressSpace) :
    m.Loaded a words (m.put (a / m.wordBytes) words) := by
  have hblock : (m.put (a / m.wordBytes) words).readBlock a words.length = .ok words := by
    have hinside : a / m.wordBytes + words.length
        ≤ (m.put (a / m.wordBytes) words).words.size := by
      rw [put, size_putWords]
      exact h.inside
    have hread := readWords_eq hinside (h.space hspace)
    rwa [slice_put h.inside, put_wordBytes, h.start_mul] at hread
  refine ⟨rfl, size_putWords _ _ _, hblock, ?_, fun _ _ _ => readWords_eq_ok, ?_⟩
  · intro i hi
    rw [getElem?_put h.inside, if_neg (by omega)]
  · exact fun i hi => h.wordAddress hspace hi

/-! ## Longer blocks -/

/-- The words of a block are written one part after the other. -/
theorem writeFrom_append (second : List Word) : ∀ (first : List Word) (m : Memory) (i : Nat),
    m.writeFrom step a i (first ++ second) = m.writeFrom step a i first >>= fun m₁ =>
      m₁.writeFrom step a (i + first.length) second
  | [], _, _ => rfl
  | word :: rest, m, i => by
    rw [List.cons_append, writeFrom, writeFrom, bind_assoc]
    apply bind_congr
    intro x
    rw [bind_assoc]
    apply bind_congr
    intro m₁
    rw [writeFrom_append second rest m₁ (i + 1), List.length_cons, Nat.add_right_comm,
      Nat.add_assoc]

/-- Every address has a word of its own. -/
structure WordPerAddress (m : Memory) : Prop where
  wordBytes : m.wordBytes = 1
  size : m.words.size = addressSpace

namespace WordPerAddress

/-- The index that is cut is the address. -/
theorem wordAddress_lt (i : Nat) :
    i % addressSpace < addressSpace ∧ wordAddress 1 0 i = .ok (i % addressSpace) := by
  have hlt : i % addressSpace < addressSpace := Nat.mod_lt _ (by decide)
  refine ⟨hlt, ?_⟩
  rw [wordAddress, Nat.mul_one, if_pos hlt, offsetAddress_eq_ok, Nat.zero_add]
  exact ⟨hlt, rfl⟩

theorem writeWord (h : m.WordPerAddress) {x : Nat} (hx : x < addressSpace) (word : Word) :
    ∃ m', m.writeWord x word = .ok m' ∧ m'.readWord x = .ok word ∧ m'.WordPerAddress := by
  have hlt : x < m.words.size := h.size ▸ hx
  have hmul : x * m.wordBytes = x := by rw [h.wordBytes, Nat.mul_one]
  have hwrite := writeWord_eq hlt word
  have hread := readWord_eq hlt
  rw [hmul] at hwrite hread
  obtain ⟨m', hm', hword, -⟩ := writeWord_spec hread word
  obtain rfl := Except.ok.inj (hwrite.symm.trans hm')
  refine ⟨_, hwrite, hword, h.wordBytes, ?_⟩
  rw [Array.size_setIfInBounds]
  exact h.size

theorem writeFrom : ∀ (words : List Word) (i : Nat) {m : Memory}, m.WordPerAddress →
    ∃ m', m.writeFrom 1 0 i words = .ok m' ∧ m'.WordPerAddress
  | [], _, m, h => ⟨m, rfl, h⟩
  | word :: rest, i, m, h => by
    obtain ⟨hlt, haddress⟩ := wordAddress_lt i
    obtain ⟨m₁, hfirst, -, h₁⟩ := h.writeWord hlt word
    obtain ⟨m', hrest, h'⟩ := writeFrom rest (i + 1) h₁
    exact ⟨m', bind_eq_ok.mpr ⟨_, haddress, bind_eq_ok.mpr ⟨m₁, hfirst, hrest⟩⟩, h'⟩

theorem load_long (h : m.WordPerAddress) (hlong : addressSpace < words.length) :
    m.load 0 words = .error (.loadExceedsMemory words.length 0) := by
  have hpos : 0 < m.words.size := h.size ▸ by decide
  have hposition : m.position 0 = .ok ⟨0, hpos⟩ :=
    position_eq_ok.mpr ⟨Nat.zero_mod _, Nat.zero_div _⟩
  have hexceeds : ¬0 + words.length ≤ m.words.size := by
    rw [h.size, Nat.zero_add]
    exact Nat.not_le.mpr hlong
  rw [load, hposition]
  exact if_neg hexceeds

/-- One word more than there are addresses goes over the first one. -/
theorem writeBlock_wraps (h : m.WordPerAddress) (hlength : words.length = addressSpace)
    (last : Word) : ∃ m', m.writeBlock 0 (words ++ [last]) = .ok m' ∧ m'.readWord 0 = .ok last := by
  obtain ⟨m₁, hfirst, h₁⟩ := h.writeFrom words 0
  obtain ⟨m', hlast, hword, -⟩ := h₁.writeWord (x := 0) (by decide) last
  have haddress := (wordAddress_lt addressSpace).2
  rw [Nat.mod_self] at haddress
  have hrest : m₁.writeFrom 1 0 (0 + words.length) [last] = .ok m' := by
    rw [hlength, Nat.zero_add]
    exact bind_eq_ok.mpr ⟨0, haddress, bind_eq_ok.mpr ⟨m', hlast, rfl⟩⟩
  refine ⟨m', ?_, hword⟩
  rw [Memory.writeBlock, h.wordBytes, writeWords, writeFrom_append]
  exact bind_eq_ok.mpr ⟨m₁, hfirst, hrest⟩

end WordPerAddress

/-- A range of `addressSpace` words is a whole memory, with a word for every address. -/
theorem HasRange.wordPerAddress (h : m.HasRange a addressSpace)
    (hspace : m.sizeBytes ≤ addressSpace) : a = 0 ∧ m.WordPerAddress := by
  have hinside := h.inside
  have hsize := m.size_le_sizeBytes
  have hwords : m.words.size = addressSpace :=
    Nat.le_antisymm (Nat.le_trans hsize hspace) (Nat.le_trans (Nat.le_add_left _ _) hinside)
  have hstart : a / m.wordBytes = 0 := by
    generalize a / m.wordBytes = start at hinside
    omega
  have hbytes : m.wordBytes ≤ 1 := by
    rw [sizeBytes, hwords] at hspace
    exact Nat.le_of_mul_le_mul_left (c := addressSpace) (by rwa [Nat.mul_one]) (by decide)
  refine ⟨?_, Nat.le_antisymm hbytes m.wordBytes_pos, hwords⟩
  rw [← h.start_mul, hstart, Nat.zero_mul]

/-- A block of more than `addressSpace` words is written only over a whole memory that has a word
for every address. -/
theorem writeBlock_long_iff (hspace : m.sizeBytes ≤ addressSpace)
    (hlong : addressSpace < words.length) :
    (∃ m', m.writeBlock a words = .ok m') ↔ a = 0 ∧ m.WordPerAddress := by
  constructor
  · rintro ⟨m', h⟩
    -- The words before the cut are written each to an address of its own.
    rw [← List.take_append_drop addressSpace words, writeBlock, writeWords, writeFrom_append] at h
    obtain ⟨m₁, hfirst, -⟩ := bind_eq_ok.mp h
    have hlength := List.length_take_of_le (Nat.le_of_lt hlong)
    have hne : words.take addressSpace ≠ [] :=
      List.length_pos_iff.mp (hlength.symm ▸ (by decide))
    have hrange := hasRange_of_writeBlock hne (Nat.le_of_eq hlength) hfirst
    rw [hlength] at hrange
    exact hrange.wordPerAddress hspace
  · rintro ⟨rfl, h⟩
    obtain ⟨m', hwrite, -⟩ := h.writeFrom words 0
    rw [← h.wordBytes] at hwrite
    exact ⟨m', hwrite⟩

/-! ## Loads and writes -/

/-- **Loads and writes agree.** In a memory within the addresses a load goes through exactly if its
words lie in the memory. Then the words can be read back, in a block and one by one, the others are
what they were, and no address on the way needs more than 32 bits. Up to `addressSpace` words,
writing them one by one does the same; a longer block is never loaded, and it is written exactly if
it starts at the first address of a memory with a word for every address. -/
theorem load_eq_writeBlock (m : Memory) (a : Nat) (words : List Word)
    (hspace : m.sizeBytes ≤ addressSpace) (hne : words ≠ []) :
    ((∃ m', m.load a words = .ok m') ↔
        m.wordBytes ∣ a ∧ a / m.wordBytes + words.length ≤ m.words.size)
      ∧ (∀ m', m.load a words = .ok m' → m.Loaded a words m')
      ∧ (words.length ≤ addressSpace →
          ∀ m', m.load a words = .ok m' ↔ m.writeBlock a words = .ok m')
      ∧ (addressSpace < words.length → (¬∃ m', m.load a words = .ok m')
          ∧ ((∃ m', m.writeBlock a words = .ok m') ↔ a = 0 ∧ m.WordPerAddress)) := by
  have hloads : (∃ m', m.load a words = .ok m') ↔ m.HasRange a words.length := by
    simp only [load_eq_ok hne, exists_and_left, exists_eq, and_true]
  refine ⟨?_, ?_, ?_, ?_⟩
  · rw [hloads]
    exact ⟨fun h => ⟨h.aligned, h.inside⟩, fun h => ⟨h.1, h.2⟩⟩
  · intro m' h
    obtain ⟨hrange, rfl⟩ := (load_eq_ok hne).mp h
    exact hrange.loaded hspace
  · intro hcount m'
    rw [load_eq_ok hne, writeBlock_eq_ok hspace hne hcount]
  · intro hlong
    refine ⟨?_, writeBlock_long_iff hspace hlong⟩
    rw [hloads]
    intro hrange
    exact absurd (hrange.count_le hspace) (Nat.not_le.mpr hlong)

/-- Four words that fill the addresses: the last two can be loaded, a third behind them cannot. -/
theorem load_eq_writeBlock_last_words :
    let m := zeroed addressSpace (addressSpace / 4)
    m.sizeBytes = addressSpace
      ∧ (∃ m', m.writeBlock (addressSpace / 2) [7, 8] = .ok m' ∧ m'.words = #[0, 0, 7, 8]
        ∧ m.Loaded (addressSpace / 2) [7, 8] m')
      ∧ ¬∃ m', m.load (addressSpace / 2) [7, 8, 9] = .ok m' := by
  intro m
  have hsize : m.sizeBytes = addressSpace := by decide +kernel
  obtain ⟨hloads, hloaded, hsame, -⟩ := load_eq_writeBlock m (addressSpace / 2) [7, 8]
    (Nat.le_of_eq hsize) (List.cons_ne_nil _ _)
  obtain ⟨hmore, -⟩ := load_eq_writeBlock m (addressSpace / 2) [7, 8, 9] (Nat.le_of_eq hsize)
    (List.cons_ne_nil _ _)
  obtain ⟨m', hload⟩ := hloads.mpr (by decide)
  obtain ⟨-, hput⟩ := (load_eq_ok (List.cons_ne_nil _ _)).mp hload
  refine ⟨hsize, ⟨m', (hsame (by decide) m').mp hload, by rw [hput]; decide +kernel,
    hloaded m' hload⟩, ?_⟩
  rw [hmore]
  decide

/-- One word more than there are addresses: it cannot be loaded, but it is written, over the first
word of its own block. -/
theorem writeBlock_past_addresses :
    let m := zeroed addressSpace 1
    let words := List.replicate addressSpace 7 ++ [9]
    m.sizeBytes = addressSpace
      ∧ (∃ m', m.writeBlock 0 words = .ok m' ∧ m'.readWord 0 = .ok 9)
      ∧ m.load 0 words = .error (.loadExceedsMemory (addressSpace + 1) 0) := by
  intro m words
  have hm : m.WordPerAddress := ⟨rfl, Array.size_replicate.trans (Nat.div_one _)⟩
  have hlength : words.length = addressSpace + 1 := by
    rw [List.length_append, List.length_replicate, List.length_singleton]
  refine ⟨?_, ?_, ?_⟩
  · rw [sizeBytes, hm.size, hm.wordBytes, Nat.mul_one]
  · exact hm.writeBlock_wraps List.length_replicate 9
  · rw [← hlength]
    exact hm.load_long (hlength ▸ Nat.lt_succ_self _)

end MemoryHierarchy.Memory
