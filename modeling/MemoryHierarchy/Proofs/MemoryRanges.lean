import MemoryHierarchy.LineTransfer
import MemoryHierarchy.Proofs.Placement
import MemoryHierarchy.Proofs.Run

/-!
Ranges of memory words.

Words are read exactly if each can be read at the address of its index (`readWords_eq_ok`). Inside
a memory within the addresses this gives a slice of it (`readWords_eq`), and writing words replaces
the slice and nothing else (`writeWords_eq`, `getElem?_putWords`). For a memory of whole lines a
cache line can always be fetched and written back (`fetch_eq`, `writeBack_dirty`).
-/

namespace MemoryHierarchy

namespace Memory

/-- `count` words from position `start` on. -/
def slice (m : Memory) (start count : Nat) : List Word := (m.words.toList.drop start).take count

theorem getElem?_slice (m : Memory) (start count i : Nat) :
    (m.slice start count)[i]? = if i < count then m.words[start + i]? else none := by
  rw [slice, List.getElem?_take]
  split
  · rw [List.getElem?_drop, Array.getElem?_toList]
  · rfl

theorem length_slice {m : Memory} {start count : Nat} (h : start + count ≤ m.words.size) :
    (m.slice start count).length = count := by
  rw [slice, List.length_take, List.length_drop, Array.length_toList]
  omega

theorem getElem_slice {m : Memory} {start count i : Nat} (hi : i < (m.slice start count).length)
    (hlt : start + i < m.words.size) : (m.slice start count)[i] = m.words[start + i] := by
  simp only [slice, List.getElem_take, List.getElem_drop, Array.getElem_toList]

theorem position_eq {m : Memory} {i : Nat} (h : i < m.words.size) :
    m.position (i * m.wordBytes) = .ok ⟨i, h⟩ := by
  have hdiv : i * m.wordBytes / m.wordBytes = i := Nat.mul_div_cancel i m.wordBytes_pos
  simp only [position, Nat.mul_mod_left, ne_eq, not_true_eq_false, if_false, hdiv, dif_pos h]

theorem readWord_eq {m : Memory} {i : Nat} (h : i < m.words.size) :
    m.readWord (i * m.wordBytes) = .ok m.words[i] := by
  rw [readWord, position_eq h]
  rfl

theorem writeWord_eq {m : Memory} {i : Nat} (h : i < m.words.size) (word : Word) :
    m.writeWord (i * m.wordBytes) word = .ok { m with words := m.words.setIfInBounds i word } := by
  rw [writeWord, position_eq h, Array.setIfInBounds, dif_pos h]
  rfl

/-- A word inside the address space has an address. -/
theorem address_lt {m : Memory} {start count : Nat} (hc : 0 < count)
    (h : (start + count) * m.wordBytes ≤ addressSpace) : start * m.wordBytes < addressSpace := by
  have hlt : start * m.wordBytes < (start + count) * m.wordBytes :=
    Nat.mul_lt_mul_of_pos_right (by omega) m.wordBytes_pos
  omega

/-- Up to `addressSpace` words the cut changes no index. A product that needs more than 32 bits
leaves no room for the sum either. -/
theorem wordAddress_eq_ok {step a i x : Nat} (hi : i < addressSpace) :
    wordAddress step a i = .ok x ↔ a + i * step < addressSpace ∧ x = a + i * step := by
  rw [wordAddress, Nat.mod_eq_of_lt hi]
  split
  · exact offsetAddress_eq_ok
  · exact iff_of_false (by simp) (by omega)

/-- Word `i` of the block that starts at a position stands `i` positions further. -/
theorem wordAddress_position {m : Memory} {start i count : Nat} (hc : 0 < count)
    (h : (start + i + count) * m.wordBytes ≤ addressSpace) :
    wordAddress m.wordBytes (start * m.wordBytes) i = .ok ((start + i) * m.wordBytes) := by
  have hlt := address_lt hc h
  have hi : i < addressSpace :=
    calc i ≤ start + i := Nat.le_add_left _ _
      _ ≤ (start + i) * m.wordBytes := Nat.le_mul_of_pos_right _ m.wordBytes_pos
      _ < addressSpace := hlt
  rw [wordAddress_eq_ok hi, ← Nat.add_mul]
  exact ⟨hlt, rfl⟩

/-- What is read follows what was read before, each word from the address of its index. -/
theorem readFrom_eq_ok {m : Memory} {step a : Nat} : ∀ {count i : Nat} {before result : List Word},
    m.readFrom step a count i before = .ok result ↔
      ∃ words, words.length = count ∧ result = before.reverse ++ words
        ∧ ∀ j (hj : j < words.length),
          ∃ x, wordAddress step a (i + j) = .ok x ∧ m.readWord x = .ok words[j]
  | 0, i, before, result => by
    rw [readFrom]
    constructor
    · intro h
      exact ⟨[], rfl, by rw [List.append_nil]; exact (Except.ok.inj h).symm, nofun⟩
    · intro h
      obtain ⟨words, hlength, rfl, -⟩ := h
      rw [List.eq_nil_of_length_eq_zero hlength, List.append_nil]
  | count + 1, i, before, result => by
    rw [readFrom]
    constructor
    · intro h
      obtain ⟨x, hx, h⟩ := bind_eq_ok.mp h
      obtain ⟨word, hword, h⟩ := bind_eq_ok.mp h
      obtain ⟨rest, hlength, rfl, hrest⟩ := readFrom_eq_ok.mp h
      refine ⟨word :: rest, congrArg (· + 1) hlength, ?_, ?_⟩
      · rw [List.reverse_cons, List.append_assoc, List.singleton_append]
      · intro j hj
        cases j with
        | zero => exact ⟨x, hx, hword⟩
        | succ j =>
          rw [← Nat.add_assoc, Nat.add_right_comm]
          exact hrest j (Nat.lt_of_succ_lt_succ hj)
    · intro h
      obtain ⟨words, hlength, rfl, hwords⟩ := h
      cases words with
      | nil => cases hlength
      | cons word rest =>
        obtain ⟨x, hx, hword⟩ := hwords 0 (Nat.succ_pos _)
        refine bind_eq_ok.mpr ⟨x, hx, bind_eq_ok.mpr ⟨word, hword, readFrom_eq_ok.mpr
          ⟨rest, Nat.succ.inj hlength, ?_, ?_⟩⟩⟩
        · rw [List.reverse_cons, List.append_assoc, List.singleton_append]
        · intro j hj
          rw [Nat.add_right_comm, Nat.add_assoc]
          exact hwords (j + 1) (Nat.succ_lt_succ hj)

/-- Words are read exactly if each of them can be read at the address of its index. -/
theorem readWords_eq_ok {m : Memory} {step a count : Nat} {words : List Word} :
    m.readWords step a count = .ok words ↔ words.length = count
      ∧ ∀ i (hi : i < words.length),
        ∃ x, wordAddress step a i = .ok x ∧ m.readWord x = .ok words[i] := by
  rw [readWords, readFrom_eq_ok]
  simp only [Nat.zero_add, List.reverse_nil, List.nil_append]
  constructor
  · intro h
    obtain ⟨words', hlength, rfl, hwords⟩ := h
    exact ⟨hlength, hwords⟩
  · intro h
    exact ⟨words, h.1, rfl, h.2⟩

theorem readWords_eq {m : Memory} {start count : Nat} (h : start + count ≤ m.words.size)
    (hspace : (start + count) * m.wordBytes ≤ addressSpace) :
    m.readWords m.wordBytes (start * m.wordBytes) count = .ok (m.slice start count) := by
  rw [readWords_eq_ok]
  refine ⟨length_slice h, fun i hi => ?_⟩
  have hlt : i < count := by rwa [length_slice h] at hi
  obtain ⟨rest, rfl⟩ := Nat.exists_eq_add_of_le (Nat.le_of_lt hlt)
  rw [← Nat.add_assoc] at hspace
  refine ⟨_, wordAddress_position (by omega) hspace, ?_⟩
  rw [readWord_eq (by omega), getElem_slice]

/-- As many words are read as were asked for. -/
theorem length_readWords (m : Memory) (step a count : Nat) :
    Ends (m.readWords step a count) (fun _ => True) fun words => words.length = count := by
  cases h : m.readWords step a count with
  | ok words => exact (readWords_eq_ok.mp h).1
  | error _ => trivial

theorem size_putWords : ∀ (words : List Word) (stored : Array Word) (start : Nat),
    (putWords stored start words).size = stored.size
  | [], _, _ => rfl
  | word :: rest, stored, start => by
    rw [putWords, size_putWords rest, Array.size_setIfInBounds]

/-- The words put down are there, and all others are what they were. -/
theorem getElem?_putWords : ∀ (words : List Word) (stored : Array Word) (start j : Nat),
    start + words.length ≤ stored.size →
    (putWords stored start words)[j]?
      = if start ≤ j ∧ j < start + words.length then words[j - start]? else stored[j]?
  | [], stored, start, j, _ => by
    rw [putWords, if_neg (by rw [List.length_nil]; omega)]
  | word :: rest, stored, start, j, h => by
    rw [List.length_cons] at h
    rw [putWords, getElem?_putWords rest _ _ _ (by rw [Array.size_setIfInBounds]; omega),
      List.length_cons]
    -- before the first word, the first word itself, after it
    rcases Nat.lt_trichotomy j start with hlt | rfl | hgt
    · rw [if_neg (by omega), if_neg (by omega), Array.getElem?_setIfInBounds_ne (by omega)]
    · rw [if_neg (by omega), if_pos (by omega), Nat.sub_self, List.getElem?_cons_zero,
        Array.getElem?_setIfInBounds_self_of_lt (by omega)]
    · obtain ⟨d, rfl⟩ := Nat.exists_eq_add_of_lt hgt
      rw [Array.getElem?_setIfInBounds_ne (by omega),
        show start + d + 1 - (start + 1) = d by omega,
        show start + d + 1 - start = d + 1 by omega, List.getElem?_cons_succ]
      by_cases hd : d < rest.length
      · rw [if_pos (by omega), if_pos (by omega)]
      · rw [if_neg (by omega), if_neg (by omega)]

/-- The memory with these words from position `start` on. -/
def put (m : Memory) (start : Nat) (words : List Word) : Memory :=
  { m with words := putWords m.words start words }

@[simp] theorem put_wordBytes (m : Memory) (start : Nat) (words : List Word) :
    (m.put start words).wordBytes = m.wordBytes := rfl

@[simp] theorem put_sizeBytes (m : Memory) (start : Nat) (words : List Word) :
    (m.put start words).sizeBytes = m.sizeBytes := by
  rw [sizeBytes, sizeBytes, put, size_putWords]

theorem getElem?_put {m : Memory} {start : Nat} {words : List Word}
    (h : start + words.length ≤ m.words.size) (j : Nat) :
    (m.put start words).words[j]?
      = if start ≤ j ∧ j < start + words.length then words[j - start]? else m.words[j]? :=
  getElem?_putWords words m.words start j h

theorem writeFrom_eq : ∀ (words : List Word) (m : Memory) (start i : Nat),
    start + i + words.length ≤ m.words.size →
    (start + i + words.length) * m.wordBytes ≤ addressSpace →
    m.writeFrom m.wordBytes (start * m.wordBytes) i words = .ok (m.put (start + i) words)
  | [], _, _, _, _, _ => rfl
  | word :: rest, m, start, i, h, hspace => by
    rw [List.length_cons] at h hspace
    have hlt : start + i < m.words.size := by omega
    have hspace' : (start + (i + 1) + rest.length) * m.wordBytes ≤ addressSpace := by
      rw [← Nat.add_assoc, Nat.add_right_comm]; exact hspace
    -- The words that follow go to the memory that holds the first one already.
    have hrest := writeFrom_eq rest { m with words := m.words.setIfInBounds (start + i) word }
      start (i + 1) (by rw [Array.size_setIfInBounds]; omega) hspace'
    exact bind_eq_ok.mpr ⟨_, wordAddress_position (Nat.succ_pos _) hspace,
      bind_eq_ok.mpr ⟨_, writeWord_eq hlt word, hrest⟩⟩

theorem writeWords_eq {m : Memory} {start : Nat} (words : List Word)
    (h : start + words.length ≤ m.words.size)
    (hspace : (start + words.length) * m.wordBytes ≤ addressSpace) :
    m.writeWords m.wordBytes (start * m.wordBytes) words = .ok (m.put start words) :=
  writeFrom_eq words m start 0 h hspace

end Memory

namespace Port

@[simp] theorem note_memory (transfer : Nat → Word → Transfer) (step : Nat) :
    ∀ (words : List Word) (p : Port) (address : Nat),
      (p.note transfer step address words).memory = p.memory
  | [], _, _ => rfl
  | word :: rest, p, address => by rw [note, note_memory transfer step rest]

/-- A port to a memory whose words are those of the geometry and which holds whole lines. -/
structure Fits (p : Port) (g : Geometry) : Prop where
  wordBytes : p.memory.wordBytes = g.word.bytes
  wholeLines : g.lineBytes ∣ p.memory.sizeBytes

variable {p : Port} {g : Geometry} {block : Nat}

/-- The words of a block that lies in the memory are words of the memory. -/
theorem range_of_le {m : Memory} (hw : m.wordBytes = g.word.bytes) (hd : g.lineBytes ∣ block)
    (hi : block + g.lineBytes ≤ m.sizeBytes) :
    block / g.word.bytes * g.word.bytes = block
      ∧ block / g.word.bytes + g.wordsPerLine ≤ m.words.size := by
  have hmul : block / g.word.bytes * g.word.bytes = block :=
    Nat.div_mul_cancel (Nat.dvd_trans g.bytes_dvd_lineBytes hd)
  refine ⟨hmul, ?_⟩
  rw [Memory.sizeBytes, hw, g.lineBytes_eq, Nat.mul_comm _ g.wordsPerLine] at hi
  apply Nat.le_of_mul_le_mul_right _ g.word.bytes_pos
  rw [Nat.add_mul, hmul]
  exact hi

theorem Fits.range (h : p.Fits g) (hd : g.lineBytes ∣ block)
    (hi : block + g.lineBytes ≤ p.memory.sizeBytes) :
    block / g.word.bytes * g.word.bytes = block
      ∧ block / g.word.bytes + g.wordsPerLine ≤ p.memory.words.size :=
  range_of_le h.wordBytes hd hi

/-- The words of a block that a machine word can name have addresses. -/
theorem space_of_le (hd : g.lineBytes ∣ block) (hs : block + g.lineBytes ≤ g.span) :
    (block / g.word.bytes + g.wordsPerLine) * g.word.bytes ≤ addressSpace := by
  have hmul : block / g.word.bytes * g.word.bytes = block :=
    Nat.div_mul_cancel (Nat.dvd_trans g.bytes_dvd_lineBytes hd)
  calc (block / g.word.bytes + g.wordsPerLine) * g.word.bytes
      = block + g.lineBytes := by rw [Nat.add_mul, hmul, Nat.mul_comm, ← g.lineBytes_eq]
    _ ≤ g.span := hs
    _ ≤ addressSpace := g.span_le

theorem fetch_eq (h : p.Fits g) (hd : g.lineBytes ∣ block) (hs : block + g.lineBytes ≤ g.span)
    (hi : block + g.lineBytes ≤ p.memory.sizeBytes) :
    p.fetch g block = .ok (p.memory.slice (block / g.word.bytes) g.wordsPerLine,
      p.note .read g.word.bytes block (p.memory.slice (block / g.word.bytes) g.wordsPerLine)) := by
  obtain ⟨hmul, hsize⟩ := h.range hd hi
  have hread := Memory.readWords_eq hsize (by rw [h.wordBytes]; exact space_of_le hd hs)
  rw [h.wordBytes, hmul] at hread
  rw [fetch, readWords, hread]
  rfl

/-- A line that is fetched has all its words. -/
theorem length_fetch (p : Port) (g : Geometry) (block : Nat) :
    Ends (p.fetch g block) (fun _ => True) fun r => r.1.length = g.wordsPerLine := by
  rw [fetch, readWords]
  apply Ends.bind' (p.memory.length_readWords g.word.bytes block g.wordsPerLine)
  intro words hlength
  exact Ends.pure' hlength

theorem writeBack_clean {line : Line} (hl : line.needsWriteBack = false) (index : Nat) :
    p.writeBack g index line = .ok (none, p) := by
  rw [writeBack, hl]
  rfl

/-- A line is written back exactly if it is dirty. -/
theorem isSome_writeBack (p : Port) (g : Geometry) (index : Nat) (line : Line) :
    Ends (p.writeBack g index line) (fun _ => True) fun r => r.1.isSome = line.needsWriteBack := by
  rw [writeBack]
  apply Ends.ite'
  · intro hdirty
    apply Ends.bind' Ends.any
    intro port _
    exact Ends.pure' hdirty.symm
  · intro hclean
    exact Ends.ok rfl (Bool.not_eq_true _ ▸ hclean).symm

theorem writeBack_dirty {line : Line} {index : Nat} (h : p.Fits g)
    (hl : line.needsWriteBack = true) (hw : line.words.length = g.wordsPerLine)
    (hblock : g.blockStart line.tag index = block) (hd : g.lineBytes ∣ block)
    (hs : block + g.lineBytes ≤ g.span) (hi : block + g.lineBytes ≤ p.memory.sizeBytes) :
    p.writeBack g index line = .ok (some { address := block, kind := line.kind },
      { p with memory := p.memory.put (block / g.word.bytes) line.words }.note .write
        g.word.bytes block line.words) := by
  obtain ⟨hmul, hsize⟩ := h.range hd hi
  have hwrite := Memory.writeWords_eq line.words (by rw [hw]; exact hsize)
    (by rw [hw, h.wordBytes]; exact space_of_le hd hs)
  rw [h.wordBytes, hmul] at hwrite
  simp only [writeBack, hl, if_true, hblock, writeWords, hwrite]
  rfl

end Port

end MemoryHierarchy
