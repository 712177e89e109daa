import MemoryHierarchy.Proofs.MemoryRanges

/-!
Words at addresses.

`Stores` says which words stand in a memory, so many bytes apart. They are what a read of
consecutive words gives (`readWords_eq_ok_iff_stores`), and where some words stand others can be
written, which leaves every address outside the interval alone (`Stores.write`). How wide the words
of the memory are and where it ends does not matter for this; a block lies in memory (`HasBlock`)
if its words can be read.
-/

namespace MemoryHierarchy

namespace Memory

variable {m m' : Memory} {step a : Nat} {words words' : List Word} {old : Word}

/-! ## One word -/

theorem readWord_eq_getElem? (m : Memory) (a : Nat) :
    m.readWord a = if a % m.wordBytes ≠ 0 then .error (.unalignedAddress a)
      else match m.words[a / m.wordBytes]? with
        | some word => .ok word
        | none => .error (.outsideMemory a m.sizeBytes) := by
  rw [readWord, position]
  by_cases haligned : a % m.wordBytes ≠ 0
  · rw [if_pos haligned, if_pos haligned]
    rfl
  · rw [if_neg haligned, if_neg haligned]
    by_cases hlt : a / m.wordBytes < m.words.size
    · rw [dif_pos hlt, Array.getElem?_eq_getElem hlt]
      rfl
    · rw [dif_neg hlt, Array.getElem?_eq_none (Nat.le_of_not_lt hlt)]
      rfl

theorem position_eq_ok {i : Fin m.words.size} :
    m.position a = .ok i ↔ a % m.wordBytes = 0 ∧ a / m.wordBytes = i := by
  rw [position]
  constructor
  · intro h
    split at h
    · cases h
    · next haligned =>
      split at h
      · exact ⟨Decidable.not_not.mp haligned, congrArg Fin.val (Except.ok.inj h)⟩
      · cases h
  · rintro ⟨haligned, hposition⟩
    rw [if_neg (not_not_intro haligned), dif_pos (hposition ▸ i.isLt)]
    exact congrArg Except.ok (Fin.ext hposition)

/-- A word that can be read can be replaced; no other address sees it. -/
theorem writeWord_spec (h : m.readWord a = .ok old) (word : Word) :
    ∃ m', m.writeWord a word = .ok m' ∧ m'.readWord a = .ok word
      ∧ ∀ x, x ≠ a → m'.readWord x = m.readWord x := by
  rw [readWord] at h
  obtain ⟨i, hi, -⟩ := bind_eq_ok.mp h
  obtain ⟨haligned, hposition⟩ := position_eq_ok.mp hi
  have hsize : ({ m with words := m.words.set i word } : Memory).sizeBytes = m.sizeBytes := by
    simp [sizeBytes]
  refine ⟨{ m with words := m.words.set i word }, ?_, ?_, ?_⟩
  · rw [writeWord, hi]
    rfl
  · rw [readWord_eq_getElem?]
    simp [haligned, hposition]
  · intro x hx
    rw [readWord_eq_getElem?, readWord_eq_getElem? m, hsize]
    by_cases hxaligned : x % m.wordBytes ≠ 0
    · rw [if_pos hxaligned, if_pos hxaligned]
    · -- two aligned addresses of one position are equal
      have hne : (i : Nat) ≠ x / m.wordBytes := by
        intro heq
        apply hx
        rw [← Nat.div_add_mod x m.wordBytes, ← Nat.div_add_mod a m.wordBytes, haligned,
          Decidable.not_not.mp hxaligned, hposition, heq]
      rw [if_neg hxaligned, if_neg hxaligned]
      simp only [Array.getElem?_set_ne _ hne]

/-! ## Consecutive words -/

/-- These words stand in memory, `step` bytes apart from `address` on. -/
def Stores (m : Memory) (step : Nat) : (address : Nat) → List Word → Prop
  | _, [] => True
  | address, word :: rest =>
    address < addressSpace ∧ m.readWord address = .ok word ∧ m.Stores step (address + step) rest

/-- The words that stand one after the other stand at the address of their index. -/
theorem stores_iff : ∀ {words : List Word} {a : Nat}, m.Stores step a words ↔
    ∀ i (hi : i < words.length),
      a + i * step < addressSpace ∧ m.readWord (a + i * step) = .ok words[i]
  | [], a => by simp [Stores]
  | word :: rest, a => by
    rw [Stores, stores_iff]
    have hnext (i : Nat) : a + step + i * step = a + (i + 1) * step := by
      rw [Nat.succ_mul, Nat.add_assoc, Nat.add_comm step]
    constructor
    · rintro ⟨hspace, hword, hrest⟩ i hi
      cases i with
      | zero => simpa using ⟨hspace, hword⟩
      | succ i =>
        rw [← hnext]
        exact hrest i (Nat.lt_of_succ_lt_succ hi)
    · intro h
      refine ⟨?_, ?_, ?_⟩
      · simpa using (h 0 (Nat.succ_pos _)).1
      · simpa using (h 0 (Nat.succ_pos _)).2
      · intro i hi
        rw [hnext]
        exact h (i + 1) (Nat.succ_lt_succ hi)

/-- Up to `addressSpace` words, those that are read stand one after the other. -/
theorem readWords_eq_ok_iff_stores {count : Nat} (hcount : count ≤ addressSpace) :
    m.readWords step a count = .ok words ↔ words.length = count ∧ m.Stores step a words := by
  rw [readWords_eq_ok, stores_iff]
  apply and_congr_right
  intro hlength
  apply forall₂_congr
  intro i hi
  have hlt : i < addressSpace := by omega
  simp only [wordAddress_eq_ok hlt]
  constructor
  · rintro ⟨x, ⟨hspace, rfl⟩, hword⟩
    exact ⟨hspace, hword⟩
  · rintro ⟨hspace, hword⟩
    exact ⟨_, ⟨hspace, rfl⟩, hword⟩

namespace Stores

/-- Only the words of the interval matter. -/
theorem congr (hstep : 0 < step) : ∀ {words : List Word} {a : Nat}, m.Stores step a words →
    (∀ x, a ≤ x → x < a + step * words.length → m'.readWord x = m.readWord x) →
    m'.Stores step a words
  | [], _, _, _ => trivial
  | word :: rest, a, h, hsame => by
    obtain ⟨hspace, hword, hrest⟩ := h
    rw [List.length_cons, Nat.mul_succ] at hsame
    refine ⟨hspace, (hsame a (Nat.le_refl a) (by omega)).trans hword, hrest.congr hstep ?_⟩
    intro x hle hlt
    exact hsame x (by omega) (by omega)

/-- Where words stand others can be written, and no address outside is touched. -/
theorem writeFrom (hstep : 0 < step) {a : Nat} : ∀ {old words : List Word} {m : Memory} {i : Nat},
    m.Stores step (a + i * step) old → words.length = old.length →
    i + words.length ≤ addressSpace →
    ∃ m', m.writeFrom step a i words = .ok m' ∧ m'.Stores step (a + i * step) words
      ∧ ∀ x, x < a + i * step ∨ a + i * step + step * words.length ≤ x →
        m'.readWord x = m.readWord x
  | _, [], m, _, _, _, _ => ⟨m, rfl, trivial, fun _ _ => rfl⟩
  | [], word :: rest, _, _, _, hlength, _ => by cases hlength
  | before :: others, word :: rest, m, i, h, hlength, hcount => by
    rw [List.length_cons] at hcount
    have hnext : a + i * step + step = a + (i + 1) * step := by rw [Nat.succ_mul, Nat.add_assoc]
    obtain ⟨hspace, hbefore, hothers⟩ := h
    obtain ⟨m₁, hwrite, hword, hframe⟩ := writeWord_spec hbefore word
    -- The words that follow still stand after the first one has been written.
    have hothers₁ : m₁.Stores step (a + i * step + step) others :=
      hothers.congr hstep fun x hle _ => hframe x (by omega)
    rw [hnext] at hothers₁
    obtain ⟨m₂, hwrites, hrest, hframe₂⟩ :=
      hothers₁.writeFrom hstep (Nat.succ.inj hlength) (by omega)
    rw [← hnext] at hrest hframe₂
    refine ⟨m₂, ?_, ⟨hspace, (hframe₂ _ (by omega)).trans hword, hrest⟩, ?_⟩
    · exact bind_eq_ok.mpr ⟨_, (wordAddress_eq_ok (by omega)).mpr ⟨hspace, rfl⟩,
        bind_eq_ok.mpr ⟨m₁, hwrite, hwrites⟩⟩
    · intro x hx
      rw [List.length_cons, Nat.mul_succ] at hx
      exact (hframe₂ x (by omega)).trans (hframe x (by omega))

theorem write (hstep : 0 < step) {old : List Word} (h : m.Stores step a old)
    (hlength : words.length = old.length) (hcount : words.length ≤ addressSpace) :
    ∃ m', m.writeWords step a words = .ok m' ∧ m'.Stores step a words
      ∧ ∀ x, x < a ∨ a + step * words.length ≤ x → m'.readWord x = m.readWord x := by
  have hzero : a + 0 * step = a := by rw [Nat.zero_mul, Nat.add_zero]
  have hwrite := Stores.writeFrom (a := a) (i := 0) hstep (hzero.symm ▸ h) hlength (by omega)
  rw [hzero] at hwrite
  exact hwrite

end Stores

/-! ## Blocks -/

/-- The words of the block that starts at `block` can be read from memory. -/
def HasBlock (m : Memory) (g : Geometry) (block : Nat) : Prop :=
  ∃ words, m.readWords g.word.bytes block g.wordsPerLine = .ok words

variable {g : Geometry} {block other : Nat}

/-- A block that ends within the addresses and within a memory of words of its width. -/
theorem hasBlock_of_le (hw : m.wordBytes = g.word.bytes) (hd : g.lineBytes ∣ block)
    (hs : block + g.lineBytes ≤ g.span) (hle : block + g.lineBytes ≤ m.sizeBytes) :
    m.HasBlock g block := by
  obtain ⟨hmul, hsize⟩ := Port.range_of_le hw hd hle
  have hread := readWords_eq hsize (by rw [hw]; exact Port.space_of_le hd hs)
  rw [hw, hmul] at hread
  exact ⟨_, hread⟩

/-- Blocks of one size do not overlap. -/
theorem apart_of_ne (hd : g.lineBytes ∣ block) (hd' : g.lineBytes ∣ other) (hne : other ≠ block) :
    other + g.lineBytes ≤ block ∨ block + g.lineBytes ≤ other := by
  obtain ⟨i, rfl⟩ := hd
  obtain ⟨j, rfl⟩ := hd'
  rcases Nat.lt_or_gt_of_ne fun heq : j = i => hne (congrArg _ heq) with hlt | hlt
  · exact .inl (by rw [← Nat.mul_succ]; exact Nat.mul_le_mul_left _ hlt)
  · exact .inr (by rw [← Nat.mul_succ]; exact Nat.mul_le_mul_left _ hlt)

/-- A block of which the words stand in memory can be overwritten; the other blocks stay. -/
theorem Stores.writeBlock {old : List Word} (h : m.Stores g.word.bytes block old)
    (hold : old.length = g.wordsPerLine) (hwords : words.length = g.wordsPerLine)
    (hd : g.lineBytes ∣ block) :
    ∃ m', m.writeWords g.word.bytes block words = .ok m' ∧ m'.Stores g.word.bytes block words
      ∧ ∀ other kept, g.lineBytes ∣ other → other ≠ block → kept.length = g.wordsPerLine →
        m.Stores g.word.bytes other kept → m'.Stores g.word.bytes other kept := by
  obtain ⟨m', hwrite, hnew, hframe⟩ := h.write g.word.bytes_pos (hwords.trans hold.symm)
    (hwords ▸ g.wordsPerLine_le)
  refine ⟨m', hwrite, hnew, ?_⟩
  intro other kept hd' hne hkept hstores
  apply hstores.congr g.word.bytes_pos
  intro x hle hlt
  have hapart := apart_of_ne hd hd' hne
  rw [hwords, ← g.lineBytes_eq] at hframe
  rw [hkept, ← g.lineBytes_eq] at hlt
  exact hframe x (by omega)

end Memory

/-- A line whose words stand in memory is fetched. -/
theorem Port.fetch_of_stores {p : Port} {g : Geometry} {block : Nat} {words : List Word}
    (h : p.memory.Stores g.word.bytes block words) (hwords : words.length = g.wordsPerLine) :
    p.fetch g block = .ok (words, p.note .read g.word.bytes block words) := by
  have hread : p.memory.readWords g.word.bytes block g.wordsPerLine = .ok words :=
    (Memory.readWords_eq_ok_iff_stores g.wordsPerLine_le).mpr ⟨hwords, h⟩
  rw [fetch, readWords, hread]
  rfl

end MemoryHierarchy
