import MemoryHierarchy.L2
import MemoryHierarchy.Proofs.Lines
import MemoryHierarchy.Proofs.MemoryRanges

/-!
The lines of a cache and the memories behind it, as one store of words.

`Coherent` relates both to `contents`, the word that each position of each path should have: a
line that holds a block has the contents of that block, and memory has the contents of every
block of which no line is dirty. No move of data changes the contents: not a use of a line
(`Coherent.touch`), not a write-back (`Coherent.writeBack`), not a replacement
(`Coherent.replace`). A word that is stored in a line changes the contents at its own position
and nowhere else (`Coherent.write`).
-/

namespace MemoryHierarchy

namespace LineStore

/-- Way `way` of set `index` holds block `b`. -/
structure CopyAt (s : LineStore) (index way : Nat) (b : BlockRef) (line : Line) : Prop where
  here : s.line? index way = some line
  valid : line.valid = true
  address : s.geometry.blockStart line.tag index = b.address
  kind : line.kind = b.kind

/-- Some line holds block `b`. -/
def Resident (s : LineStore) (b : BlockRef) : Prop := ∃ index way line, s.CopyAt index way b line

/-- All lines are there, their tags are tags of the geometry, and no block is held twice. -/
structure Sound (s : LineStore) : Prop where
  shaped : s.Shaped s.geometry.wordsPerLine
  tag_lt : ∀ i v line, s.line? i v = some line → line.tag < twoPow s.geometry.tagBits
  unique : ∀ {i v i' v' b line line'}, s.CopyAt i v b line → s.CopyAt i' v' b line' →
    i = i' ∧ v = v'

variable {s : LineStore} {index way i v : Nat} {b : BlockRef} {kind : Kind} {line old new : Line}

theorem CopyAt.holds (h : s.CopyAt index way b line) : line.holds line.tag b.kind = true :=
  holds_iff.mpr ⟨h.valid, rfl, h.kind⟩

theorem CopyAt.resident (h : s.CopyAt index way b line) : s.Resident b := ⟨_, _, _, h⟩

theorem Sound.index_lt (hs : s.Sound) (h : s.CopyAt index way b line) :
    index < s.geometry.sets := hs.shaped.index_lt h.here

theorem Sound.dvd (hs : s.Sound) (h : s.CopyAt index way b line) :
    s.geometry.lineBytes ∣ b.address := by
  rw [← h.address]
  exact Geometry.blockStart_dvd (hs.tag_lt _ _ _ h.here) (hs.index_lt h)

theorem Sound.le_span (hs : s.Sound) (h : s.CopyAt index way b line) :
    b.address + s.geometry.lineBytes ≤ s.geometry.span := by
  rw [← h.address]
  exact Geometry.blockStart_le (hs.tag_lt _ _ _ h.here) (hs.index_lt h)

/-- Copies of a block are one and the same line. -/
theorem Sound.same (hs : s.Sound) (h : s.CopyAt index way b line) (h' : s.CopyAt i v b old) :
    old = line := by
  obtain ⟨rfl, rfl⟩ := hs.unique h h'
  have heq := h'.here
  rw [h.here] at heq
  exact (Option.some.inj heq).symm

/-- A line holds at most one block. -/
theorem CopyAt.block_eq {b' : BlockRef} (h : s.CopyAt index way b line)
    (h' : s.CopyAt index way b' old) : b' = b := by
  have hl : line = old := Option.some.inj (h.here.symm.trans h'.here)
  subst hl
  exact BlockRef.eq_of (h'.address.symm.trans h.address) (h'.kind.symm.trans h.kind)

/-- A copy of the block of an address is in the set of the address, under its tag. -/
theorem CopyAt.place (hs : s.Sound) {a : Nat}
    (hc : s.CopyAt index way ⟨(s.geometry.locate a).block, kind⟩ line) :
    index = (s.geometry.locate a).index ∧ line.holds (s.geometry.locate a).tag kind = true := by
  obtain ⟨htag, hindex⟩ := (Geometry.locate_eq_iff (a := a) (hs.tag_lt _ _ _ hc.here)
    (hs.index_lt hc)).mp hc.address
  exact ⟨hindex, htag ▸ hc.holds⟩

/-- Looking an address up finds the copy of its block, if there is one. -/
theorem find_copy (hs : s.Sound) (a : Nat) (kind : Kind) :
    (∃ way line, s.find (s.geometry.locate a).index (s.geometry.locate a).tag kind = .ok (some way)
        ∧ s.CopyAt (s.geometry.locate a).index way ⟨(s.geometry.locate a).block, kind⟩ line)
      ∨ s.find (s.geometry.locate a).index (s.geometry.locate a).tag kind = .ok none
        ∧ ¬s.Resident ⟨(s.geometry.locate a).block, kind⟩ := by
  rcases find_spec hs.shaped (Geometry.locate_index_lt a) (s.geometry.locate a).tag kind with
    ⟨way, line, hfind, hline, hholds⟩ | ⟨hfind, hnone⟩
  · obtain ⟨hvalid, htag, hkind⟩ := holds_iff.mp hholds
    refine .inl ⟨way, line, hfind, hline, hvalid, ?_, hkind⟩
    rw [htag]
    rfl
  · refine .inr ⟨hfind, ?_⟩
    intro hres
    obtain ⟨index, way, line, hc⟩ := hres
    obtain ⟨rfl, hholds⟩ := hc.place hs
    rw [hnone way line hc.here] at hholds
    cases hholds

theorem contains_spec (hs : s.Sound) (a : Nat) (kind : Kind) :
    ∃ found, s.contains a kind = .ok found
      ∧ (found = true ↔ s.Resident ⟨(s.geometry.locate a).block, kind⟩) := by
  rcases find_copy hs a kind with ⟨way, line, hfind, hc⟩ | ⟨hfind, hno⟩
  · refine ⟨true, ?_, fun _ => hc.resident, fun _ => rfl⟩
    rw [contains, hfind]
    rfl
  · refine ⟨false, ?_, fun h => Bool.noConfusion h, fun h => absurd h hno⟩
    rw [contains, hfind]
    rfl

theorem not_copyAt_empty {g : Geometry} {k : Kind} :
    ¬(LineStore.withData g k).CopyAt index way b line := by
  intro hc
  have hvalid := hc.valid
  rw [empty_line? hc.here] at hvalid
  cases hvalid

theorem not_resident_empty {g : Geometry} {k : Kind} : ¬(LineStore.withData g k).Resident b := by
  intro hres
  obtain ⟨index, way, line, hc⟩ := hres
  exact not_copyAt_empty hc

/-! ## A line is replaced -/

/-- The copies after a line was replaced: the new line, and the old copies elsewhere. -/
theorem copyAt_used (h : s.line? index way = some old) :
    (s.used index way new).CopyAt i v b line
      ↔ if i = index ∧ v = way then
          line = { new with recency := s.clock + 1 } ∧ new.valid = true
            ∧ s.geometry.blockStart new.tag index = b.address ∧ new.kind = b.kind
        else s.CopyAt i v b line := by
  have hline := line?_used h new i v
  split
  · next hiv =>
    obtain ⟨rfl, rfl⟩ := hiv
    rw [if_pos ⟨rfl, rfl⟩] at hline
    constructor
    · intro hc
      obtain ⟨hl, hvalid, haddress, hkind⟩ := hc
      rw [hline] at hl
      obtain rfl := Option.some.inj hl
      exact ⟨rfl, hvalid, haddress, hkind⟩
    · intro hnew
      obtain ⟨rfl, hvalid, haddress, hkind⟩ := hnew
      exact ⟨hline, hvalid, haddress, hkind⟩
  · next hiv =>
    rw [if_neg hiv] at hline
    constructor
    · exact fun hc => ⟨hline ▸ hc.here, hc.valid, hc.address, hc.kind⟩
    · exact fun hc => ⟨hline.trans hc.here, hc.valid, hc.address, hc.kind⟩

/-- A line may be replaced by the holder of a block that no other line holds. -/
theorem Sound.used (hs : s.Sound) (h : s.line? index way = some old)
    (htag : new.tag < twoPow s.geometry.tagBits)
    (hwords : new.words.length = s.geometry.wordsPerLine)
    (hnew : new.valid = true → ∀ i v line, ¬(i = index ∧ v = way) →
      ¬s.CopyAt i v ⟨s.geometry.blockStart new.tag index, new.kind⟩ line) :
    (s.used index way new).Sound where
  shaped := hs.shaped.used h hwords
  tag_lt := by
    intro i v line hl
    rw [line?_used h] at hl
    split at hl
    · rw [← Option.some.inj hl]; exact htag
    · exact hs.tag_lt i v line hl
  unique := by
    intro i v i' v' b line line' hc hc'
    rw [copyAt_used h] at hc hc'
    -- Each of the two copies is the new line or an old one.
    split at hc <;> split at hc'
    · next hiv hiv' => exact ⟨hiv.1.trans hiv'.1.symm, hiv.2.trans hiv'.2.symm⟩
    · next hiv' =>
      obtain ⟨-, hvalid, haddress, hkind⟩ := hc
      rw [haddress, hkind] at hnew
      exact absurd hc' (hnew hvalid _ _ _ hiv')
    · next hiv _ =>
      obtain ⟨-, hvalid, haddress, hkind⟩ := hc'
      rw [haddress, hkind] at hnew
      exact absurd hc (hnew hvalid _ _ _ hiv)
    · exact hs.unique hc hc'

/-- The copies after the line of a copy was replaced by one for the same block. -/
theorem copyAt_rewritten {b' : BlockRef} (hc : s.CopyAt index way b old) (htag : new.tag = old.tag)
    (hkind : new.kind = old.kind) (hvalid : new.valid = true) :
    (s.used index way new).CopyAt i v b' line
      ↔ if i = index ∧ v = way then line = { new with recency := s.clock + 1 } ∧ b' = b
        else s.CopyAt i v b' line := by
  rw [copyAt_used hc.here]
  split
  · rw [hvalid, htag, hkind]
    constructor
    · intro hnew
      obtain ⟨hline, -, haddress, hkind'⟩ := hnew
      exact ⟨hline, hc.block_eq ⟨hc.here, hc.valid, haddress, hkind'⟩⟩
    · intro hnew
      obtain ⟨hline, rfl⟩ := hnew
      exact ⟨hline, rfl, hc.address, hc.kind⟩
  · rfl

/-- What is resident stays resident, and nothing else becomes it. -/
theorem resident_rewritten {b' : BlockRef} (hc : s.CopyAt index way b old)
    (htag : new.tag = old.tag) (hkind : new.kind = old.kind) (hvalid : new.valid = true) :
    (s.used index way new).Resident b' ↔ s.Resident b' := by
  constructor
  · intro hres
    obtain ⟨i, v, line, h⟩ := hres
    rw [copyAt_rewritten hc htag hkind hvalid] at h
    split at h
    · rw [h.2]; exact hc.resident
    · exact h.resident
  · intro hres
    obtain ⟨i, v, line, h⟩ := hres
    by_cases hiv : i = index ∧ v = way
    · obtain ⟨rfl, rfl⟩ := hiv
      refine ⟨i, v, { new with recency := s.clock + 1 }, ?_⟩
      rw [copyAt_rewritten hc htag hkind hvalid, if_pos ⟨rfl, rfl⟩]
      exact ⟨rfl, hc.block_eq h⟩
    · refine ⟨i, v, line, ?_⟩
      rw [copyAt_rewritten hc htag hkind hvalid, if_neg hiv]
      exact h

end LineStore

/-! ## Lines and memories -/

open LineStore

/-- What the lines hold and what the memories hold makes up `contents`: the word of each
position of each path. -/
structure Coherent (size : Kind → Nat) (s : LineStore) (memories : PerKind Port)
    (contents : Kind → Nat → Word) : Prop where
  sound : s.Sound
  fits : ∀ kind, (memories.get kind).Fits s.geometry
  size_eq : ∀ kind, (memories.get kind).memory.sizeBytes = size kind
  inside : ∀ {i v b line}, s.CopyAt i v b line → b.address + s.geometry.lineBytes ≤ size b.kind
  agree : ∀ {i v kind j line}, s.CopyAt i v ⟨s.geometry.home j, kind⟩ line →
    line.words[j % s.geometry.wordsPerLine]? = some (contents kind j)
  stored : ∀ {kind j}, s.geometry.home j < size kind →
    (∀ i v line, s.CopyAt i v ⟨s.geometry.home j, kind⟩ line → line.dirty = false) →
    (memories.get kind).memory.words[j]? = some (contents kind j)

namespace Coherent

variable {size : Kind → Nat} {s : LineStore} {memories : PerKind Port}
  {contents contents' : Kind → Nat → Word} {index way : Nat} {b : BlockRef} {kind : Kind}
  {line old new : Line}

/-- Without any block, the contents are those of the memories. -/
theorem empty {g : Geometry} {memories : PerKind Port} (kind : Kind)
    (hfits : ∀ kind, (memories.get kind).Fits g) :
    Coherent (fun kind => (memories.get kind).memory.sizeBytes) (LineStore.withData g kind) memories
      (fun kind j => (memories.get kind).memory.words[j]?.getD 0) := by
  refine ⟨⟨empty_shaped g kind g.wordsPerLine, ?_, fun h => absurd h not_copyAt_empty⟩, hfits,
    fun _ => rfl, fun h => absurd h not_copyAt_empty, fun h => absurd h not_copyAt_empty, ?_⟩
  · intro i v line hl
    rw [empty_line? hl]
    exact twoPow_pos _
  · intro k j hj _
    have hlt := Geometry.add_lineBytes_le (g.home_dvd j) (hfits k).wholeLines hj
    have hrange := ((hfits k).range (g.home_dvd j) hlt).2
    have hword := g.home_word j
    have hmod := Nat.mod_lt j g.wordsPerLine_pos
    rw [Array.getElem?_eq_getElem (by omega), Option.getD_some]

/-- A block that starts inside a memory lies inside it. -/
theorem inside_of_lt (h : Coherent size s memories contents) {block : Nat}
    (hd : s.geometry.lineBytes ∣ block) (hlt : block < size kind) :
    block + s.geometry.lineBytes ≤ size kind := by
  have hwhole := (h.fits kind).wholeLines
  rw [h.size_eq] at hwhole
  exact Geometry.add_lineBytes_le hd hwhole hlt

/-- The positions of a block that lies in memory are positions of the memory. -/
theorem range (h : Coherent size s memories contents) {block : Nat}
    (hd : s.geometry.lineBytes ∣ block) (hlt : block < size kind) :
    block / s.geometry.word.bytes + s.geometry.wordsPerLine
      ≤ (memories.get kind).memory.words.size := by
  have hi := h.inside_of_lt hd hlt
  rw [← h.size_eq kind] at hi
  exact ((h.fits kind).range hd hi).2

theorem lt_size (h : Coherent size s memories contents) (hc : s.CopyAt index way b line) :
    b.address < size b.kind :=
  Nat.lt_of_lt_of_le (Nat.lt_add_of_pos_right s.geometry.lineBytes_pos) (h.inside hc)

/-- A clean line has the words of its block in memory. -/
theorem clean_eq (h : Coherent size s memories contents) (hc : s.CopyAt index way b line)
    (hclean : line.dirty = false) {j : Nat} (hj : s.geometry.home j = b.address) :
    (memories.get b.kind).memory.words[j]? = some (contents b.kind j) := by
  apply h.stored (by rw [hj]; exact h.lt_size hc)
  intro i v line' hc'
  rw [hj] at hc'
  rw [h.sound.same hc hc', hclean]

/-- The words of a line are the contents of its block. -/
theorem words_eq (h : Coherent size s memories contents) (hc : s.CopyAt index way b line) {j : Nat}
    (hj : s.geometry.home j = b.address) :
    line.words[j % s.geometry.wordsPerLine]? = some (contents b.kind j) := by
  apply h.agree (i := index) (v := way)
  rw [hj]
  exact hc

/-- The words of a block of which there is no copy are in memory. -/
theorem slice_eq (h : Coherent size s memories contents) (hno : ¬s.Resident b)
    (hlt : b.address < size b.kind) {j : Nat} (hj : s.geometry.home j = b.address) :
    ((memories.get b.kind).memory.slice (b.address / s.geometry.word.bytes)
        s.geometry.wordsPerLine)[j % s.geometry.wordsPerLine]? = some (contents b.kind j) := by
  have hmod := Nat.mod_lt j s.geometry.wordsPerLine_pos
  have hword := s.geometry.home_word j
  rw [hj] at hword
  rw [Memory.getElem?_slice, if_pos hmod, hword]
  apply h.stored (by rw [hj]; exact hlt)
  intro i v line hc
  rw [hj] at hc
  exact absurd hc.resident hno

/-- Memory has the words of a clean line in their order. -/
theorem readBlock_eq (h : Coherent size s memories contents) (hc : s.CopyAt index way b line)
    (hclean : line.dirty = false) :
    (memories.get b.kind).memory.readBlock b.address s.geometry.wordsPerLine = .ok line.words := by
  have hd := h.sound.dvd hc
  have hrange := h.range hd (h.lt_size hc)
  have hin := h.inside hc
  rw [← h.size_eq] at hin
  have hread := Memory.readWords_eq hrange
    (by rw [(h.fits b.kind).wordBytes]; exact Port.space_of_le hd (h.sound.le_span hc))
  rw [(h.fits b.kind).wordBytes, ((h.fits b.kind).range hd hin).1] at hread
  rw [Memory.readBlock, (h.fits b.kind).wordBytes, hread]
  congr 1
  -- word by word, both are the contents
  apply List.ext_getElem?
  intro o
  rw [Memory.getElem?_slice]
  have hlen := h.sound.shaped.words _ _ _ hc.here
  by_cases ho : o < s.geometry.wordsPerLine
  · have hhome := (Geometry.home_eq_iff (j := b.address / s.geometry.word.bytes + o) hd).mpr
      ⟨Nat.le_add_right _ _, Nat.add_lt_add_left ho _⟩
    have hagree := h.words_eq hc hhome
    have hword := s.geometry.home_word (b.address / s.geometry.word.bytes + o)
    rw [hhome] at hword
    rw [if_pos ho, h.clean_eq hc hclean hhome, ← hagree]
    congr 1
    exact Nat.add_left_cancel hword
  · rw [if_neg ho, List.getElem?_eq_none (by omega)]

/-- The word of a block of which there is no copy can be read from memory. -/
theorem readWord_eq (h : Coherent size s memories contents) {a : Nat}
    (hlt : a % s.geometry.span < size kind)
    (hno : ¬s.Resident ⟨(s.geometry.locate a).block, kind⟩) :
    (memories.get kind).memory.readWord (s.geometry.wordIndex a * s.geometry.word.bytes)
      = .ok (contents kind (s.geometry.wordIndex a)) := by
  have hhome := s.geometry.home_wordIndex a
  have hword : (memories.get kind).memory.words[s.geometry.wordIndex a]?
      = some (contents kind (s.geometry.wordIndex a)) := by
    apply h.stored
    · rw [hhome]
      exact Nat.lt_of_le_of_lt (Geometry.locate_block_le_self a) hlt
    · intro i v line hc
      rw [hhome] at hc
      exact absurd hc.resident hno
  obtain ⟨hi, hget⟩ := Array.getElem?_eq_some_iff.mp hword
  rw [← (h.fits kind).wordBytes, Memory.readWord_eq hi, hget]

/-! ## Uses of a line -/

/-- The block in a line gets other words. Where they differ from the contents so far, the line
has to be dirty. -/
theorem rewrite (h : Coherent size s memories contents) (hc : s.CopyAt index way b old)
    (htag : new.tag = old.tag) (hkind : new.kind = old.kind) (hvalid : new.valid = true)
    (hlength : new.words.length = s.geometry.wordsPerLine)
    (hwords : ∀ j, s.geometry.home j = b.address →
      new.words[j % s.geometry.wordsPerLine]? = some (contents' b.kind j))
    (hother : ∀ kind j, ¬(kind = b.kind ∧ s.geometry.home j = b.address) →
      contents' kind j = contents kind j)
    (hdirty : new.dirty = true ∨ new.dirty = old.dirty ∧ contents' = contents) :
    Coherent size (s.used index way new) memories contents' where
  sound := by
    apply h.sound.used hc.here (by rw [htag]; exact h.sound.tag_lt _ _ _ hc.here) hlength
    intro _ i v line hiv hc'
    rw [htag, hkind, hc.address, hc.kind] at hc'
    exact hiv (h.sound.unique hc' hc)
  fits := h.fits
  size_eq := h.size_eq
  inside := by
    intro i v b' line hc'
    rw [copyAt_rewritten hc htag hkind hvalid] at hc'
    split at hc'
    · rw [hc'.2]; exact h.inside hc
    · exact h.inside hc'
  agree := by
    intro i v kind j line hc'
    rw [copyAt_rewritten hc htag hkind hvalid] at hc'
    split at hc'
    · obtain ⟨rfl, rfl⟩ := hc'
      exact hwords j rfl
    · next hiv =>
      rw [hother]
      · exact h.agree hc'
      · -- a copy of this block elsewhere would be a second one
        intro hb
        obtain ⟨rfl, hj⟩ := hb
        apply hiv
        have hhome : s.CopyAt index way ⟨s.geometry.home j, b.kind⟩ old := by rw [hj]; exact hc
        exact h.sound.unique hc' hhome
  stored := by
    intro kind j hj hclean
    by_cases hb : kind = b.kind ∧ s.geometry.home j = b.address
    · obtain ⟨rfl, hj'⟩ := hb
      have hnew : new.dirty = false := by
        apply hclean index way { new with recency := s.clock + 1 }
        rw [copyAt_rewritten hc htag hkind hvalid, if_pos ⟨rfl, rfl⟩]
        refine ⟨rfl, ?_⟩
        show BlockRef.mk (s.geometry.home j) b.kind = b
        rw [hj']
      -- The new line is clean, so its words are not new.
      rcases hdirty with hd | ⟨hd, rfl⟩
      · rw [hnew] at hd; cases hd
      · exact h.clean_eq hc (hd ▸ hnew) hj'
    · rw [hother kind j hb]
      apply h.stored hj
      intro i v line hc'
      apply hclean i v line
      rw [copyAt_rewritten hc htag hkind hvalid, if_neg]
      · exact hc'
      · intro hiv
        obtain ⟨rfl, rfl⟩ := hiv
        apply hb
        obtain rfl := hc.block_eq hc'
        exact ⟨rfl, rfl⟩

/-- Stamps say nothing about contents. -/
theorem of_stamps (h : Coherent size s memories contents) {t : LineStore}
    (hg : t.geometry = s.geometry) (hshaped : t.Shaped s.geometry.wordsPerLine)
    (hto : ∀ i v line, t.line? i v = some line →
      ∃ stamp, s.line? i v = some { line with recency := stamp })
    (hfrom : ∀ i v line, s.line? i v = some line →
      ∃ stamp, t.line? i v = some { line with recency := stamp }) :
    Coherent size t memories contents := by
  have hcopy : ∀ {i v b line}, t.CopyAt i v b line →
      ∃ stamp, s.CopyAt i v b { line with recency := stamp } := by
    intro i v b line hc
    obtain ⟨stamp, hl⟩ := hto i v line hc.here
    exact ⟨stamp, hl, hc.valid, hg ▸ hc.address, hc.kind⟩
  constructor
  case sound =>
    refine ⟨hg.symm ▸ hshaped, ?_, ?_⟩
    · intro i v line hl
      obtain ⟨stamp, hl⟩ := hto i v line hl
      have hlt := h.sound.tag_lt i v _ hl
      rw [hg]
      exact hlt
    · intro i v i' v' b line line' hc hc'
      obtain ⟨_, hc⟩ := hcopy hc
      obtain ⟨_, hc'⟩ := hcopy hc'
      exact h.sound.unique hc hc'
  case fits => exact hg.symm ▸ h.fits
  case size_eq => exact h.size_eq
  case inside =>
    intro i v b line hc
    obtain ⟨_, hc⟩ := hcopy hc
    rw [hg]
    exact h.inside hc
  case agree =>
    intro i v kind j line hc
    obtain ⟨_, hc⟩ := hcopy hc
    rw [hg] at hc ⊢
    have hagree := h.agree hc
    exact hagree
  case stored =>
    intro kind j hj hclean
    rw [hg] at hj hclean
    apply h.stored hj
    intro i v line hc
    obtain ⟨stamp, hl⟩ := hfrom i v line hc.here
    exact hclean i v { line with recency := stamp } ⟨hl, hc.valid, hg.symm ▸ hc.address, hc.kind⟩

/-- A line may be replaced without being stamped. -/
theorem unstamped (hl : s.line? index way = some old)
    (hlen : new.words.length = old.words.length) (hs : s.Shaped s.geometry.wordsPerLine)
    (h : Coherent size (s.used index way new) memories contents) :
    Coherent size (s.withLine index way new) memories contents := by
  have hused := line?_used hl new
  have hput := line?_withLine hl new
  refine h.of_stamps rfl (hs.withLine hl new (hlen.trans (hs.words _ _ _ hl))) ?_ ?_
  · intro i v line hline
    rw [hput] at hline
    rw [hused]
    split at hline
    · next hiv => exact ⟨s.clock + 1, by rw [if_pos hiv, Option.some.inj hline]⟩
    · next hiv => exact ⟨line.recency, by rw [if_neg hiv]; exact hline⟩
  · intro i v line hline
    rw [hused] at hline
    rw [hput]
    split at hline
    · next hiv => exact ⟨new.recency, by rw [if_pos hiv, ← Option.some.inj hline]⟩
    · next hiv => exact ⟨line.recency, by rw [if_neg hiv]; exact hline⟩

/-- A use of a line changes nothing. -/
theorem touch (h : Coherent size s memories contents) (hc : s.CopyAt index way b old) :
    Coherent size (s.used index way old) memories contents :=
  h.rewrite hc rfl rfl hc.valid (h.sound.shaped.words _ _ _ hc.here) (fun _ hj => h.words_eq hc hj)
    (fun _ _ _ => rfl) (.inr ⟨rfl, rfl⟩)

/-- A word that is stored in a line becomes the contents at its position. -/
theorem write (h : Coherent size s memories contents) (hc : s.CopyAt index way b old) {i : Nat}
    (hi : s.geometry.home i = b.address) (word : Word) :
    Coherent size
      (s.used index way { old with
        words := old.words.set (i % s.geometry.wordsPerLine) word, dirty := true })
      memories (fun kind j => if kind = b.kind ∧ j = i then word else contents kind j) := by
  have hlen := h.sound.shaped.words _ _ _ hc.here
  have hlt := Nat.mod_lt i s.geometry.wordsPerLine_pos
  refine h.rewrite hc rfl rfl hc.valid ?_ ?_ ?_ (.inl rfl)
  · rw [List.length_set]; exact hlen
  · intro j hj
    show (old.words.set _ word)[_]? = _
    by_cases hji : j = i
    · subst hji
      rw [List.getElem?_set_self (by rw [hlen]; exact hlt), if_pos ⟨rfl, rfl⟩]
    · -- two words of one block differ in their offsets
      have hne : i % s.geometry.wordsPerLine ≠ j % s.geometry.wordsPerLine := by
        intro heq
        have hwi := s.geometry.home_word i
        have hwj := s.geometry.home_word j
        rw [hi] at hwi
        rw [hj] at hwj
        omega
      rw [List.getElem?_set_ne hne, if_neg fun h => hji h.2]
      exact h.words_eq hc hj
  · intro kind j hj
    rw [if_neg]
    intro hk
    exact hj ⟨hk.1, hk.2 ▸ hi⟩

/-! ## Replacement of a block -/

/-- A memory may change where it has the contents afterwards. -/
theorem withPort (h : Coherent size s memories contents) {port : Port}
    (hbytes : port.memory.wordBytes = (memories.get kind).memory.wordBytes)
    (hsize : port.memory.sizeBytes = (memories.get kind).memory.sizeBytes)
    (hstored : ∀ j, s.geometry.home j < size kind →
      (∀ i v line, s.CopyAt i v ⟨s.geometry.home j, kind⟩ line → line.dirty = false) →
      port.memory.words[j]? = some (contents kind j)) :
    Coherent size s (memories.set kind port) contents where
  sound := h.sound
  fits := by
    apply PerKind.forall_get_set (P := fun _ (p : Port) => p.Fits s.geometry)
    · exact ⟨hbytes.trans (h.fits kind).wordBytes, hsize ▸ (h.fits kind).wholeLines⟩
    · exact fun k _ => h.fits k
  size_eq := by
    apply PerKind.forall_get_set (P := fun k (p : Port) => p.memory.sizeBytes = size k)
    · exact hsize.trans (h.size_eq kind)
    · exact fun k _ => h.size_eq k
  inside := h.inside
  agree := h.agree
  stored := by
    intro k j
    apply PerKind.forall_get_set (P := fun k (p : Port) => s.geometry.home j < size k →
      (∀ i v line, s.CopyAt i v ⟨s.geometry.home j, k⟩ line → line.dirty = false) →
      p.memory.words[j]? = some (contents k j))
    · exact hstored j
    · exact fun k _ => h.stored

/-- Before a line is given up, its block is written back if it is dirty. Then memory has the
contents of the block. -/
theorem writeBack (h : Coherent size s memories contents) (hl : s.line? index way = some old) :
    ∃ wrote? port, (memories.get old.kind).writeBack s.geometry index old = .ok (wrote?, port)
      ∧ Coherent size s (memories.set old.kind port) contents
      ∧ (old.valid = true → ∀ j, s.geometry.home j = s.geometry.blockStart old.tag index →
          port.memory.words[j]? = some (contents old.kind j)) := by
  by_cases hdirty : old.needsWriteBack = true
  · obtain ⟨hvalid, -⟩ := Bool.and_eq_true_iff.mp hdirty
    have hc : s.CopyAt index way ⟨s.geometry.blockStart old.tag index, old.kind⟩ old :=
      ⟨hl, hvalid, rfl, rfl⟩
    have hlen := h.sound.shaped.words _ _ _ hl
    have hd := h.sound.dvd hc
    have hrange := h.range hd (h.lt_size hc)
    have hwrite := Port.writeBack_dirty (h.fits old.kind) hdirty hlen rfl hd (h.sound.le_span hc)
      (by rw [h.size_eq]; exact h.inside hc)
    -- the words of the block come from the line, all others stay
    have hput : ∀ j, ((memories.get old.kind).memory.put
          (s.geometry.blockStart old.tag index / s.geometry.word.bytes) old.words).words[j]?
        = if s.geometry.home j = s.geometry.blockStart old.tag index then
            some (contents old.kind j)
          else (memories.get old.kind).memory.words[j]? := by
      intro j
      rw [Memory.getElem?_put (by rw [hlen]; exact hrange), hlen]
      by_cases hj : s.geometry.home j = s.geometry.blockStart old.tag index
      · rw [if_pos ((Geometry.home_eq_iff hd).mp hj), if_pos hj, ← h.words_eq hc hj]
        congr 1
        have hword := s.geometry.home_word j
        rw [hj] at hword
        omega
      · rw [if_neg fun hr => hj ((Geometry.home_eq_iff hd).mpr hr), if_neg hj]
    refine ⟨_, _, hwrite, ?_, ?_⟩
    · apply h.withPort
      · rw [Port.note_memory]; rfl
      · rw [Port.note_memory]; exact Memory.put_sizeBytes _ _ _
      · intro j hj hclean
        rw [Port.note_memory]
        refine (hput j).trans ?_
        split
        · rfl
        · exact h.stored hj hclean
    · intro _ j hj
      rw [Port.note_memory]
      exact (hput j).trans (if_pos hj)
  · refine ⟨none, _, Port.writeBack_clean (Bool.not_eq_true _ ▸ hdirty) index, ?_, ?_⟩
    · rw [PerKind.set_get_self]
      exact h
    · intro hvalid j hj
      have hc : s.CopyAt index way ⟨s.geometry.blockStart old.tag index, old.kind⟩ old :=
        ⟨hl, hvalid, rfl, rfl⟩
      apply h.clean_eq hc _ hj
      rw [Line.needsWriteBack, hvalid, Bool.true_and] at hdirty
      exact Bool.not_eq_true _ ▸ hdirty

/-- A line whose block memory has can be given to another block, with the words of that block. -/
theorem claim (h : Coherent size s memories contents) (hl : s.line? index way = some old)
    (hsaved : old.valid = true → ∀ j, s.geometry.home j = s.geometry.blockStart old.tag index →
      (memories.get old.kind).memory.words[j]? = some (contents old.kind j))
    (hno : ¬s.Resident b) (hin : b.address + s.geometry.lineBytes ≤ size b.kind)
    (htag : new.tag < twoPow s.geometry.tagBits)
    (haddress : s.geometry.blockStart new.tag index = b.address) (hkind : new.kind = b.kind)
    (hlength : new.words.length = s.geometry.wordsPerLine)
    (hwords : ∀ j, s.geometry.home j = b.address →
      new.words[j % s.geometry.wordsPerLine]? = some (contents b.kind j)) :
    Coherent size (s.used index way new) memories contents where
  sound := by
    apply h.sound.used hl htag hlength
    intro _ i v line _ hc
    rw [haddress, hkind] at hc
    exact hno hc.resident
  fits := h.fits
  size_eq := h.size_eq
  inside := by
    intro i v b' line hc
    rw [copyAt_used hl] at hc
    split at hc
    · obtain ⟨-, -, haddress', hkind'⟩ := hc
      rw [← haddress', ← hkind', haddress, hkind]
      exact hin
    · exact h.inside hc
  agree := by
    intro i v kind j line hc
    rw [copyAt_used hl] at hc
    split at hc
    · obtain ⟨rfl, -, haddress', hkind'⟩ := hc
      have hk : kind = b.kind := hkind'.symm.trans hkind
      subst hk
      exact hwords j (haddress'.symm.trans haddress)
    · exact h.agree hc
  stored := by
    intro kind j hj hall
    -- The line given up may have been dirty, but its block is in memory.
    by_cases hold : s.CopyAt index way ⟨s.geometry.home j, kind⟩ old
    · have hk : old.kind = kind := hold.kind
      subst hk
      exact hsaved hold.valid j hold.address.symm
    · apply h.stored hj
      intro i v line hc
      apply hall i v line
      rw [copyAt_used hl, if_neg]
      · exact hc
      · intro hiv
        obtain ⟨rfl, rfl⟩ := hiv
        apply hold
        rw [← Option.some.inj (hc.here.symm.trans hl)]
        exact hc

/-- Replacing changes no contents. Afterwards the block is here, and no other block has come. -/
theorem replace (h : Coherent size s memories contents) (a : Nat) (kind : Kind)
    (hno : ¬s.Resident ⟨(s.geometry.locate a).block, kind⟩)
    (hlt : (s.geometry.locate a).block < size kind) :
    Ends (L2.replace s (s.geometry.locate a) kind memories) s.Exhausted fun r =>
      Coherent size r.2.1 r.2.2 contents ∧ r.2.1.geometry = s.geometry
        ∧ r.2.1.clock = s.clock + 1 ∧ r.2.1.Resident ⟨(s.geometry.locate a).block, kind⟩
        ∧ ∀ b, r.2.1.Resident b → b = ⟨(s.geometry.locate a).block, kind⟩ ∨ s.Resident b := by
  have hshaped := h.sound.shaped
  have hd := s.geometry.locate_block_dvd a
  obtain ⟨way, old, hvictim, hl⟩ := victim_spec hshaped (Geometry.locate_index_lt a)
  obtain ⟨wrote?, port, hwrite, hcoh, hsaved⟩ := h.writeBack hl
  have hin := h.inside_of_lt hd hlt
  have hfetch := Port.fetch_eq (hcoh.fits kind) hd (Geometry.locate_block_le a)
    (by rw [hcoh.size_eq]; exact hin)
  have hslice := Memory.length_slice (hcoh.range hd hlt)
  -- the line as it is in the end, and the line before the words are there
  let new : Line := { old.claim (s.geometry.locate a).tag kind with
    words := ((memories.set old.kind port).get kind).memory.slice
      ((s.geometry.locate a).block / s.geometry.word.bytes) s.geometry.wordsPerLine }
  have hlen : old.words.length = s.geometry.wordsPerLine := hshaped.words _ _ _ hl
  have hput := putWords_used hshaped hl (old.claim (s.geometry.locate a).tag kind) hlen new.words
  have hclaim : Coherent size (s.used (s.geometry.locate a).index way new)
      (memories.set old.kind port) contents :=
    hcoh.claim (b := ⟨(s.geometry.locate a).block, kind⟩) hl
      (by rw [PerKind.get_set_self]; exact hsaved) hno hin (Geometry.locate_tag_lt a) rfl rfl hslice
      (fun j hj => hcoh.slice_eq hno hlt hj)
  rw [L2.replace]
  apply Ends.bind_ok hvictim
  apply Ends.bind_ok (line_eq hshaped hl)
  apply Ends.bind_ok hwrite
  apply Ends.bind' (install_spec hshaped hl _ _)
  intro installed hinstalled
  subst hinstalled
  apply Ends.bind_ok hfetch
  apply Ends.bind_ok hput
  refine Ends.pure' ⟨?_, rfl, rfl, ?_, ?_⟩
  · apply hclaim.withPort
    · rw [Port.note_memory]
    · rw [Port.note_memory]
    · intro j hj hclean
      rw [Port.note_memory]
      exact hclaim.stored hj hclean
  · refine ⟨(s.geometry.locate a).index, way, { new with recency := s.clock + 1 }, ?_⟩
    rw [copyAt_used hl, if_pos ⟨rfl, rfl⟩]
    exact ⟨rfl, rfl, rfl, rfl⟩
  · intro b hres
    obtain ⟨i, v, line, hc⟩ := hres
    rw [copyAt_used hl] at hc
    split at hc
    · obtain ⟨-, -, haddress, hkind⟩ := hc
      exact .inl (BlockRef.eq_of haddress.symm hkind.symm)
    · exact .inr hc.resident

end Coherent

end MemoryHierarchy
