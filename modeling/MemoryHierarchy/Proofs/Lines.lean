import MemoryHierarchy.LineTransfer
import MemoryHierarchy.Proofs.Placement
import MemoryHierarchy.Proofs.Run

/-!
The lines of a store, one by one.

`line?` looks a line up, `withLine` replaces it, and `used` replaces and stamps it. In a store
that has all its sets and ways (`Shaped`) every operation on an existing line is one of these,
and the only fault left is a clock that has no next value (`touch_spec`, `install_spec`).
-/

namespace MemoryHierarchy.LineStore

/-- The line in way `way` of set `index`, if there is one. -/
def line? (s : LineStore) (index way : Nat) : Option Line := s.sets[index]?.bind (·[way]?)

/-- Replaces the line in way `way` of set `index`. -/
def withLine (s : LineStore) (index way : Nat) (line : Line) : LineStore :=
  s.putSet index ((s.sets[index]?.getD []).set way line)

/-- Replaces the line in way `way` of set `index` and stamps it as just used. -/
def used (s : LineStore) (index way : Nat) (line : Line) : LineStore :=
  { s.withLine index way { line with recency := s.clock + 1 } with clock := s.clock + 1 }

/-- Every set is there with all its ways, and every line has `n` data words. -/
structure Shaped (s : LineStore) (n : Nat) : Prop where
  sets : s.sets.size = s.geometry.sets
  ways : ∀ (i : Nat) (lines : List Line), s.sets[i]? = some lines → lines.length = s.geometry.ways
  words : ∀ i v line, s.line? i v = some line → line.words.length = n

/-- The clock has no next value. -/
def Exhausted (s : LineStore) (f : Fault) : Prop := f = .overflow ∧ UInt64.size ≤ s.clock + 1

variable {s : LineStore} {n index way tag : Nat} {kind : Kind} {line old : Line}

theorem line?_eq_some_iff : s.line? index way = some line ↔
    ∃ lines, s.sets[index]? = some lines ∧ lines[way]? = some line := by
  rw [line?, Option.bind_eq_some_iff]

theorem line?_withLine (h : s.line? index way = some old) (line : Line) (i v : Nat) :
    (s.withLine index way line).line? i v
      = if i = index ∧ v = way then some line else s.line? i v := by
  obtain ⟨lines, hs, hl⟩ := line?_eq_some_iff.mp h
  have hi : index < s.sets.size := (Array.getElem?_eq_some_iff.mp hs).1
  have hw : way < lines.length := (List.getElem?_eq_some_iff.mp hl).1
  rw [line?, withLine, putSet, hs, Option.getD_some]
  -- first the set, then the way within it
  by_cases hij : i = index
  · subst hij
    rw [Array.getElem?_setIfInBounds_self_of_lt hi, Option.bind_some]
    by_cases hvw : v = way
    · subst hvw
      rw [if_pos ⟨rfl, rfl⟩, List.getElem?_set_self hw]
    · rw [if_neg fun h => hvw h.2, List.getElem?_set_ne (Ne.symm hvw), line?, hs, Option.bind_some]
  · rw [if_neg fun h => hij h.1, Array.getElem?_setIfInBounds_ne (Ne.symm hij), line?]

theorem withLine_withLine (h : s.line? index way = some old) (a b : Line) :
    (s.withLine index way a).withLine index way b = s.withLine index way b := by
  obtain ⟨lines, hs, -⟩ := line?_eq_some_iff.mp h
  have hi : index < s.sets.size := (Array.getElem?_eq_some_iff.mp hs).1
  simp only [withLine, putSet, Array.getElem?_setIfInBounds_self_of_lt hi, hs, Option.getD_some,
    List.set_set, Array.setIfInBounds_setIfInBounds]

/-- A line may be put where it is already. -/
theorem withLine_self (h : s.line? index way = some line) : s.withLine index way line = s := by
  obtain ⟨lines, hs, hl⟩ := line?_eq_some_iff.mp h
  obtain ⟨hi, rfl⟩ := Array.getElem?_eq_some_iff.mp hs
  obtain ⟨hw, rfl⟩ := List.getElem?_eq_some_iff.mp hl
  simp [withLine, putSet, Array.setIfInBounds, hi]

theorem used_withLine (h : s.line? index way = some old) (a b : Line) :
    (s.withLine index way a).used index way b = s.used index way b :=
  congrArg (fun t : LineStore => { t with clock := s.clock + 1 }) (withLine_withLine h a _)

/-- A line that was replaced and stamped can be replaced again. -/
theorem withLine_used (h : s.line? index way = some old) (a b : Line) :
    (s.used index way a).withLine index way { b with recency := s.clock + 1 }
      = s.used index way b :=
  congrArg (fun t : LineStore => { t with clock := s.clock + 1 }) (withLine_withLine h _ _)

theorem line?_used (h : s.line? index way = some old) (line : Line) (i v : Nat) :
    (s.used index way line).line? i v
      = if i = index ∧ v = way then some { line with recency := s.clock + 1 } else s.line? i v :=
  line?_withLine h _ i v

/-- Replacing a line replaces one of the lines of the store. -/
theorem lines_withLine (h : s.line? index way = some old) (line : Line) :
    ∃ front back, s.lines = front ++ old :: back
      ∧ (s.withLine index way line).lines = front ++ line :: back := by
  obtain ⟨lines, hs, hl⟩ := line?_eq_some_iff.mp h
  obtain ⟨hi, rfl⟩ := Array.getElem?_eq_some_iff.mp hs
  obtain ⟨hw, rfl⟩ := List.getElem?_eq_some_iff.mp hl
  -- the sets around the one that changes, and in it the lines around the one that changes
  obtain ⟨before, after, hsets, -, hset⟩ : ∃ before after,
      s.sets.toList = before ++ s.sets[index] :: after ∧ before.length = index
        ∧ s.sets.toList.set index (s.sets[index].set way line)
          = before ++ s.sets[index].set way line :: after := List.exists_of_set hi
  obtain ⟨left, right, hlines, -, hline⟩ : ∃ left right,
      s.sets[index] = left ++ s.sets[index][way] :: right ∧ left.length = way
        ∧ s.sets[index].set way line = left ++ line :: right := List.exists_of_set hw
  refine ⟨before.flatten ++ left, right ++ after.flatten, ?_, ?_⟩
  · rw [LineStore.lines, hsets, List.flatten_append, List.flatten_cons]
    nth_rewrite 1 [hlines]
    simp only [List.append_assoc, List.cons_append]
  · rw [LineStore.lines, withLine, putSet, Array.toList_setIfInBounds, hs, Option.getD_some, hset,
      hline, List.flatten_append, List.flatten_cons]
    simp only [List.append_assoc, List.cons_append]

/-! ## Shape -/

theorem empty_line? {g : Geometry} (h : (LineStore.empty g kind n).line? index way = some line) :
    line = Line.empty kind n := by
  obtain ⟨lines, hs, hl⟩ := line?_eq_some_iff.mp h
  rw [empty, Array.getElem?_replicate] at hs
  split at hs
  · obtain rfl := Option.some.inj hs
    rw [List.getElem?_replicate] at hl
    split at hl
    · exact (Option.some.inj hl).symm
    · cases hl
  · cases hs

theorem empty_shaped (g : Geometry) (kind : Kind) (n : Nat) :
    (LineStore.empty g kind n).Shaped n where
  sets := Array.size_replicate
  ways := by
    intro i lines h
    rw [empty, Array.getElem?_replicate] at h
    split at h
    · rw [← Option.some.inj h, List.length_replicate]
      rfl
    · cases h
  words := by
    intro i v line h
    rw [empty_line? h, Line.empty, List.length_replicate]

theorem Shaped.withLine (hs : s.Shaped n) (h : s.line? index way = some old) (line : Line)
    (hw : line.words.length = n) : (s.withLine index way line).Shaped n where
  sets := by rw [LineStore.withLine, putSet, Array.size_setIfInBounds]; exact hs.sets
  ways := by
    intro i lines hi
    obtain ⟨lines₀, hs₀, -⟩ := line?_eq_some_iff.mp h
    have hlt : index < s.sets.size := (Array.getElem?_eq_some_iff.mp hs₀).1
    rw [LineStore.withLine, putSet, hs₀, Option.getD_some] at hi
    by_cases hij : i = index
    · subst hij
      rw [Array.getElem?_setIfInBounds_self_of_lt hlt] at hi
      rw [← Option.some.inj hi, List.length_set]
      exact hs.ways i lines₀ hs₀
    · rw [Array.getElem?_setIfInBounds_ne (Ne.symm hij)] at hi
      exact hs.ways i lines hi
  words := by
    intro i v l hl
    rw [line?_withLine h] at hl
    split at hl
    · rw [← Option.some.inj hl]; exact hw
    · exact hs.words i v l hl

theorem Shaped.used (hs : s.Shaped n) (h : s.line? index way = some old)
    (hw : line.words.length = n) : (s.used index way line).Shaped n := by
  have hl := hs.withLine h { line with recency := s.clock + 1 } hw
  exact ⟨hl.sets, hl.ways, hl.words⟩

theorem Shaped.index_lt (hs : s.Shaped n) (h : s.line? index way = some line) :
    index < s.geometry.sets := by
  obtain ⟨lines, hl, -⟩ := line?_eq_some_iff.mp h
  rw [← hs.sets]
  exact (Array.getElem?_eq_some_iff.mp hl).1

/-! ## Operations -/

theorem set_eq (hs : s.Shaped n) (hi : index < s.geometry.sets) :
    ∃ lines, s.sets[index]? = some lines ∧ lines.length = s.geometry.ways
      ∧ s.set index = .ok lines := by
  have hlt : index < s.sets.size := by rw [hs.sets]; exact hi
  have hget := Array.getElem?_eq_getElem hlt
  have hbound : (index + 1) * s.geometry.ways < UInt64.size :=
    Nat.lt_of_le_of_lt (Nat.mul_le_mul_right _ hi) s.geometry.sets_mul_ways_lt
  refine ⟨_, hget, hs.ways _ _ hget, ?_⟩
  rw [set, if_pos hbound]
  exact inBounds_eq_ok.mpr hget

/-- The set of an existing line. -/
theorem set_of_line? (hs : s.Shaped n) (h : s.line? index way = some line) :
    ∃ lines, s.set index = .ok lines ∧ lines[way]? = some line
      ∧ ∀ l, s.putSet index (lines.set way l) = s.withLine index way l := by
  obtain ⟨lines, hget, -, hset⟩ := set_eq hs (hs.index_lt h)
  rw [line?, hget, Option.bind_some] at h
  refine ⟨lines, hset, h, fun l => ?_⟩
  rw [withLine, hget, Option.getD_some]

theorem line_eq (hs : s.Shaped n) (h : s.line? index way = some line) :
    s.line index way = .ok line := by
  obtain ⟨lines, hset, hl, -⟩ := set_of_line? hs h
  rw [LineStore.line, hset]
  exact inBounds_eq_ok.mpr hl

theorem putLine_eq (hs : s.Shaped n) (h : s.line? index way = some old) (line : Line) :
    s.putLine index way line = .ok (s.withLine index way line) := by
  obtain ⟨lines, hset, hl, hput⟩ := set_of_line? hs h
  rw [putLine, hset]
  change (do let _ ← wayOf lines way; return s.putSet index (lines.set way line)) = _
  rw [wayOf, hl, hput]
  rfl

theorem putWords_eq (hs : s.Shaped n) (h : s.line? index way = some line) (words : List Word) :
    s.putWords index way words = .ok (s.withLine index way { line with words }) := by
  rw [putWords, line_eq hs h]
  exact putLine_eq hs h _

/-- Words that are put in a line that was just replaced are words of the new line. -/
theorem putWords_used (hs : s.Shaped n) (h : s.line? index way = some old) (line : Line)
    (hw : line.words.length = n) (words : List Word) :
    (s.used index way line).putWords index way words
      = .ok (s.used index way { line with words }) := by
  have hl := line?_used h line index way
  rw [if_pos ⟨rfl, rfl⟩] at hl
  rw [putWords_eq (hs.used h hw) hl]
  exact congrArg _ (withLine_used h line { line with words })

/-- Stamping an existing way takes the next value of the clock, if there is one. -/
theorem stampWay_spec {lines : List Line} (hl : lines[way]? = some line) (clock : Nat) :
    Ends (stampWay clock lines way) (fun f => f = .overflow ∧ UInt64.size ≤ clock + 1)
      (· = (clock + 1, lines.set way { line with recency := clock + 1 })) := by
  rw [stampWay]
  by_cases hclock : clock + 1 < UInt64.size
  · have hsum : sum64 clock 1 = .ok (clock + 1) := sum64_eq_ok.mpr ⟨hclock, rfl⟩
    have hway : wayOf lines way = .ok line := inBounds_eq_ok.mpr hl
    apply Ends.bind_ok hsum
    apply Ends.bind_ok hway
    exact Ends.pure' rfl
  · have hsum : sum64 clock 1 = .error .overflow := by rw [sum64, if_neg hclock]
    rw [hsum]
    exact ⟨rfl, Nat.le_of_not_lt hclock⟩

theorem touch_spec (hs : s.Shaped n) (h : s.line? index way = some line) :
    Ends (s.touch index way) s.Exhausted (· = s.used index way line) := by
  obtain ⟨lines, hset, hl, hput⟩ := set_of_line? hs h
  rw [touch]
  apply Ends.bind_ok hset
  apply Ends.bind' (stampWay_spec hl s.clock)
  intro stamped hstamped
  rw [hstamped]
  apply Ends.pure'
  rw [hput, used]

theorem install_spec (hs : s.Shaped n) (h : s.line? index way = some line) (tag : Nat)
    (kind : Kind) :
    Ends (s.install index way tag kind) s.Exhausted
      (· = s.used index way (line.claim tag kind)) := by
  have hw : line.words.length = n := hs.words _ _ _ h
  have hclaim := hs.withLine h (line.claim tag kind) hw
  have hline : (s.withLine index way (line.claim tag kind)).line? index way
      = some (line.claim tag kind) := by
    rw [line?_withLine h, if_pos ⟨rfl, rfl⟩]
  have hput : s.install index way tag kind
      = (s.withLine index way (line.claim tag kind)).touch index way := by
    rw [install, line_eq hs h]
    change (do let s ← s.putLine index way (line.claim tag kind); s.touch index way) = _
    rw [putLine_eq hs h]
    rfl
  rw [hput]
  apply (touch_spec hclaim hline).mono (fun _ hf => hf)
  intro s' hs'
  rw [hs']
  exact used_withLine h _ _

/-! ## Looking for a block -/

theorem find_spec (hs : s.Shaped n) (hi : index < s.geometry.sets) (tag : Nat) (kind : Kind) :
    (∃ way line, s.find index tag kind = .ok (some way) ∧ s.line? index way = some line
        ∧ line.holds tag kind = true)
      ∨ s.find index tag kind = .ok none
        ∧ ∀ way line, s.line? index way = some line → line.holds tag kind = false := by
  obtain ⟨lines, hget, -, hset⟩ := set_eq hs hi
  have hfind : s.find index tag kind = .ok (lines.findIdx? (·.holds tag kind)) := by
    rw [find, hset]
    rfl
  have hline : ∀ way, s.line? index way = lines[way]? := by
    intro way
    rw [line?, hget, Option.bind_some]
  cases hidx : lines.findIdx? (·.holds tag kind) with
  | some way =>
    obtain ⟨hlt, hholds, -⟩ := List.findIdx?_eq_some_iff_getElem.mp hidx
    refine .inl ⟨way, lines[way], by rw [hfind, hidx], ?_, hholds⟩
    rw [hline, List.getElem?_eq_getElem hlt]
  | none =>
    refine .inr ⟨by rw [hfind, hidx], fun way line h => ?_⟩
    rw [hline] at h
    exact List.findIdx?_eq_none_iff.mp hidx line (List.mem_of_getElem? h)

theorem victim_spec (hs : s.Shaped n) (hi : index < s.geometry.sets) :
    ∃ way line, s.victim index = .ok way ∧ s.line? index way = some line := by
  obtain ⟨lines, hget, hlen, hset⟩ := set_eq hs hi
  have hne : lines ≠ [] := by
    intro hnil
    rw [hnil, List.length_nil] at hlen
    exact Nat.lt_irrefl _ (hlen ▸ s.geometry.ways_pos)
  have hlt := victim_lt hne
  refine ⟨MemoryHierarchy.victim lines, lines[MemoryHierarchy.victim lines], ?_, ?_⟩
  · rw [victim, hset]
    rfl
  · rw [line?, hget, Option.bind_some, List.getElem?_eq_getElem hlt]

end MemoryHierarchy.LineStore
