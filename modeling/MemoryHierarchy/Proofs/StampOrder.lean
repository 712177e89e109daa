import MemoryHierarchy.Proofs.Recency

/-!
Stores that differ only in their stamps.

`Alike` stores hold the same blocks in the same ways, and stamp the ways of each set in the same
order; the stamps themselves may differ, and so may what the ways without a block were before. Such
stores find the same blocks and give up the same ways (`Alike.find_eq`, `Alike.victim_eq`), and if
both are last used in the same line, they remain alike (`Alike.rewrites`), however often either of
them was stamped in between (`Rewrites`).
-/

namespace MemoryHierarchy

/-- What a line holds: the line but for its stamp, if it holds a block at all. -/
def Line.held? (line : Line) : Option Line :=
  if line.valid then some { line with recency := 0 } else none

section Line

variable {a b : Line}

theorem Line.isSome_held? (a : Line) : a.held?.isSome = a.valid := by
  rw [held?]
  cases a.valid <;> rfl

theorem Line.any_held? (a : Line) (tag : Nat) (kind : Kind) :
    a.held?.any (·.holds tag kind) = a.holds tag kind := by
  rw [held?, holds]
  cases hvalid : a.valid
  · simp
  · simp [holds]

theorem Line.valid_eq_of_held? (h : a.held? = b.held?) : a.valid = b.valid := by
  rw [← a.isSome_held?, h, b.isSome_held?]

theorem Line.holds_eq_of_held? (h : a.held? = b.held?) (tag : Nat) (kind : Kind) :
    a.holds tag kind = b.holds tag kind := by
  rw [← a.any_held?, h, b.any_held?]

/-- Lines that hold the same differ in their stamps, if they hold anything. -/
theorem Line.eq_of_held? (h : a.held? = b.held?) (hvalid : a.valid = true) :
    a = { b with recency := a.recency } := by
  have hvalid' : b.valid = true := (valid_eq_of_held? h).symm.trans hvalid
  rw [held?, held?, if_pos hvalid, if_pos hvalid'] at h
  obtain ⟨_, _, _, _, _, _⟩ := a
  obtain ⟨_, _, _, _, _, _⟩ := b
  simpa using h

theorem Line.words_eq_of_held? (h : a.held? = b.held?) (hvalid : a.valid = true) :
    a.words = b.words := by
  rw [eq_of_held? h hvalid]

end Line

/-! ## Sets -/

section Sets

variable {lines lines' : List Line}

/-- Two sets hold the same in each way, and stamp the ways that hold a block in the same order. -/
structure SameOrder (lines lines' : List Line) : Prop where
  held : lines.map Line.held? = lines'.map Line.held?
  order : ∀ (v w : Nat) (a b a' b' : Line), lines[v]? = some a → lines[w]? = some b →
    lines'[v]? = some a' → lines'[w]? = some b' → a.valid = true → b.valid = true →
    (a.recency < b.recency ↔ a'.recency < b'.recency)

theorem SameOrder.length_eq (h : SameOrder lines lines') : lines.length = lines'.length := by
  have hlength := congrArg List.length h.held
  rwa [List.length_map, List.length_map] at hlength

theorem SameOrder.symm (h : SameOrder lines lines') : SameOrder lines' lines where
  held := h.held.symm
  order := by
    intro v w a' b' a b ha' hb' ha hb hvalid hvalid'
    have hheld : ∀ (x : Nat) (c c' : Line), lines[x]? = some c → lines'[x]? = some c' →
        c.held? = c'.held? := by
      intro x c c' hc hc'
      have heq := congrArg (·[x]?) h.held
      simpa [hc, hc'] using heq
    rw [← Line.valid_eq_of_held? (hheld v a a' ha ha')] at hvalid
    rw [← Line.valid_eq_of_held? (hheld w b b' hb hb')] at hvalid'
    exact (h.order v w a b a' b' ha hb ha' hb' hvalid hvalid').symm

/-- The ways before the one with the least stamp have later stamps. -/
theorem leastRecent_lt_before {old line : Line} {v : Nat}
    (hold : lines[leastRecent lines]? = some old) (hv : v < leastRecent lines)
    (hline : lines[v]? = some line) : old.recency < line.recency := by
  have hle := leastRecent_le hold line (List.mem_of_getElem? hline)
  have hne : line.recency ≠ old.recency := by
    cases hmin : (lines.map (·.recency)).min? with
    | none =>
      rw [leastRecent, hmin] at hv
      exact absurd hv (Nat.not_lt_zero v)
    | some oldest =>
      have hway : leastRecent lines = lines.findIdx (·.recency == oldest) := by
        rw [leastRecent, hmin]
      rw [hway] at hv hold
      obtain ⟨hlt, rfl⟩ := List.getElem?_eq_some_iff.mp hold
      have holdest : (lines[lines.findIdx (·.recency == oldest)].recency == oldest) = true :=
        List.findIdx_getElem (w := hlt)
      have hbefore := List.not_of_lt_findIdx hv
      obtain ⟨hlt', rfl⟩ := List.getElem?_eq_some_iff.mp hline
      rw [beq_iff_eq.mp holdest]
      simpa using hbefore
  omega

/-- Sets whose ways are all in use, in the same order, have the same least way: it is not later in
one of them than in the other. -/
theorem SameOrder.leastRecent_le (h : SameOrder lines lines')
    (hvalid : ∀ line ∈ lines, line.valid = true) (hne : lines ≠ []) :
    leastRecent lines' ≤ leastRecent lines := by
  by_contra hlt
  have hlt := Nat.lt_of_not_le hlt
  have hway := leastRecent_lt hne
  have hne' : lines' ≠ [] := by
    intro hnil
    rw [h.length_eq, hnil] at hway
    exact Nat.not_lt_zero _ hway
  have hway' := leastRecent_lt hne'
  rw [← h.length_eq] at hway'
  have ha := List.getElem?_eq_getElem hway
  have hb := List.getElem?_eq_getElem hway'
  have ha' := List.getElem?_eq_getElem (h.length_eq ▸ hway : leastRecent lines < lines'.length)
  have hb' := List.getElem?_eq_getElem (h.length_eq ▸ hway' : leastRecent lines' < lines'.length)
  -- Its stamp would be the later one in the second set, and so in the first.
  have hlater := leastRecent_lt_before hb' hlt ha'
  rw [← h.order _ _ _ _ _ _ hb ha hb' ha' (hvalid _ (List.getElem_mem _))
    (hvalid _ (List.getElem_mem _))] at hlater
  have hleast := MemoryHierarchy.leastRecent_le ha _ (List.getElem_mem hway')
  omega

/-- Sets in the same order give up the same way. -/
theorem SameOrder.victim_eq (h : SameOrder lines lines') (hne : lines ≠ []) :
    victim lines = victim lines' := by
  have hfree : ∀ l : List Line,
      l.findIdx? (!·.valid) = (l.map Line.held?).findIdx? (!·.isSome) := by
    intro l
    rw [List.findIdx?_map]
    congr 1
    funext line
    rw [Function.comp_apply, Line.isSome_held?]
  rw [victim, victim, hfree, hfree, ← h.held, ← hfree]
  cases hvalid : lines.findIdx? (!·.valid) with
  | some way => rfl
  | none =>
    have hall : ∀ line ∈ lines, line.valid = true := by
      simpa using List.findIdx?_eq_none_iff.mp hvalid
    have hall' : ∀ line ∈ lines', line.valid = true := by
      rw [hfree, h.held, ← hfree] at hvalid
      simpa using List.findIdx?_eq_none_iff.mp hvalid
    have hne' : lines' ≠ [] := by
      intro hnil
      apply hne
      rw [← List.length_eq_zero_iff, h.length_eq, hnil]
      rfl
    exact Nat.le_antisymm (h.symm.leastRecent_le hall' hne') (h.leastRecent_le hall hne)

end Sets

/-! ## Stores -/

namespace LineStore

/-- All lines are there, and no stamp is ahead of the clock. -/
structure Stamped (s : LineStore) : Prop where
  shaped : s.Shaped s.geometry.wordsPerLine
  le_clock : ∀ i v line, s.line? i v = some line → line.recency ≤ s.clock

/-- `s'` is `s` with another line in way `way` of set `index`, used later than any before. -/
structure Rewrites (s : LineStore) (index way : Nat) (new : Line) (s' : LineStore) : Prop where
  geometry : s'.geometry = s.geometry
  shaped : s'.Shaped s.geometry.wordsPerLine
  clock_lt : s.clock < s'.clock
  line? : ∀ i v, s'.line? i v
    = if i = index ∧ v = way then some { new with recency := s'.clock } else s.line? i v

/-- The stores hold the same blocks in the same ways, and stamp them in the same order. -/
structure Alike (s t : LineStore) : Prop where
  left : s.Stamped
  right : t.Stamped
  geometry : t.geometry = s.geometry
  held : ∀ i v, (s.line? i v).map Line.held? = (t.line? i v).map Line.held?
  order : ∀ (i v w : Nat) (a b a' b' : Line), s.line? i v = some a → s.line? i w = some b →
    t.line? i v = some a' → t.line? i w = some b' → a.valid = true → b.valid = true →
    (a.recency < b.recency ↔ a'.recency < b'.recency)

variable {s s' t t' : LineStore} {index way tag i v : Nat} {kind : Kind} {old new new' line : Line}

theorem empty_stamped (g : Geometry) (kind : Kind) : (LineStore.withData g kind).Stamped where
  shaped := empty_shaped g kind g.wordsPerLine
  le_clock := by
    intro i v line hl
    rw [empty_line? hl]
    exact Nat.le_refl 0

/-! ### Rewriting a line -/

theorem rewrites_used (hs : s.Shaped s.geometry.wordsPerLine) (hl : s.line? index way = some old)
    (hw : new.words.length = s.geometry.wordsPerLine) :
    s.Rewrites index way new (s.used index way new) :=
  ⟨rfl, hs.used hl hw, Nat.lt_succ_self _, line?_used hl new⟩

theorem Rewrites.stamped (h : s.Rewrites index way new s') (hs : s.Stamped) : s'.Stamped where
  shaped := h.geometry ▸ h.shaped
  le_clock := by
    intro i v line hl
    rw [h.line?] at hl
    split at hl
    · obtain rfl := Option.some.inj hl
      exact Nat.le_refl _
    · exact Nat.le_trans (hs.le_clock i v line hl) (Nat.le_of_lt h.clock_lt)

theorem Rewrites.line?_self (h : s.Rewrites index way new s') :
    s'.line? index way = some { new with recency := s'.clock } :=
  (h.line? index way).trans (if_pos ⟨rfl, rfl⟩)

theorem Rewrites.line?_of_ne (h : s.Rewrites index way new s') (hv : ¬(i = index ∧ v = way)) :
    s'.line? i v = s.line? i v :=
  (h.line? i v).trans (if_neg hv)

/-- The line that was rewritten has the latest stamp. -/
theorem Rewrites.recency_lt (h : s.Rewrites index way new s') (hs : s.Stamped)
    (hv : v ≠ way) (hl : s'.line? index v = some line) (hl' : s'.line? index way = some old) :
    line.recency < old.recency := by
  rw [h.line?_of_ne fun hiv => hv hiv.2] at hl
  rw [h.line?_self] at hl'
  rw [← Option.some.inj hl']
  exact Nat.lt_of_le_of_lt (hs.le_clock index v line hl) h.clock_lt

/-- A line may be used more than once. -/
theorem Rewrites.used (h : s.Rewrites index way new s')
    (hw : new'.words.length = s.geometry.wordsPerLine) :
    s.Rewrites index way new' (s'.used index way new') := by
  refine ⟨h.geometry, h.shaped.used h.line?_self hw, Nat.lt_succ_of_lt h.clock_lt, ?_⟩
  intro i v
  rw [line?_used h.line?_self, h.line?]
  split <;> rfl

/-- The block in a line that was rewritten is found there if no other line has it. -/
theorem Rewrites.find_eq (h : s.Rewrites index way new s') (hi : index < s.geometry.sets)
    (hnew : new.holds tag kind = true)
    (honly : ∀ v line, v ≠ way → s.line? index v = some line → line.holds tag kind = false) :
    s'.find index tag kind = .ok (some way) := by
  rcases find_spec h.shaped (h.geometry ▸ hi) tag kind with ⟨w, line, hfind, hl, hholds⟩ | ⟨-, hno⟩
  · by_cases hw : w = way
    · rw [hfind, hw]
    · rw [h.line?_of_ne fun hiv => hw hiv.2] at hl
      rw [honly w line hw hl] at hholds
      cases hholds
  · have hfalse := hno way _ h.line?_self
    change new.holds tag kind = false at hfalse
    rw [hnew] at hfalse
    cases hfalse

namespace Alike

theorem line? (h : Alike s t) (hl : s.line? i v = some old) :
    ∃ old', t.line? i v = some old' ∧ old.held? = old'.held? := by
  have hheld := h.held i v
  rw [hl, Option.map_some] at hheld
  obtain ⟨old', hl', hsame⟩ := Option.map_eq_some_iff.mp hheld.symm
  exact ⟨old', hl', hsame.symm⟩

/-- A block that no way but one may hold in the first store is in no other way of the second. -/
theorem only (h : Alike s t) (honly : ∀ v line, v ≠ way → s.line? i v = some line →
    line.holds tag kind = false) (hv : v ≠ way) (hl : t.line? i v = some line) :
    line.holds tag kind = false := by
  have hheld := h.held i v
  rw [hl, Option.map_some] at hheld
  obtain ⟨line', hl', hsame⟩ := Option.map_eq_some_iff.mp hheld
  rw [← Line.holds_eq_of_held? hsame]
  exact honly v line' hv hl'

theorem of_empty (g : Geometry) (kind kind' : Kind) :
    Alike (LineStore.withData g kind) (LineStore.withData g kind') where
  left := empty_stamped g kind
  right := empty_stamped g kind'
  geometry := rfl
  held := by
    intro i v
    simp only [LineStore.line?, withData, empty, Array.getElem?_replicate]
    split
    · rw [Option.bind_some, Option.bind_some, List.getElem?_replicate, List.getElem?_replicate]
      split <;> rfl
    · rfl
  order := by
    intro i v w a b a' b' ha _ _ _ hvalid
    rw [empty_line? ha] at hvalid
    cases hvalid

/-- Their sets, side by side. -/
theorem sets (h : Alike s t) (hi : i < s.geometry.sets) :
    ∃ lines lines', s.set i = .ok lines ∧ t.set i = .ok lines' ∧ lines ≠ []
      ∧ SameOrder lines lines' := by
  obtain ⟨lines, hget, hlength, hset⟩ := set_eq h.left.shaped hi
  obtain ⟨lines', hget', hlength', hset'⟩ := set_eq h.right.shaped (h.geometry ▸ hi)
  have hline : ∀ v, s.line? i v = lines[v]? := by
    intro v
    rw [LineStore.line?, hget, Option.bind_some]
  have hline' : ∀ v, t.line? i v = lines'[v]? := by
    intro v
    rw [LineStore.line?, hget', Option.bind_some]
  refine ⟨lines, lines', hset, hset', ?_, ?_, ?_⟩
  · intro hnil
    rw [hnil, List.length_nil] at hlength
    exact Nat.lt_irrefl _ (hlength ▸ s.geometry.ways_pos)
  · apply List.ext_getElem?
    intro v
    rw [List.getElem?_map, List.getElem?_map, ← hline, ← hline']
    exact h.held i v
  · intro v w a b a' b' ha hb ha' hb'
    rw [← hline] at ha hb
    rw [← hline'] at ha' hb'
    exact h.order i v w a b a' b' ha hb ha' hb'

/-- They find the same blocks in the same ways. -/
theorem find_eq (h : Alike s t) (hi : i < s.geometry.sets) (tag : Nat) (kind : Kind) :
    t.find i tag kind = s.find i tag kind := by
  obtain ⟨lines, lines', hset, hset', -, hsame⟩ := h.sets hi
  have hheld : ∀ l : List Line, l.findIdx? (·.holds tag kind)
      = (l.map Line.held?).findIdx? (·.any (·.holds tag kind)) := by
    intro l
    rw [List.findIdx?_map]
    congr 1
    funext line
    rw [Function.comp_apply, Line.any_held?]
  rw [find, find, hset, hset']
  show Except.ok (lines'.findIdx? _) = Except.ok (lines.findIdx? _)
  rw [hheld, hheld, hsame.held]

/-- They give up the same ways. -/
theorem victim_eq (h : Alike s t) (hi : i < s.geometry.sets) : t.victim i = s.victim i := by
  obtain ⟨lines, lines', hset, hset', hne, hsame⟩ := h.sets hi
  rw [LineStore.victim, LineStore.victim, hset, hset']
  exact congrArg Except.ok (hsame.victim_eq hne).symm

/-- If both are last used in the same line, for the same block, they remain alike. -/
theorem rewrites (h : Alike s t) (hs : s.Rewrites index way new s')
    (ht : t.Rewrites index way new' t') (hheld : new.held? = new'.held?) : Alike s' t' where
  left := hs.stamped h.left
  right := ht.stamped h.right
  geometry := by rw [ht.geometry, hs.geometry, h.geometry]
  held := by
    intro i v
    rw [hs.line?, ht.line?]
    split
    · exact congrArg Option.some hheld
    · exact h.held i v
  order := by
    intro i v w a b a' b' ha hb ha' hb' hvalid hvalid'
    -- The rewritten line comes last in both sets; all others are in the order they were in.
    by_cases hv : i = index ∧ v = way
    · obtain ⟨rfl, rfl⟩ := hv
      by_cases hw : w = v
      · subst hw
        obtain rfl := Option.some.inj (ha.symm.trans hb)
        obtain rfl := Option.some.inj (ha'.symm.trans hb')
        exact iff_of_false (Nat.lt_irrefl _) (Nat.lt_irrefl _)
      · exact iff_of_false (Nat.lt_asymm (hs.recency_lt h.left hw hb ha))
          (Nat.lt_asymm (ht.recency_lt h.right hw hb' ha'))
    · by_cases hw : i = index ∧ w = way
      · obtain ⟨rfl, rfl⟩ := hw
        have hne : v ≠ w := fun heq => hv ⟨rfl, heq⟩
        exact iff_of_true (hs.recency_lt h.left hne ha hb) (ht.recency_lt h.right hne ha' hb')
      · rw [hs.line?_of_ne hv] at ha
        rw [hs.line?_of_ne hw] at hb
        rw [ht.line?_of_ne hv] at ha'
        rw [ht.line?_of_ne hw] at hb'
        exact h.order i v w a b a' b' ha hb ha' hb' hvalid hvalid'

end Alike

end LineStore

end MemoryHierarchy
