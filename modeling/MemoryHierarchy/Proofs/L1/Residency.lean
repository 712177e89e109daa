import MemoryHierarchy.L1
import MemoryHierarchy.Proofs.Lines

/-!
What an L1 holds.

A look-up tells whether the block is here and leaves the contents of the cache as they are
(`access_spec`); after an arrival its block is here (`insert_spec`). Either uses one line at most,
and the only fault is a clock that has no next value.
-/

namespace MemoryHierarchy

open LineStore

namespace LineStore

variable {s : LineStore} {n index way : Nat} {kind : Kind} {old new : Line}

theorem Exhausted.overflows {f : Fault} (h : s.Exhausted f) : Overflows f := h.1

/-- A block is here if a line of its set holds its tag. -/
theorem contains_iff_holds (hs : s.Shaped n) (a : Nat) (kind : Kind) :
    ∃ found, s.contains a kind = .ok found ∧
      (found = true ↔ ∃ way line, s.line? (s.geometry.locate a).index way = some line
        ∧ line.holds (s.geometry.locate a).tag kind = true) := by
  rcases find_spec hs (Geometry.locate_index_lt a) (s.geometry.locate a).tag kind with
    ⟨way, line, hfind, hl, hholds⟩ | ⟨hfind, hnone⟩
  · refine ⟨true, ?_, fun _ => ⟨way, line, hl, hholds⟩, fun _ => rfl⟩
    rw [contains, hfind]
    rfl
  · refine ⟨false, ?_, fun h => Bool.noConfusion h, ?_⟩
    · rw [contains, hfind]
      rfl
    · intro h
      obtain ⟨way, line, hl, hholds⟩ := h
      rw [hnone way line hl] at hholds
      exact hholds

/-- Using a line again changes nothing about what is here. -/
theorem contains_used (hs : s.Shaped n) (h : s.line? index way = some old) (a : Nat) (kind : Kind) :
    (s.used index way old).contains a kind = s.contains a kind := by
  have hs' : (s.used index way old).Shaped n := hs.used h (hs.words _ _ _ h)
  obtain ⟨found, hbefore, hfound⟩ := contains_iff_holds hs a kind
  obtain ⟨found', hafter, hfound'⟩ := contains_iff_holds hs' a kind
  have hsame : found' = true ↔ found = true := by
    rw [hfound', hfound]
    constructor
    · intro hheld
      obtain ⟨v, line, hl, hholds⟩ := hheld
      rw [line?_used h] at hl
      split at hl
      · next hiv =>
        obtain ⟨hi, rfl⟩ := hiv
        obtain rfl := Option.some.inj hl
        exact ⟨v, old, (show (s.geometry.locate a).index = index from hi) ▸ h, hholds⟩
      · exact ⟨v, line, hl, hholds⟩
    · intro hheld
      obtain ⟨v, line, hl, hholds⟩ := hheld
      by_cases hiv : (s.geometry.locate a).index = index ∧ v = way
      · obtain ⟨hi, rfl⟩ := hiv
        rw [hi, h] at hl
        obtain rfl := Option.some.inj hl
        refine ⟨v, { old with recency := s.clock + 1 }, ?_, hholds⟩
        rw [line?_used h]
        exact if_pos ⟨hi, rfl⟩
      · refine ⟨v, line, ?_, hholds⟩
        rw [line?_used h]
        exact (if_neg hiv).trans hl
  rw [hbefore, hafter, Bool.eq_iff_iff.mpr hsame]

end LineStore

namespace L1

variable {c c' : L1}

/-- Whether an address is here depends on its block only. -/
theorem contains_congr {a a' : Nat}
    (h : (c.store.geometry.locate a).block = (c.store.geometry.locate a').block) :
    c.contains a = c.contains a' := by
  obtain ⟨htag, hindex⟩ := (Geometry.locate_eq_iff (Geometry.locate_tag_lt a)
    (Geometry.locate_index_lt a)).mp h
  rw [contains, contains, LineStore.contains, LineStore.contains, htag, hindex]

/-- What a cache keeps when it is used once at most. -/
structure Kept (c c' : L1) : Prop where
  kind : c'.kind = c.kind
  geometry : c'.store.geometry = c.store.geometry
  clock : c'.store.clock ≤ c.store.clock + 1
  shaped : c'.store.Shaped 0

/-- A look-up tells whether the block is here; what is not here is to be asked of the L2. -/
theorem access_spec (hs : c.store.Shaped 0) (a : Nat) :
    Ends (c.access a) c.store.Exhausted fun r => Kept c r.2
      ∧ (∀ a', r.2.contains a' = c.contains a')
      ∧ (c.contains a = .ok true ∧ r.1 = .hit ∨ c.contains a = .ok false
        ∧ r.1 = .miss { address := a, kind := c.kind, operation := .read }) := by
  rw [access]
  rcases find_spec hs (Geometry.locate_index_lt a) (c.store.geometry.locate a).tag c.kind with
    ⟨way, line, hfind, hl, -⟩ | ⟨hfind, -⟩
  · apply Ends.bind_ok hfind
    apply Ends.bind' (touch_spec hs hl)
    intro store hstore
    subst hstore
    refine Ends.pure' ⟨⟨rfl, rfl, Nat.le_refl _, hs.used hl (hs.words _ _ _ hl)⟩,
      fun a' => contains_used hs hl a' c.kind, .inl ⟨?_, rfl⟩⟩
    rw [contains, LineStore.contains, hfind]
    rfl
  · apply Ends.bind_ok hfind
    refine Ends.pure' ⟨⟨rfl, rfl, Nat.le_succ _, hs⟩, fun _ => rfl, .inr ⟨?_, rfl⟩⟩
    rw [contains, LineStore.contains, hfind]
    rfl

theorem insert_spec (hs : c.store.Shaped 0) (a : Nat) :
    Ends (c.insert a) c.store.Exhausted fun r => Kept c r.2 ∧ r.2.contains a = .ok true := by
  rw [insert]
  rcases find_spec hs (Geometry.locate_index_lt a) (c.store.geometry.locate a).tag c.kind with
    ⟨way, line, hfind, -, -⟩ | ⟨hfind, -⟩
  · apply Ends.bind_ok hfind
    refine Ends.pure' ⟨⟨rfl, rfl, Nat.le_succ _, hs⟩, ?_⟩
    rw [contains, LineStore.contains, hfind]
    rfl
  · obtain ⟨way, line, hvictim, hl⟩ := victim_spec hs (Geometry.locate_index_lt a)
    apply Ends.bind_ok hfind
    apply Ends.bind_ok hvictim
    apply Ends.bind' (install_spec hs hl _ _)
    intro store hstore
    subst hstore
    have hlen : line.words.length = 0 := hs.words _ _ _ hl
    have hs' : (c.store.used (c.store.geometry.locate a).index way
        (line.claim (c.store.geometry.locate a).tag c.kind)).Shaped 0 := hs.used hl hlen
    obtain ⟨found, hcontains, hfound⟩ := contains_iff_holds hs' a c.kind
    refine Ends.pure' ⟨⟨rfl, rfl, Nat.le_refl _, hs'⟩, ?_⟩
    -- the line that was given up holds the block now
    have hl' := line?_used hl (line.claim (c.store.geometry.locate a).tag c.kind)
      (c.store.geometry.locate a).index way
    rw [if_pos ⟨rfl, rfl⟩] at hl'
    have htrue : found = true := hfound.mpr ⟨way, _, hl', holds_iff.mpr ⟨rfl, rfl, rfl⟩⟩
    rw [← htrue]
    exact hcontains

end L1

end MemoryHierarchy
