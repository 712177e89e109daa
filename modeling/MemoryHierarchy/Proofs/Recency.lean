import Mathlib.Data.List.Nodup
import Mathlib.Data.List.Perm.Basic
import Mathlib.Logic.Function.Basic
import MemoryHierarchy.Proofs.Replacement

/-!
Stamps against a list in the order of use.

A `UseOrder` keeps, for every set, the keys of its blocks, least recently used first. A use that
finds its key moves it to the end, one that brings a block in drops the first key of a full set
and appends its own (`rearrange`). A store instead stamps lines with one clock for all sets, and
gives up the first line without a block or else the one with the least stamp.

`Ranks` orders the valid lines of a set by their stamps. Stamping one line appends it to this
order (`Ranks.use`), and the victim of a full set is the head of it (`Ranks.erase_victim`). So a
store follows its list whatever a call does to it (`Follows.effect`).
-/

namespace MemoryHierarchy

/-! ## The order of use as a list -/

/-- What a call means for the block that it names. -/
structure Use where
  index : Nat
  tag : Nat
  kind : Kind
  /-- If the block is there, it becomes the most recently used one. -/
  refreshes : Bool
  /-- If the block is not there, it is taken in. -/
  admits : Bool

/-- The keys of the blocks of every set, least recently used first, and the number of uses. -/
structure UseOrder (κ : Type) where
  keys : Nat → List κ
  uses : Nat

section Reference

variable {κ : Type} [DecidableEq κ]

/-- What a call on the block with key `k` makes of the keys of its set. -/
def rearrange (ways : Nat) (u : Use) (k : κ) (keys : List κ) : List κ :=
  if k ∈ keys then if u.refreshes then keys.erase k ++ [k] else keys
  else if u.admits then (if keys.length = ways then keys.tail else keys) ++ [k] else keys

/-- The order after one more call. A call that neither refreshes nor takes in is no use. -/
def UseOrder.after (key : Nat → Kind → κ) (ways : Nat) (o : UseOrder κ) (u : Use) : UseOrder κ where
  keys := Function.update o.keys u.index
    (rearrange ways u (key u.tag u.kind) (o.keys u.index))
  uses := o.uses
    + (if key u.tag u.kind ∈ o.keys u.index then u.refreshes else u.admits).toNat

/-- The order after some calls, the latest of them first. -/
def useOrder (key : Nat → Kind → κ) (ways : Nat) : List Use → UseOrder κ
  | [] => { keys := fun _ => [], uses := 0 }
  | u :: earlier => (useOrder key ways earlier).after key ways u

theorem rearrange_nodup {keys : List κ} (h : keys.Nodup) (ways : Nat) (u : Use) (k : κ) :
    (rearrange ways u k keys).Nodup := by
  have happend : ∀ rest : List κ, rest.Nodup → k ∉ rest → (rest ++ [k]).Nodup := by
    intro rest hrest hk
    rw [List.nodup_append]
    refine ⟨hrest, List.nodup_singleton k, ?_⟩
    intro a ha b hb hab
    rw [List.mem_singleton.mp hb] at hab
    exact hk (hab ▸ ha)
  rw [rearrange]
  split
  · split
    · exact happend _ (h.erase k) (List.Nodup.not_mem_erase h)
    · exact h
  · next hk =>
    split
    · split
      · exact happend _ h.tail fun hmem => hk (List.mem_of_mem_tail hmem)
      · exact happend _ h hk
    · exact h

theorem UseOrder.after_keys_self (key : Nat → Kind → κ) (ways : Nat) (o : UseOrder κ) (u : Use) :
    (o.after key ways u).keys u.index
      = rearrange ways u (key u.tag u.kind) (o.keys u.index) :=
  Function.update_self ..

theorem UseOrder.after_keys_of_ne (key : Nat → Kind → κ) (ways : Nat) (o : UseOrder κ) {u : Use}
    {i : Nat} (h : i ≠ u.index) : (o.after key ways u).keys i = o.keys i :=
  Function.update_of_ne h ..

/-- A call that is no use leaves the order alone. -/
theorem UseOrder.after_eq_self {key : Nat → Kind → κ} {o : UseOrder κ} {u : Use} (ways : Nat)
    (h : (if key u.tag u.kind ∈ o.keys u.index then u.refreshes else u.admits) = false) :
    o.after key ways u = o := by
  have hsame : rearrange ways u (key u.tag u.kind) (o.keys u.index) = o.keys u.index := by
    by_cases hmem : key u.tag u.kind ∈ o.keys u.index
    · rw [if_pos hmem] at h
      simp [rearrange, hmem, h]
    · rw [if_neg hmem] at h
      simp [rearrange, hmem, h]
  rw [after, h, hsame, Function.update_eq_self]
  rfl

/-- Earlier calls are uses of a longer run too. -/
theorem useOrder_uses_le (key : Nat → Kind → κ) (ways : Nat) (later earlier : List Use) :
    (useOrder key ways earlier).uses ≤ (useOrder key ways (later ++ earlier)).uses := by
  induction later with
  | nil => exact Nat.le_refl _
  | cons u later ih => exact Nat.le_trans ih (Nat.le_add_right _ _)

end Reference

/-! ## The order of use by stamps -/

/-- The valid lines of a set, in the order of their stamps. -/
def byRecency (lines : List Line) : List Line :=
  (lines.filter (·.valid)).mergeSort fun a b => a.recency ≤ b.recency

/-- `ranked` are the valid lines of a set in the order of their stamps, which differ and are not
ahead of the clock. -/
structure Ranks (clock : Nat) (lines ranked : List Line) : Prop where
  perm : ranked.Perm (lines.filter (·.valid))
  sorted : ranked.Pairwise (·.recency < ·.recency)
  stamped : ∀ line ∈ ranked, line.recency ≤ clock

section Ranks

variable {clock way : Nat} {lines ranked : List Line} {old new : Line}

theorem Ranks.later (h : Ranks clock lines ranked) : Ranks (clock + 1) lines ranked :=
  ⟨h.perm, h.sorted, fun line hline => Nat.le_succ_of_le (h.stamped line hline)⟩

theorem Ranks.recencies_nodup (h : Ranks clock lines ranked) :
    (ranked.map (·.recency)).Nodup := by
  rw [List.Nodup, List.pairwise_map]
  exact h.sorted.imp Nat.ne_of_lt

theorem Ranks.byRecency_eq (h : Ranks clock lines ranked) : byRecency lines = ranked := by
  have hperm : (byRecency lines).Perm ranked := (List.mergeSort_perm _ _).trans h.perm.symm
  have hsorted : (byRecency lines).Pairwise fun a b => decide (a.recency ≤ b.recency) = true :=
    List.pairwise_mergeSort (by simpa using fun a b c => Nat.le_trans)
      (by simpa using fun a b => Nat.le_total _ _) _
  -- Lines with one stamp are one line, so there is one such order.
  refine List.Perm.eq_of_pairwise ?_ hsorted (h.sorted.imp fun hlt => ?_) hperm
  · intro a b ha hb hab hba
    simp only [decide_eq_true_eq] at hab hba
    exact List.inj_on_of_nodup_map h.recencies_nodup (hperm.mem_iff.mp ha) hb
      (Nat.le_antisymm hab hba)
  · exact decide_eq_true (Nat.le_of_lt hlt)

/-- A used line comes last, wherever it was before. -/
theorem Ranks.use (h : Ranks clock lines ranked) (hold : lines[way]? = some old)
    (hvalid : new.valid = true) (hstamp : new.recency = clock + 1) :
    Ranks (clock + 1) (lines.set way new) (ranked.erase old ++ [new]) := by
  obtain ⟨hlt, rfl⟩ := List.getElem?_eq_some_iff.mp hold
  have hsub : ∀ line ∈ ranked.erase lines[way], line.recency ≤ clock :=
    fun line hline => h.stamped line (List.mem_of_mem_erase hline)
  refine ⟨?_, ?_, ?_⟩
  · -- The other lines are the same before and after.
    have hbefore := (List.getElem_cons_eraseIdx_perm hlt).erase lines[way]
    have hothers := h.perm.erase lines[way]
    rw [List.erase_cons_head] at hbefore
    rw [List.erase_filter] at hothers
    have hafter := (List.getElem_cons_eraseIdx_perm (l := lines.set way new) (n := way)
      (by simpa using hlt)).filter (·.valid)
    rw [List.getElem_set_self, List.eraseIdx_set_eq, List.filter_cons_of_pos hvalid] at hafter
    have hsame := hothers.trans (hbefore.symm.filter (·.valid))
    exact (List.perm_append_singleton _ _).trans ((hsame.cons new).trans hafter)
  · rw [List.pairwise_append]
    refine ⟨h.sorted.sublist List.erase_sublist, List.pairwise_singleton _ _, ?_⟩
    intro a ha b hb
    rw [List.mem_singleton.mp hb, hstamp]
    exact Nat.lt_succ_of_le (hsub a ha)
  · intro line hline
    rcases List.mem_append.mp hline with hline | hline
    · exact Nat.le_succ_of_le (hsub line hline)
    · rw [List.mem_singleton.mp hline]
      exact Nat.le_of_eq hstamp

theorem leastRecent_le (hold : lines[leastRecent lines]? = some old) :
    ∀ line ∈ lines, old.recency ≤ line.recency := by
  intro line hline
  cases hmin : (lines.map (·.recency)).min? with
  | none => simp_all
  | some oldest =>
    have hway : leastRecent lines = lines.findIdx (·.recency == oldest) := by
      rw [leastRecent, hmin]
    obtain ⟨hlt, rfl⟩ := List.getElem?_eq_some_iff.mp hold
    have holdest : lines[leastRecent lines].recency = oldest := by
      simp only [hway] at hlt ⊢
      simpa using List.findIdx_getElem (w := hlt)
    rw [holdest]
    exact (List.min?_eq_some_iff.mp hmin).2 _ (List.mem_map_of_mem hline)

/-- A full set gives up the head of the order, another one a way without a block. -/
theorem Ranks.erase_victim (h : Ranks clock lines ranked) (hold : lines[victim lines]? = some old) :
    ranked.erase old = if ranked.length = lines.length then ranked.tail else ranked := by
  cases hfree : lines.findIdx? (!·.valid) with
  | some way =>
    have hway : MemoryHierarchy.victim lines = way := by rw [MemoryHierarchy.victim, hfree]
    obtain ⟨hlt, hinvalid, -⟩ := List.findIdx?_eq_some_iff_getElem.mp hfree
    rw [hway, List.getElem?_eq_getElem hlt] at hold
    obtain rfl := Option.some.inj hold
    have hshort : (lines.filter (·.valid)).length < lines.length :=
      List.length_filter_lt_length_iff_exists.mpr
        ⟨lines[way], List.getElem_mem hlt, by simpa using hinvalid⟩
    have hne : ranked.length ≠ lines.length := by
      rw [h.perm.length_eq]
      exact Nat.ne_of_lt hshort
    rw [if_neg hne]
    apply List.erase_of_not_mem
    intro hmem
    have hvalid := (List.mem_filter.mp (h.perm.mem_iff.mp hmem)).2
    simp [hvalid] at hinvalid
  | none =>
    have hway : MemoryHierarchy.victim lines = leastRecent lines := by
      rw [MemoryHierarchy.victim, hfree]
    have hall : ∀ line ∈ lines, line.valid = true := by
      simpa using List.findIdx?_eq_none_iff.mp hfree
    have hperm : ranked.Perm lines := by
      have hfull := h.perm
      rwa [List.filter_eq_self.mpr hall] at hfull
    rw [hway] at hold
    have hmem : old ∈ ranked := hperm.mem_iff.mpr (List.mem_of_getElem? hold)
    rw [if_pos hperm.length_eq]
    cases ranked with
    | nil => cases hmem
    | cons first rest =>
      rcases List.mem_cons.mp hmem with rfl | hrest
      · rw [List.erase_cons_head, List.tail_cons]
      · -- a line behind the head has a later stamp
        have hlt := (List.pairwise_cons.mp h.sorted).1 old hrest
        have hle := leastRecent_le hold first (hperm.mem_iff.mp List.mem_cons_self)
        omega

end Ranks

/-! ## The keys of a set -/

section Keys

variable {κ : Type} {key : Nat → Kind → κ} {clock way : Nat} {lines ranked : List Line}
  {old : Line} {u : Use} {found : Bool}

/-- The key of the block in a line. -/
def Line.keyBy (key : Nat → Kind → κ) (line : Line) : κ := key line.tag line.kind

/-- A set stands for a list of keys: its valid lines have different keys and different stamps, and
in the order of their stamps they have these keys. -/
structure Listed (key : Nat → Kind → κ) (lines : List Line) (keys : List κ) : Prop where
  keys_nodup : ((lines.filter (·.valid)).map (·.keyBy key)).Nodup
  recencies_nodup : ((lines.filter (·.valid)).map (·.recency)).Nodup
  listed : (byRecency lines).map (·.keyBy key) = keys

theorem Ranks.listed (h : Ranks clock lines ranked) (hkeys : (ranked.map (·.keyBy key)).Nodup) :
    Listed key lines (ranked.map (·.keyBy key)) where
  keys_nodup := (h.perm.map _).nodup_iff.mp hkeys
  recencies_nodup := (h.perm.map _).nodup_iff.mp h.recencies_nodup
  listed := by rw [h.byRecency_eq]

theorem Ranks.mem_iff (h : Ranks clock lines ranked) {line : Line} :
    line ∈ ranked ↔ line ∈ lines ∧ line.valid = true := by
  rw [h.perm.mem_iff, List.mem_filter]

variable [DecidableEq κ]

theorem map_erase_of_nodup {α : Type} [DecidableEq α] {f : α → κ} {l : List α} {a : α}
    (h : (l.map f).Nodup) (ha : a ∈ l) : (l.erase a).map f = (l.map f).erase (f a) := by
  obtain ⟨front, back, -, rfl, herase⟩ := List.exists_erase_eq ha
  rw [List.map_append, List.map_cons, List.nodup_middle, List.nodup_cons, List.mem_append] at h
  have hfront : f a ∉ front.map f := fun hmem => h.1 (.inl hmem)
  rw [herase, List.map_append, List.map_append, List.map_cons, List.erase_append_right _ hfront,
    List.erase_cons_head]

/-- A use of the line in which the block belongs rearranges the keys as it should. -/
theorem Ranks.keys_use (h : Ranks clock lines ranked) (hkeys : (ranked.map (·.keyBy key)).Nodup)
    (hold : lines[way]? = some old)
    (hmem : found = true ↔ key u.tag u.kind ∈ ranked.map (·.keyBy key))
    (hfound : found = true → old.holds u.tag u.kind = true)
    (hvictim : found = false → way = victim lines)
    (hrefreshes : found = true → u.refreshes = true)
    (hadmits : found = false → u.admits = true) :
    (ranked.erase old).map (·.keyBy key) ++ [key u.tag u.kind]
      = rearrange lines.length u (key u.tag u.kind) (ranked.map (·.keyBy key)) := by
  cases found with
  | true =>
    obtain ⟨hvalid, htag, hkind⟩ := holds_iff.mp (hfound rfl)
    have hranked : old ∈ ranked := h.mem_iff.mpr ⟨List.mem_of_getElem? hold, hvalid⟩
    have hkey : old.keyBy key = key u.tag u.kind := by rw [Line.keyBy, htag, hkind]
    rw [rearrange, if_pos (hmem.mp rfl), if_pos (hrefreshes rfl),
      map_erase_of_nodup hkeys hranked, hkey]
  | false =>
    have hno : key u.tag u.kind ∉ ranked.map (·.keyBy key) :=
      fun hin => Bool.noConfusion (hmem.mpr hin)
    rw [hvictim rfl] at hold
    rw [rearrange, if_neg hno, if_pos (hadmits rfl), h.erase_victim hold, List.length_map]
    split
    · rw [List.map_tail]
    · rfl

end Keys

/-! ## Stores -/

namespace LineStore

variable {κ : Type} [DecidableEq κ] {key : Nat → Kind → κ} {s s' : LineStore} {o : UseOrder κ}
  {u : Use} {n index way : Nat} {found : Bool} {old new : Line}

/-- The block that a call names is there. -/
def Has (s : LineStore) (u : Use) : Prop :=
  ∃ way line, s.line? u.index way = some line ∧ line.holds u.tag u.kind = true

/-- The call is a use. -/
def Uses (s : LineStore) (u : Use) : Prop :=
  (s.Has u → u.refreshes = true) ∧ (¬s.Has u → u.admits = true)

/-- What a call does to the lines: if it is a use, it uses the line in which its block belongs, and
otherwise it changes nothing. `found` says whether the block was there. -/
inductive Effect (s : LineStore) (u : Use) : Bool → LineStore → Prop
  | used (found : Bool) (way : Nat) (new : Line)
      (htakes : s.Takes u.index u.tag u.kind found way new) (huses : s.Uses u) :
      Effect s u found (s.used u.index way new)
  | kept (found : Bool) (hfound : found = true ↔ s.Has u) (hkeeps : ¬s.Uses u) :
      Effect s u found s

/-- The key tells the block of a call from the blocks of its set. -/
def Tells (key : Nat → Kind → κ) (s : LineStore) (u : Use) : Prop :=
  ∀ way line, s.line? u.index way = some line → line.keyBy key = key u.tag u.kind →
    line.tag = u.tag ∧ line.kind = u.kind

/-- The stamps of a store are in the order of use `o`. -/
structure Follows (key : Nat → Kind → κ) (s : LineStore) (o : UseOrder κ) : Prop where
  clock : s.clock = o.uses
  ranked : ∀ i lines, s.sets[i]? = some lines →
    ∃ ranked, Ranks s.clock lines ranked ∧ ranked.map (·.keyBy key) = o.keys i
      ∧ (o.keys i).Nodup

/-- On one path a tag is enough. -/
theorem OnePath.tells {kind : Kind} (hp : s.OnePath kind) (hkind : u.kind = kind) :
    s.Tells (fun tag _ => tag) u :=
  fun _ _ hl htag => ⟨htag, (hp _ _ _ hl).trans hkind.symm⟩

theorem not_has_iff : ¬s.Has u ↔
    ∀ way line, s.line? u.index way = some line → line.holds u.tag u.kind = false := by
  simp [Has]

theorem uses_of_has (h : s.Has u) (hrefreshes : u.refreshes = true) : s.Uses u :=
  ⟨fun _ => hrefreshes, fun hno => absurd h hno⟩

theorem uses_of_not_has (h : ¬s.Has u) (hadmits : u.admits = true) : s.Uses u :=
  ⟨fun hhas => absurd hhas h, fun _ => hadmits⟩

theorem Takes.found_iff (h : s.Takes u.index u.tag u.kind found way new) :
    found = true ↔ s.Has u := by
  obtain ⟨old, hl⟩ := h.exists_old
  cases found with
  | true => exact iff_of_true rfl ⟨way, old, hl, h.of_found rfl old hl⟩
  | false => exact iff_of_false Bool.noConfusion (not_has_iff.mpr (h.of_not_found rfl).2)

theorem Effect.found_iff (h : s.Effect u found s') : found = true ↔ s.Has u := by
  cases h with
  | used way new htakes huses => exact htakes.found_iff
  | kept hfound hkeeps => exact hfound

/-- A call that does not find its block and does not take it in changes nothing. -/
theorem Effect.missed (h : ¬s.Has u) (hadmits : u.admits = false) : s.Effect u false s :=
  .kept false (iff_of_false Bool.noConfusion h) fun huses => by simp [huses.2 h] at hadmits

/-- A call that finds its block and does not refresh it changes nothing. -/
theorem Effect.left (h : s.Has u) (hrefreshes : u.refreshes = false) : s.Effect u true s :=
  .kept true (iff_of_true rfl h) fun huses => by simp [huses.1 h] at hrefreshes

theorem Effect.shaped (h : s.Effect u found s') (hs : s.Shaped n) : s'.Shaped n := by
  cases h with
  | used way new htakes => exact htakes.shaped hs
  | kept => exact hs

theorem Effect.geometry (h : s.Effect u found s') : s'.geometry = s.geometry := by
  cases h <;> rfl

theorem Effect.onePath {kind : Kind} (h : s.Effect u found s') (hkind : u.kind = kind)
    (hp : s.OnePath kind) : s'.OnePath kind := by
  subst hkind
  cases h with
  | used way new htakes => exact hp.used htakes
  | kept => exact hp

theorem empty_follows (g : Geometry) (kind : Kind) (n : Nat) (key : Nat → Kind → κ) :
    (LineStore.empty g kind n).Follows key (useOrder key g.ways []) where
  clock := rfl
  ranked := by
    intro i lines hlines
    have hnone : lines.filter (·.valid) = [] := by
      rw [List.filter_eq_nil_iff]
      intro line hline
      obtain ⟨way, hway⟩ := List.getElem?_of_mem hline
      have hl : (LineStore.empty g kind n).line? i way = some line :=
        line?_eq_some_iff.mpr ⟨lines, hlines, hway⟩
      rw [empty_line? hl]
      simp [Line.empty]
    exact ⟨[], ⟨by rw [hnone], .nil, by simp⟩, rfl, .nil⟩

omit [DecidableEq κ] in
/-- A call finds its block exactly if its key is in the list. -/
theorem Follows.mem_keys_iff (h : s.Follows key o) (hs : s.Shaped n)
    (hi : u.index < s.geometry.sets) (htells : s.Tells key u) :
    key u.tag u.kind ∈ o.keys u.index ↔ s.Has u := by
  obtain ⟨lines, hget, -, -⟩ := set_eq hs hi
  obtain ⟨ranked, hranks, hkeys, -⟩ := h.ranked u.index lines hget
  have hline : ∀ line, line ∈ lines ↔ ∃ way, s.line? u.index way = some line := by
    intro line
    simp only [line?, hget, Option.bind_some, List.mem_iff_getElem?]
  rw [← hkeys, List.mem_map]
  constructor
  · intro hin
    obtain ⟨line, hmem, hkey⟩ := hin
    obtain ⟨hmem, hvalid⟩ := hranks.mem_iff.mp hmem
    obtain ⟨way, hl⟩ := (hline line).mp hmem
    exact ⟨way, line, hl, holds_iff.mpr ⟨hvalid, htells way line hl hkey⟩⟩
  · intro hhas
    obtain ⟨way, line, hl, hholds⟩ := hhas
    obtain ⟨hvalid, htag, hkind⟩ := holds_iff.mp hholds
    refine ⟨line, hranks.mem_iff.mpr ⟨(hline line).mpr ⟨way, hl⟩, hvalid⟩, ?_⟩
    rw [Line.keyBy, htag, hkind]

theorem sets_used {lines : List Line} (h : s.sets[index]? = some lines) (way : Nat) (new : Line)
    (i : Nat) :
    (s.used index way new).sets[i]?
      = if index = i then some (lines.set way { new with recency := s.clock + 1 })
        else s.sets[i]? := by
  have hlt : index < s.sets.size := (Array.getElem?_eq_some_iff.mp h).1
  show (s.sets.setIfInBounds index _)[i]? = _
  rw [Array.getElem?_setIfInBounds, if_pos hlt, h, Option.getD_some]

/-- The rule counts a call exactly if it is a use. -/
theorem Follows.uses_iff (h : s.Follows key o) (hs : s.Shaped n)
    (hi : u.index < s.geometry.sets) (htells : s.Tells key u) :
    (if key u.tag u.kind ∈ o.keys u.index then u.refreshes else u.admits) = true ↔ s.Uses u := by
  have hmem := h.mem_keys_iff hs hi htells
  by_cases hin : key u.tag u.kind ∈ o.keys u.index
  · have hhas := hmem.mp hin
    simp [hin, Uses, hhas]
  · have hhas : ¬s.Has u := fun hhas => hin (hmem.mpr hhas)
    simp [hin, Uses, hhas]

/-- The clock counts the uses. -/
theorem Follows.after_uses (h : s.Follows key o) (hs : s.Shaped n)
    (hi : u.index < s.geometry.sets) (htells : s.Tells key u) (huses : s.Uses u) (ways : Nat) :
    (o.after key ways u).uses = s.clock + 1 := by
  rw [UseOrder.after, (h.uses_iff hs hi htells).mpr huses, h.clock]
  rfl

/-- A use appends the block to the order of its set, and takes the block that has to leave out. -/
theorem Follows.used (h : s.Follows key o) (hs : s.Shaped n) (htells : s.Tells key u)
    (htakes : s.Takes u.index u.tag u.kind found way new) (huses : s.Uses u) :
    (s.used u.index way new).Follows key (o.after key s.geometry.ways u) := by
  obtain ⟨old, hl⟩ := htakes.exists_old
  have hi := hs.index_lt hl
  obtain ⟨lines, hget, hlen, hset⟩ := set_eq hs hi
  obtain ⟨ranked, hranks, hkeys, hnodup⟩ := h.ranked u.index lines hget
  have hmem := htakes.found_iff.trans (h.mem_keys_iff hs hi htells).symm
  have hold : lines[way]? = some old := by
    rw [line?, hget, Option.bind_some] at hl
    exact hl
  have hvictim : found = false → way = MemoryHierarchy.victim lines := by
    intro hfound
    have hway := (htakes.of_not_found hfound).1
    rw [LineStore.victim, hset] at hway
    exact (Except.ok.inj hway).symm
  have hadmits : found = false → u.admits = true := by
    intro hfound
    apply huses.2
    rw [← htakes.found_iff, hfound]
    exact Bool.noConfusion
  obtain ⟨hvalid, htag, hkind⟩ := holds_iff.mp htakes.holds
  constructor
  · exact (h.after_uses hs hi htells huses _).symm
  · intro i lines' hlines'
    rw [sets_used hget] at hlines'
    split at hlines'
    · next hindex =>
      -- the set of the block
      subst hindex
      rw [← Option.some.inj hlines']
      refine ⟨_, hranks.use hold hvalid rfl, ?_, ?_⟩
      · rw [← hkeys] at hmem hnodup
        have hrearranged := hranks.keys_use hnodup hold hmem
          (fun hfound => htakes.of_found hfound old hl) hvictim
          (fun hfound => huses.1 (htakes.found_iff.mp hfound)) hadmits
        rw [hkeys, hlen] at hrearranged
        rw [UseOrder.after_keys_self, ← hrearranged, List.map_append, List.map_singleton,
          Line.keyBy, htag, hkind]
      · rw [UseOrder.after_keys_self]
        exact rearrange_nodup hnodup _ _ _
    · next hindex =>
      -- another set, where nothing changes but the clock
      obtain ⟨others, hothers, hotherKeys, hotherNodup⟩ := h.ranked i lines' hlines'
      rw [UseOrder.after_keys_of_ne _ _ _ (Ne.symm hindex)]
      exact ⟨others, hothers.later, hotherKeys, hotherNodup⟩

/-- **A call and its list.** Whatever a call does, the store follows the list that the rule
gives. -/
theorem Follows.effect (h : s.Follows key o) (hs : s.Shaped n)
    (hi : u.index < s.geometry.sets) (htells : s.Tells key u) (he : s.Effect u found s') :
    s'.Follows key (o.after key s.geometry.ways u) := by
  cases he with
  | used way new htakes huses => exact h.used hs htells htakes huses
  | kept hfound hkeeps =>
    have hno : (if key u.tag u.kind ∈ o.keys u.index then u.refreshes else u.admits) = false := by
      rw [← Bool.not_eq_true, h.uses_iff hs hi htells]
      exact hkeeps
    rw [UseOrder.after_eq_self _ hno]
    exact h

omit [DecidableEq κ] in
theorem Follows.listed (h : s.Follows key o) {lines : List Line}
    (hget : s.sets[index]? = some lines) : Listed key lines (o.keys index) := by
  obtain ⟨ranked, hranks, hkeys, hnodup⟩ := h.ranked index lines hget
  rw [← hkeys] at hnodup ⊢
  exact hranks.listed hnodup

end LineStore

end MemoryHierarchy
