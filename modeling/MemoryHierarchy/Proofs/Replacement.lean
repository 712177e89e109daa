import MemoryHierarchy.L2
import MemoryHierarchy.Proofs.Lines
import MemoryHierarchy.Proofs.MemoryRanges

/-!
The line that a block is used in.

A block that is used is in the line that held it before, or it takes the line of the victim of
its set (`Takes`); either way this line, stamped as just used, is the only one that changes. So it
is for an arrival at the L2 (`replace_takes`) and for an access to a blocking cache
(`bring_takes`, `serve_takes`), whatever the memories behind them do.
-/

namespace MemoryHierarchy

namespace LineStore

/-- The line `new` for the block with this tag belongs in way `way` of set `index`: the block was
found there, or the way is the victim of a set without the block. -/
structure Takes (s : LineStore) (index tag : Nat) (kind : Kind) (found : Bool) (way : Nat)
    (new : Line) : Prop where
  holds : new.holds tag kind = true
  words : ∀ old, s.line? index way = some old → new.words.length = old.words.length
  exists_old : ∃ old, s.line? index way = some old
  of_found : found = true → ∀ old, s.line? index way = some old → old.holds tag kind = true
  of_not_found : found = false → s.victim index = .ok way
    ∧ ∀ v line, s.line? index v = some line → line.holds tag kind = false

variable {s : LineStore} {n index tag way : Nat} {kind : Kind} {found : Bool} {old new : Line}

theorem Takes.of_holds (hl : s.line? index way = some old) (hold : old.holds tag kind = true)
    (hnew : new.holds tag kind = true) (hw : new.words.length = old.words.length) :
    s.Takes index tag kind true way new where
  holds := hnew
  words := by
    intro line hline
    obtain rfl := Option.some.inj (hl.symm.trans hline)
    exact hw
  exists_old := ⟨old, hl⟩
  of_found := by
    intro _ line hline
    obtain rfl := Option.some.inj (hl.symm.trans hline)
    exact hold
  of_not_found := fun h => Bool.noConfusion h

theorem Takes.of_victim (hl : s.line? index way = some old) (hvictim : s.victim index = .ok way)
    (hno : ∀ v line, s.line? index v = some line → line.holds tag kind = false)
    (hnew : new.holds tag kind = true) (hw : new.words.length = old.words.length) :
    s.Takes index tag kind false way new where
  holds := hnew
  words := by
    intro line hline
    obtain rfl := Option.some.inj (hl.symm.trans hline)
    exact hw
  exists_old := ⟨old, hl⟩
  of_found := fun h => Bool.noConfusion h
  of_not_found := fun _ => ⟨hvictim, hno⟩

/-- The line may get other data. -/
theorem Takes.rewrite (h : s.Takes index tag kind found way old)
    (hnew : new.holds tag kind = true) (hw : new.words.length = old.words.length) :
    s.Takes index tag kind found way new :=
  { h with
    holds := hnew
    words := fun line hline => hw.trans (h.words line hline) }

theorem Takes.shaped (h : s.Takes index tag kind found way new) (hs : s.Shaped n) :
    (s.used index way new).Shaped n := by
  obtain ⟨old, hl⟩ := h.exists_old
  exact hs.used hl ((h.words old hl).trans (hs.words _ _ _ hl))

/-- Every line is on the same path. -/
def OnePath (s : LineStore) (kind : Kind) : Prop :=
  ∀ index way line, s.line? index way = some line → line.kind = kind

theorem empty_onePath (g : Geometry) (kind : Kind) (n : Nat) :
    (LineStore.empty g kind n).OnePath kind := by
  intro index way line hl
  rw [empty_line? hl]
  rfl

/-- The line of a used block is on its path, as all others are. -/
theorem OnePath.used (h : s.OnePath kind) (htakes : s.Takes index tag kind found way new) :
    (s.used index way new).OnePath kind := by
  intro i v line hl
  obtain ⟨old, hold⟩ := htakes.exists_old
  rw [line?_used hold] at hl
  split at hl
  · rw [← Option.some.inj hl]
    exact (holds_iff.mp htakes.holds).2.2
  · exact h i v line hl

end LineStore

open LineStore

theorem Line.holds_claim (line : Line) (tag : Nat) (kind : Kind) (words : List Word) :
    Line.holds { line.claim tag kind with words } tag kind = true :=
  holds_iff.mpr ⟨rfl, rfl, rfl⟩

variable {s : LineStore} {memories : PerKind Port}

/-- The victim of a set makes room for a block, and is written back first if it is dirty. -/
theorem L2.replace_spec (hs : s.Shaped s.geometry.wordsPerLine) {place : Location}
    (hi : place.index < s.geometry.sets) (kind : Kind) :
    Ends (L2.replace s place kind memories) (fun _ => True) fun r => ∃ way old words,
      s.victim place.index = .ok way ∧ s.line? place.index way = some old
        ∧ words.length = old.words.length ∧ r.1.isSome = old.needsWriteBack
        ∧ r.2.1 = s.used place.index way { old.claim place.tag kind with words } := by
  obtain ⟨way, old, hvictim, hl⟩ := victim_spec hs hi
  have hlen : old.words.length = s.geometry.wordsPerLine := hs.words _ _ _ hl
  rw [L2.replace]
  apply Ends.bind_ok hvictim
  apply Ends.bind_ok (line_eq hs hl)
  apply Ends.bind' (Port.isSome_writeBack _ _ _ _)
  intro written hwritten
  apply Ends.bind' ((install_spec hs hl place.tag kind).faults fun _ _ => trivial)
  intro installed hinstalled
  subst hinstalled
  apply Ends.bind' (Port.length_fetch _ _ _)
  intro fetched hfetched
  apply Ends.bind_ok (putWords_used hs hl (old.claim place.tag kind) hlen fetched.1)
  exact Ends.pure' ⟨way, old, fetched.1, hvictim, hl, hfetched.trans hlen.symm, hwritten, rfl⟩

/-- A block that is not in its set takes the place of the victim. -/
theorem L2.replace_takes (hs : s.Shaped s.geometry.wordsPerLine) {place : Location}
    (hi : place.index < s.geometry.sets) (kind : Kind)
    (hno : ∀ v line, s.line? place.index v = some line → line.holds place.tag kind = false) :
    Ends (L2.replace s place kind memories) (fun _ => True) fun r =>
      ∃ way new, s.Takes place.index place.tag kind false way new
        ∧ r.2.1 = s.used place.index way new := by
  apply (L2.replace_spec hs hi kind).weaken
  intro r hr
  obtain ⟨way, old, words, hvictim, hl, hlen, -, hstore⟩ := hr
  exact ⟨way, _, Takes.of_victim hl hvictim hno (Line.holds_claim _ _ _ _) hlen, hstore⟩

end MemoryHierarchy
