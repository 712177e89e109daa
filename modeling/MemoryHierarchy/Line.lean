import MemoryHierarchy.Address
import MemoryHierarchy.Requester

/-!
Cache lines, and the choice of the line to give up.

A set is the list of its lines in way order. Every use of a line stamps it with the next value
of one clock (`stampWay`), so the order of the stamps is the order of the last uses. The line to
give up (`victim`) is the first one that holds no block, and otherwise the one whose last use is
longest ago.
-/

namespace MemoryHierarchy

/-- One way of one set. -/
structure Line where
  /-- The tag of the block. -/
  tag : Nat
  /-- Whether the line holds a block at all. -/
  valid : Bool
  /-- Whether the block differs from its memory. -/
  dirty : Bool
  /-- The clock value of the last use. -/
  recency : Nat
  /-- The path the block belongs to. -/
  kind : Kind
  /-- The data words; a cache that keeps only tags has none. -/
  words : List Word
  deriving Repr, DecidableEq

namespace Line

/-- A line that holds no block. -/
def empty (kind : Kind) (words : Nat) : Line :=
  { tag := 0, valid := false, dirty := false, recency := 0, kind
    words := List.replicate words 0 }

/-- Whether the line holds the block of path `kind` with this tag. -/
def holds (line : Line) (tag : Nat) (kind : Kind) : Bool :=
  line.valid && line.tag == tag && line.kind == kind

/-- Whether giving the line up loses data that its memory does not have. -/
def needsWriteBack (line : Line) : Bool := line.valid && line.dirty

/-- The word at `offset`. -/
def word (line : Line) (offset : Nat) : Except Fault Word := inBounds line.words[offset]?

/-- Stores a word in the line, which then differs from its memory. -/
def store (line : Line) (offset : Nat) (word : Word) : Except Fault Line := do
  let _ ← line.word offset
  return { line with words := line.words.set offset word, dirty := true }

/-- The line as the clean holder of a block; the words are those of the block before. -/
def claim (line : Line) (tag : Nat) (kind : Kind) : Line :=
  { line with tag, valid := true, dirty := false, kind }

end Line

/-! ## The order of use within a set -/

/-- The first way with the least stamp. -/
def leastRecent (set : List Line) : Nat :=
  match (set.map (·.recency)).min? with
  | some oldest => set.findIdx (·.recency == oldest)
  | none => 0

/-- The way to give up: the first that holds no block, otherwise the least recently used one. -/
def victim (set : List Line) : Nat :=
  match set.findIdx? (!·.valid) with
  | some way => way
  | none => leastRecent set

/-- The line in way `way`. -/
def wayOf (set : List Line) (way : Nat) : Except Fault Line := inBounds set[way]?

/-- Stamps the line in way `way` with the next value of the clock; returns that value and the
set afterwards. -/
def stampWay (clock : Nat) (set : List Line) (way : Nat) : Except Fault (Nat × List Line) := do
  let now ← sum64 clock 1
  let line ← wayOf set way
  return (now, set.set way { line with recency := now })

theorem holds_iff {line : Line} {tag : Nat} {kind : Kind} :
    line.holds tag kind ↔ line.valid ∧ line.tag = tag ∧ line.kind = kind := by
  simp [Line.holds, and_assoc]

theorem leastRecent_lt {set : List Line} (h : set ≠ []) : leastRecent set < set.length := by
  unfold leastRecent
  split
  · next oldest hmin =>
    obtain ⟨line, hmem, hline⟩ := List.mem_map.mp (List.min?_mem hmin)
    exact List.findIdx_lt_length_of_exists ⟨line, hmem, by simp [hline]⟩
  · next hmin => simp_all

theorem victim_lt {set : List Line} (h : set ≠ []) : victim set < set.length := by
  unfold victim
  split
  · next way hway => exact (List.findIdx?_eq_some_iff_findIdx_eq.mp hway).1
  · exact leastRecent_lt h

end MemoryHierarchy
