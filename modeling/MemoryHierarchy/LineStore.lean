import MemoryHierarchy.Geometry
import MemoryHierarchy.Line

/-!
The lines of a set-associative cache: `sets` sets of `ways` lines each, and the clock that
stamps their uses. One clock serves all sets.
-/

namespace MemoryHierarchy

/-- All lines of a cache, set by set. -/
structure LineStore where
  geometry : Geometry
  sets : Array (List Line)
  /-- The stamp of the last use; zero before the first. -/
  clock : Nat
  deriving Repr, DecidableEq

namespace LineStore

/-- A store of lines that hold no block, each with so many data words. -/
def empty (geometry : Geometry) (kind : Kind) (words : Nat) : LineStore :=
  { geometry, clock := 0
    sets := Array.replicate geometry.sets
      (List.replicate geometry.ways (Line.empty kind words)) }

/-- A store that keeps tags only. -/
def tagsOnly (geometry : Geometry) (kind : Kind) : LineStore := empty geometry kind 0

/-- A store that keeps the data of every line. -/
def withData (geometry : Geometry) (kind : Kind) : LineStore :=
  empty geometry kind geometry.wordsPerLine

/-- The lines of set `index`. The number of lines up to the end of the set has to fit 64 bits. -/
def set (s : LineStore) (index : Nat) : Except Fault (List Line) :=
  if (index + 1) * s.geometry.ways < UInt64.size then inBounds s.sets[index]?
  else .error .overflow

/-- Replaces the lines of set `index`. -/
def putSet (s : LineStore) (index : Nat) (lines : List Line) : LineStore :=
  { s with sets := s.sets.setIfInBounds index lines }

/-- All lines, set by set and in way order. -/
def lines (s : LineStore) : List Line := s.sets.toList.flatten

/-- The way of set `index` that holds the block of path `kind` with this tag. -/
def find (s : LineStore) (index tag : Nat) (kind : Kind) : Except Fault (Option Nat) :=
  return (← s.set index).findIdx? (·.holds tag kind)

/-- The way of set `index` to give up next. -/
def victim (s : LineStore) (index : Nat) : Except Fault Nat :=
  return MemoryHierarchy.victim (← s.set index)

/-- The line in way `way` of set `index`. -/
def line (s : LineStore) (index way : Nat) : Except Fault Line := do
  wayOf (← s.set index) way

/-- Replaces the line in way `way` of set `index`. -/
def putLine (s : LineStore) (index way : Nat) (line : Line) : Except Fault LineStore := do
  let lines ← s.set index
  let _ ← wayOf lines way
  return s.putSet index (lines.set way line)

/-- Makes way `way` of set `index` the most recently used one. -/
def touch (s : LineStore) (index way : Nat) : Except Fault LineStore := do
  let (clock, lines) ← stampWay s.clock (← s.set index) way
  return { s.putSet index lines with clock }

/-- Gives way `way` of set `index` to the block with this tag, clean and just used. The data
words are still those of the block before. -/
def install (s : LineStore) (index way tag : Nat) (kind : Kind) : Except Fault LineStore := do
  let line ← s.line index way
  (← s.putLine index way (line.claim tag kind)).touch index way

/-- Whether the block of path `kind` at `address` is in the store. -/
def contains (s : LineStore) (address : Nat) (kind : Kind) : Except Fault Bool := do
  let place := s.geometry.locate address
  return (← s.find place.index place.tag kind).isSome

end LineStore

end MemoryHierarchy
