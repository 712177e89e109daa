import MemoryHierarchy.LineStore
import MemoryHierarchy.Port

/-!
Moving whole lines between a cache that holds data and the memory behind it.
-/

namespace MemoryHierarchy

/-- Writes the words of a line of set `index` to memory if the line is dirty; returns the block
that was written. -/
def Port.writeBack (p : Port) (g : Geometry) (index : Nat) (line : Line) :
    Except Fault (Option BlockRef × Port) :=
  if line.needsWriteBack then do
    let block := g.blockStart line.tag index
    let p ← p.writeWords g.word.bytes block line.words
    return (some { address := block, kind := line.kind }, p)
  else .ok (none, p)

/-- Reads the words of the line that starts at `block`. -/
def Port.fetch (p : Port) (g : Geometry) (block : Nat) : Except Fault (List Word × Port) :=
  p.readWords g.word.bytes block g.wordsPerLine

/-- Replaces the data words of way `way` of set `index`. -/
def LineStore.putWords (s : LineStore) (index way : Nat) (words : List Word) :
    Except Fault LineStore := do
  s.putLine index way { ← s.line index way with words }

end MemoryHierarchy
