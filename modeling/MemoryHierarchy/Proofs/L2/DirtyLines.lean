import MemoryHierarchy.Proofs.L2.Answers
import MemoryHierarchy.Proofs.Replacement

/-!
How many lines of the L2 are dirty.

A line that is used again may become dirty or clean, and all others stay as they are
(`dirtyLines_used`). So a write makes at most one line dirty (`served_dirtyLines_le`), and an
arrival makes one clean exactly if it writes one back (`fill_dirtyLines`).
-/

namespace MemoryHierarchy

namespace LineStore

/-- The number of lines that differ from their memory. -/
def dirtyLines (s : LineStore) : Nat := s.lines.countP Line.needsWriteBack

variable {s : LineStore} {index way : Nat} {old : Line}

theorem dirtyLines_empty (g : Geometry) (kind : Kind) (n : Nat) :
    (empty g kind n).dirtyLines = 0 := by
  rw [dirtyLines, List.countP_eq_zero]
  intro line hline
  obtain ⟨lines, hlines, hmem⟩ := List.mem_flatten.mp hline
  rw [empty, Array.toList_replicate] at hlines
  rw [(List.mem_replicate.mp hlines).2] at hmem
  rw [(List.mem_replicate.mp hmem).2]
  exact Bool.false_ne_true

/-- Only the line that is used can become dirty or clean. -/
theorem dirtyLines_used (h : s.line? index way = some old) (new : Line) :
    (s.used index way new).dirtyLines + old.needsWriteBack.toNat
      = s.dirtyLines + new.needsWriteBack.toNat := by
  obtain ⟨front, back, hbefore, hafter⟩ := lines_withLine h { new with recency := s.clock + 1 }
  have hcount : ∀ line : Line, (front ++ line :: back).countP Line.needsWriteBack
      = front.countP Line.needsWriteBack + back.countP Line.needsWriteBack
        + line.needsWriteBack.toNat := by
    intro line
    rw [List.countP_append, List.countP_cons, Nat.add_assoc]
    cases line.needsWriteBack <;> rfl
  have hused : (s.used index way new).lines
      = front ++ { new with recency := s.clock + 1 } :: back := hafter
  rw [dirtyLines, dirtyLines, hused, hbefore, hcount, hcount]
  exact Nat.add_right_comm _ _ _

/-- A use alone changes nothing. -/
theorem dirtyLines_touched (h : s.line? index way = some old) :
    (s.used index way old).dirtyLines = s.dirtyLines :=
  Nat.add_right_cancel (dirtyLines_used h old)

end LineStore

open LineStore

namespace L2

variable {c : L2} {p : Probe} {way : Nat} {line : Line}

theorem served_dirtyLines_read
    (hl : c.store.line? (c.store.geometry.locate p.address).index way = some line)
    (hread : p.operation = .read) (ic : Interconnect) :
    (c.served p way line ic).cache.store.dirtyLines = c.store.dirtyLines := by
  rw [served, hread]
  exact dirtyLines_touched hl

/-- An operation makes one line dirty at most. -/
theorem served_dirtyLines_le
    (hl : c.store.line? (c.store.geometry.locate p.address).index way = some line)
    (ic : Interconnect) :
    (c.served p way line ic).cache.store.dirtyLines ≤ c.store.dirtyLines + 1 := by
  have hused := dirtyLines_used hl
    (p.operation.perform (c.store.geometry.locate p.address).offset line)
  have hone := Bool.toNat_le
    (p.operation.perform (c.store.geometry.locate p.address).offset line).needsWriteBack
  rw [served]
  dsimp only
  omega

/-- An arrival makes a line clean exactly if it writes one back. -/
theorem fill_dirtyLines (hs : c.store.Shaped c.store.geometry.wordsPerLine) (block : BlockRef)
    (ic : Interconnect) (memories : PerKind Port) :
    Ends (c.fill block ic memories) (fun _ => True) fun r =>
      r.cache.store.dirtyLines + r.wroteBack?.isSome.toNat = c.store.dirtyLines := by
  have hi := Geometry.locate_index_lt (g := c.store.geometry) block.address
  rw [fill]
  rcases find_spec hs hi (c.store.geometry.locate block.address).tag block.kind with
    ⟨way, line, hfind, hl, -⟩ | ⟨hfind, -⟩
  · apply Ends.bind_ok hfind
    apply Ends.bind' ((touch_spec hs hl).faults fun _ _ => trivial)
    intro store hstore
    subst hstore
    exact Ends.pure' (dirtyLines_touched hl)
  · apply Ends.bind_ok hfind
    apply Ends.bind' (replace_spec hs hi block.kind)
    intro r hr
    obtain ⟨way, old, words, -, hl, -, hwrote, hstore⟩ := hr
    apply Ends.pure'
    -- the new line is clean, so what counted before is the victim
    rw [hwrote, hstore]
    exact dirtyLines_used hl { old.claim _ block.kind with words }

end L2

end MemoryHierarchy
