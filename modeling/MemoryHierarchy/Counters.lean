import MemoryHierarchy.Dram.Plan
import MemoryHierarchy.L2

/-!
Counters of everything that happens in a hierarchy. A counter that 64 bits cannot hold any more
is a fault.
-/

namespace MemoryHierarchy

/-- The counts of one run. -/
structure Counters where
  /-- Ticks. -/
  cycles : Nat := 0
  /-- Look-ups in the instruction L1 that found their block. -/
  instructionHits : Nat := 0
  /-- Look-ups in the instruction L1 that did not. -/
  instructionMisses : Nat := 0
  /-- Look-ups in the data L1 that found their block. -/
  dataHits : Nat := 0
  /-- Look-ups in the data L1 that did not. -/
  dataMisses : Nat := 0
  /-- Blocks taken in by an L1. -/
  l1Fills : Nat := 0
  /-- Probes that found their block in the L2. -/
  l2Hits : Nat := 0
  /-- Probes that did not. -/
  l2Misses : Nat := 0
  /-- Words stored in the L2. -/
  l2Writes : Nat := 0
  /-- Blocks that came back from memory. -/
  l2Fills : Nat := 0
  /-- Dirty blocks written back. -/
  l2WriteBacks : Nat := 0
  /-- Misses that asked memory for their block. -/
  missesIssued : Nat := 0
  /-- Misses on a block that was outstanding. -/
  missesMerged : Nat := 0
  /-- Misses that found the miss table full. -/
  missesStalled : Nat := 0
  /-- Outstanding misses withdrawn. -/
  cancellations : Nat := 0
  /-- Requests that reached the memory controller. -/
  dramRequests : Nat := 0
  /-- Requests started with their row open. -/
  rowHits : Nat := 0
  /-- Requests started with no row open. -/
  rowMisses : Nat := 0
  /-- Requests started with another row open. -/
  rowConflicts : Nat := 0
  /-- Requests whose transfer ended. -/
  dramRetired : Nat := 0
  /-- Messages delivered by the interconnect. -/
  messagesDelivered : Nat := 0
  deriving Repr, DecidableEq

/-- The name of one count. -/
inductive Counter where
  | cycles
  | instructionHits
  | instructionMisses
  | dataHits
  | dataMisses
  | l1Fills
  | l2Hits
  | l2Misses
  | l2Writes
  | l2Fills
  | l2WriteBacks
  | missesIssued
  | missesMerged
  | missesStalled
  | cancellations
  | dramRequests
  | rowHits
  | rowMisses
  | rowConflicts
  | dramRetired
  | messagesDelivered
  deriving Repr, DecidableEq

/-- Every counter. -/
def Counter.all : List Counter :=
  [cycles, instructionHits, instructionMisses, dataHits, dataMisses, l1Fills, l2Hits, l2Misses,
    l2Writes, l2Fills, l2WriteBacks, missesIssued, missesMerged, missesStalled, cancellations,
    dramRequests, rowHits, rowMisses, rowConflicts, dramRetired, messagesDelivered]

namespace Counters

/-- The count of one name. -/
def get (c : Counters) : Counter → Nat
  | .cycles => c.cycles
  | .instructionHits => c.instructionHits
  | .instructionMisses => c.instructionMisses
  | .dataHits => c.dataHits
  | .dataMisses => c.dataMisses
  | .l1Fills => c.l1Fills
  | .l2Hits => c.l2Hits
  | .l2Misses => c.l2Misses
  | .l2Writes => c.l2Writes
  | .l2Fills => c.l2Fills
  | .l2WriteBacks => c.l2WriteBacks
  | .missesIssued => c.missesIssued
  | .missesMerged => c.missesMerged
  | .missesStalled => c.missesStalled
  | .cancellations => c.cancellations
  | .dramRequests => c.dramRequests
  | .rowHits => c.rowHits
  | .rowMisses => c.rowMisses
  | .rowConflicts => c.rowConflicts
  | .dramRetired => c.dramRetired
  | .messagesDelivered => c.messagesDelivered

/-- Replaces the count of one name. -/
def set (c : Counters) (name : Counter) (n : Nat) : Counters :=
  match name with
  | .cycles => { c with cycles := n }
  | .instructionHits => { c with instructionHits := n }
  | .instructionMisses => { c with instructionMisses := n }
  | .dataHits => { c with dataHits := n }
  | .dataMisses => { c with dataMisses := n }
  | .l1Fills => { c with l1Fills := n }
  | .l2Hits => { c with l2Hits := n }
  | .l2Misses => { c with l2Misses := n }
  | .l2Writes => { c with l2Writes := n }
  | .l2Fills => { c with l2Fills := n }
  | .l2WriteBacks => { c with l2WriteBacks := n }
  | .missesIssued => { c with missesIssued := n }
  | .missesMerged => { c with missesMerged := n }
  | .missesStalled => { c with missesStalled := n }
  | .cancellations => { c with cancellations := n }
  | .dramRequests => { c with dramRequests := n }
  | .rowHits => { c with rowHits := n }
  | .rowMisses => { c with rowMisses := n }
  | .rowConflicts => { c with rowConflicts := n }
  | .dramRetired => { c with dramRetired := n }
  | .messagesDelivered => { c with messagesDelivered := n }

/-- Adds one to a count. -/
def increment (c : Counters) (name : Counter) : Except Fault Counters := do
  return c.set name (← sum64 (c.get name) 1)

/-- Adds one to a count if `happened`. -/
def incrementIf (c : Counters) (happened : Bool) (name : Counter) : Except Fault Counters :=
  if happened then c.increment name else .ok c

/-- Counts a look-up in the L1 of path `kind`. -/
def countLookup (c : Counters) : (kind : Kind) → Outcome → Except Fault Counters
  | .instruction, .hit => c.increment .instructionHits
  | .instruction, .miss => c.increment .instructionMisses
  | .data, .hit => c.increment .dataHits
  | .data, .miss => c.increment .dataMisses

/-- The counter of what became of a miss. -/
def dispositionCounter : L2.Disposition → Counter
  | .issued => .missesIssued
  | .outstanding => .missesMerged
  | .stalled => .missesStalled

/-- Counts the answer to a probe. -/
def countResponse (c : Counters) : L2.Response → Except Fault Counters
  | .hit => c.increment .l2Hits
  | .miss disposition => do
    (← c.increment .l2Misses).increment (dispositionCounter disposition)

/-- Counts a started request by the row buffer it found. -/
def countRow (c : Counters) : Dram.RowStatus → Except Fault Counters
  | .hit => c.increment .rowHits
  | .miss => c.increment .rowMisses
  | .conflict => c.increment .rowConflicts

@[simp] theorem get_set_self (c : Counters) (k : Counter) (n : Nat) : (c.set k n).get k = n := by
  cases k <;> rfl

theorem get_set_of_ne (c : Counters) {j k : Counter} (n : Nat) (h : j ≠ k) :
    (c.set k n).get j = c.get j := by
  cases k <;> cases j <;> first | rfl | contradiction

end Counters

end MemoryHierarchy
