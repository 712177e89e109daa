import MemoryHierarchy.Counters
import MemoryHierarchy.Proofs.Run

/-!
What is counted.

Counting either overflows or changes one count, which grows by one (`increment_spec`). Of a look-up
and of a started request there is one counter each (`lookupCounter`, `rowCounter`); a probe that
misses counts twice (`answered`).
-/

namespace MemoryHierarchy.Counters

/-- The counters after `n` more of one kind. -/
def plus (c : Counters) (name : Counter) (n : Nat) : Counters := c.set name (c.get name + n)

theorem plus_zero (c : Counters) (name : Counter) : c.plus name 0 = c := by
  cases name <;> rfl

/-- Events of one kind add up. -/
theorem plus_plus (c : Counters) (name : Counter) (m n : Nat) :
    (c.plus name m).plus name n = c.plus name (m + n) := by
  rw [plus, plus, get_set_self, plus, Nat.add_assoc]
  cases name <;> rfl

theorem increment_spec (c : Counters) (name : Counter) :
    Ends (c.increment name) Overflows (· = c.plus name 1) := by
  rw [increment]
  apply Ends.bind' (sum64_spec _ _)
  intro n hn
  subst hn
  exact Ends.pure' rfl

theorem incrementIf_spec (c : Counters) (happened : Bool) (name : Counter) :
    Ends (c.incrementIf happened name) Overflows (· = c.plus name happened.toNat) := by
  rw [incrementIf]
  cases happened with
  | true => exact c.increment_spec name
  | false => exact Ends.ok rfl (c.plus_zero name).symm

/-- The counter of a look-up in the L1 of path `kind`. -/
def lookupCounter : Kind → Outcome → Counter
  | .instruction, .hit => .instructionHits
  | .instruction, .miss => .instructionMisses
  | .data, .hit => .dataHits
  | .data, .miss => .dataMisses

theorem countLookup_spec (c : Counters) (kind : Kind) (outcome : Outcome) :
    Ends (c.countLookup kind outcome) Overflows (· = c.plus (lookupCounter kind outcome) 1) := by
  cases kind <;> cases outcome <;> exact c.increment_spec _

/-- The counter of started requests that found their row buffer like this. -/
def rowCounter : Dram.RowStatus → Counter
  | .hit => .rowHits
  | .miss => .rowMisses
  | .conflict => .rowConflicts

theorem countRow_spec (c : Counters) (status : Dram.RowStatus) :
    Ends (c.countRow status) Overflows (· = c.plus (rowCounter status) 1) := by
  cases status <;> exact c.increment_spec _

/-- The counters after this answer to a probe. -/
def answered (c : Counters) : L2.Response → Counters
  | .hit => c.plus .l2Hits 1
  | .miss disposition => (c.plus .l2Misses 1).plus (dispositionCounter disposition) 1

theorem countResponse_spec (c : Counters) (response : L2.Response) :
    Ends (c.countResponse response) Overflows (· = c.answered response) := by
  cases response with
  | hit => exact c.increment_spec _
  | miss disposition =>
    apply Ends.bind' (c.increment_spec _)
    intro c' hc'
    subst hc'
    exact increment_spec _ _

/-! ## Faults -/

theorem increment_ends (c : Counters) (name : Counter) :
    Ends (c.increment name) Overflows fun _ => True :=
  (c.increment_spec name).weaken fun _ _ => trivial

theorem incrementIf_ends (c : Counters) (happened : Bool) (name : Counter) :
    Ends (c.incrementIf happened name) Overflows fun _ => True :=
  (c.incrementIf_spec happened name).weaken fun _ _ => trivial

theorem countLookup_ends (c : Counters) (kind : Kind) (outcome : Outcome) :
    Ends (c.countLookup kind outcome) Overflows fun _ => True :=
  (c.countLookup_spec kind outcome).weaken fun _ _ => trivial

theorem countResponse_ends (c : Counters) (response : L2.Response) :
    Ends (c.countResponse response) Overflows fun _ => True :=
  (c.countResponse_spec response).weaken fun _ _ => trivial

theorem countRow_ends (c : Counters) (status : Dram.RowStatus) :
    Ends (c.countRow status) Overflows fun _ => True :=
  (c.countRow_spec status).weaken fun _ _ => trivial

end MemoryHierarchy.Counters
