import MemoryHierarchy.Dram.Plan

/-!
One bank: the row it has open, and the requests that hold it.
-/

namespace MemoryHierarchy.Dram

/-- A bank. -/
structure Bank where
  openRow? : Option Nat
  /-- Oldest first. -/
  reservations : List Reservation
  deriving Repr, DecidableEq, Inhabited

namespace Bank

/-- A bank with no row open that no request holds. -/
def idle : Bank := { openRow? := none, reservations := [] }

/-- The row buffer, seen from a request for `row`. -/
def status (b : Bank) (row : Nat) : RowStatus :=
  match b.openRow? with
  | none => .miss
  | some other => if other = row then .hit else .conflict

/-- Closes the open row. -/
def precharge (b : Bank) : Bank := { b with openRow? := none }

/-- Opens a row; no other may be open. -/
def activate (b : Bank) (row : Nat) : Except Fault Bank :=
  match b.openRow? with
  | none => .ok { b with openRow? := some row }
  | some other => .error (.rowStillOpen row other)

/-- Checks that a column of `row` can be accessed. -/
def access (b : Bank) (row : Nat) : Except Fault Unit :=
  if b.openRow? = some row then .ok () else .error .closedRow

/-- Carries out one command of a request for `row`. -/
def perform (b : Bank) (row : Nat) : Phase → Except Fault Bank
  | .precharge => .ok b.precharge
  | .activate => b.activate row
  | .readWrite => do b.access row; return b

/-- Carries out commands of a request for `row`, in order. -/
def performAll (b : Bank) (phases : List Phase) (row : Nat) : Except Fault Bank :=
  phases.foldlM (fun b phase => b.perform row phase) b

/-- Has a request hold the bank. -/
def reserve (b : Bank) (owner : Nat) (interval : Interval) : Bank :=
  { b with reservations := b.reservations ++ [{ owner, interval }] }

/-- Drops what a request holds. -/
def release (b : Bank) (owner : Nat) : Bank :=
  { b with reservations := releaseOwner b.reservations owner }

/-- Whether no request holds the bank in `interval`. -/
def isFree (b : Bank) (interval : Interval) : Bool := isUnreserved b.reservations interval

end Bank

end MemoryHierarchy.Dram
