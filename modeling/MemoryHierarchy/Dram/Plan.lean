import MemoryHierarchy.Dram.Interval

/-!
The timing of a request.

What a request needs depends on its bank's row buffer: with its row open only the column access,
with no row open an activate before it, with another row open a precharge before both. Every
phase holds the command bus from its start and locks the bank; the next phase starts when the
lock ends. The transfer holds the data bus from the end of the last lock on.
-/

namespace MemoryHierarchy.Dram

/-- The state of a bank's row buffer, seen from a request. -/
inductive RowStatus where
  /-- The row of the request is open. -/
  | hit
  /-- No row is open. -/
  | miss
  /-- Another row is open. -/
  | conflict
  deriving Repr, DecidableEq

/-- A command to a bank. -/
inductive Phase where
  /-- Close the open row. -/
  | precharge
  /-- Open the row of the request. -/
  | activate
  /-- Access a column of the open row. -/
  | readWrite
  deriving Repr, DecidableEq

/-- The commands that serve a request, in order. -/
def RowStatus.phases : RowStatus → List Phase
  | .hit => [.readWrite]
  | .miss => [.activate, .readWrite]
  | .conflict => [.precharge, .activate, .readWrite]

/-- The cycles that one phase holds the command bus and its bank, and that one transfer holds
the data bus. -/
structure Timing where
  commandCycles : Nat
  bankBusyCycles : Nat
  dataCycles : Nat
  deriving Repr, DecidableEq

/-- What one phase holds. -/
structure PhaseSlots where
  command : Interval
  lock : Interval
  deriving Repr, DecidableEq

namespace PhaseSlots

/-- What a phase that starts at cycle `start` holds. -/
def startingAt (t : Timing) (start : Nat) : Except Fault PhaseSlots := do
  let command ← Interval.ofLength start t.commandCycles
  let lock ← Interval.ofLength start t.bankBusyCycles
  return { command, lock }

/-- The first cycle after the lock. -/
def next (p : PhaseSlots) : Nat := p.lock.stop + 1

end PhaseSlots

/-- Everything that one request holds. -/
structure Plan where
  precharge? : Option Interval
  activate? : Option Interval
  readWrite : Interval
  bank : Interval
  data : Interval
  deriving Repr, DecidableEq

namespace Plan

/-- The plan that ends with this column access and starts its first phase at `now`. -/
def endingWith (t : Timing) (now : Nat) (precharge? activate? : Option Interval)
    (last : PhaseSlots) : Except Fault Plan := do
  let data ← Interval.ofLength last.next t.dataCycles
  return { precharge?, activate?, readWrite := last.command
           bank := ⟨now, last.lock.stop⟩, data }

/-- The plan of a request whose first phase starts at `now`. -/
def compute (t : Timing) (now : Nat) : RowStatus → Except Fault Plan
  | .hit => do
    endingWith t now none none (← PhaseSlots.startingAt t now)
  | .miss => do
    let activate ← PhaseSlots.startingAt t now
    endingWith t now none (some activate.command) (← PhaseSlots.startingAt t activate.next)
  | .conflict => do
    let precharge ← PhaseSlots.startingAt t now
    let activate ← PhaseSlots.startingAt t precharge.next
    endingWith t now (some precharge.command) (some activate.command)
      (← PhaseSlots.startingAt t activate.next)

/-- The slots on the command bus, in order. -/
def commands (p : Plan) : List Interval :=
  p.precharge?.toList ++ p.activate?.toList ++ [p.readWrite]

/-- Whether two requests with these plans, on these banks, would hold something at the same
cycle. -/
def conflicts (p : Plan) (bank : Nat) (q : Plan) (otherBank : Nat) : Bool :=
  p.commands.any (fun mine => q.commands.any mine.overlaps)
    || p.data.overlaps q.data
    || (bank == otherBank && p.bank.overlaps q.bank)

/-- The slots with their names. -/
def text (p : Plan) : String :=
  (p.precharge?.elim "" fun i => "PRECHARGE " ++ i.text ++ " ")
    ++ (p.activate?.elim "" fun i => "ACTIVATE " ++ i.text ++ " ")
    ++ "READ/WRITE " ++ p.readWrite.text ++ " DATA " ++ p.data.text ++ " BANK " ++ p.bank.text

end Plan

end MemoryHierarchy.Dram
