import MemoryHierarchy.Config
import MemoryHierarchy.Dram.Bank
import MemoryHierarchy.Dram.Channel
import MemoryHierarchy.FirstMatch
import MemoryHierarchy.Address
import MemoryHierarchy.Requester

/-!
The memory controller.

Requests wait in arrival order. Each cycle the controller first retires the requests whose
transfer has ended, then plans the waiting ones anew and starts at most one: the oldest row hit
among those whose plan meets no reservation, otherwise the oldest of those. What a started
request needs is reserved until it retires.
-/

namespace MemoryHierarchy.Dram

/-- A block asked of memory. -/
structure Request where
  /-- Its number in arrival order. -/
  id : Nat
  block : BlockRef
  bank : Nat
  row : Nat
  /-- The cycle of its arrival. -/
  arrival : Nat
  /-- The row buffer of its bank when it was planned last. -/
  status : RowStatus
  /-- Its last plan; the one it was started with, once started. -/
  plan : Plan
  deriving Repr, DecidableEq

/-- Whether two requests would hold something at the same cycle. -/
def Request.conflictsWith (r s : Request) : Bool := r.plan.conflicts r.bank s.plan s.bank

/-- The banks, their channel, and the requests. -/
structure Controller where
  banks : Array Bank
  channel : Channel
  /-- Requests that wait, oldest first. -/
  pending : List Request
  /-- Requests that were started and have not retired, in the order of their start. -/
  ongoing : List Request
  timing : Timing
  /-- The lowest bit of an address that selects a bank. -/
  bankShift : Nat
  /-- The lowest bit of the row. -/
  rowShift : Nat
  /-- The number of the next request. -/
  nextId : Nat
  deriving Repr, DecidableEq

/-- What one cycle of the controller did. -/
structure Cycle where
  /-- The blocks whose transfer has ended. -/
  retired : List BlockRef
  /-- The request that was started. -/
  started? : Option Request
  deriving Repr, DecidableEq

namespace Controller

/-- A controller without requests. The bank bits lie just above those of a line. -/
def idle (config : Config.Dram) (lineBytes : Nat) : Controller where
  banks := Array.replicate config.banks.toNat Bank.idle
  channel := Channel.idle
  pending := []
  ongoing := []
  timing :=
    { commandCycles := config.commandCycles.toNat
      bankBusyCycles := config.bankBusyCycles.toNat
      dataCycles := config.dataCycles.toNat }
  bankShift := trailingZeros lineBytes
  rowShift := config.rowShift.toNat
  nextId := 0

/-- The bank of an address: the low bits of its line number. -/
def bankIndex (c : Controller) (address : Nat) : Except Fault Nat :=
  match exponent? c.banks.size with
  | some k => return (← highBits address c.bankShift) % twoPow k
  | none => .error (.unmaskableBanks c.banks.size)

/-- The row of an address. -/
def row (c : Controller) (address : Nat) : Except Fault Nat := highBits address c.rowShift

/-- The bank at `index`. -/
def bank (c : Controller) (index : Nat) : Except Fault Bank := inBounds c.banks[index]?

/-- Replaces the bank at `index`. -/
def putBank (c : Controller) (index : Nat) (b : Bank) : Controller :=
  { c with banks := c.banks.setIfInBounds index b }

/-- Queues a block that is asked for at cycle `now`. -/
def add (c : Controller) (block : BlockRef) (now : Nat) :
    Except Fault (Request × Controller) := do
  let index ← c.bankIndex block.address
  let row ← c.row block.address
  let status := (← c.bank index).status row
  let plan ← Plan.compute c.timing now status
  let request := { id := c.nextId, block, bank := index, row, arrival := now, status, plan }
  let nextId ← sum64 c.nextId 1
  return (request, { c with pending := c.pending ++ [request], nextId })

/-! ## Retiring -/

/-- Drops everything that a request holds. -/
def release (c : Controller) (r : Request) : Except Fault Controller := do
  let bank ← c.bank r.bank
  return { c with channel := c.channel.release r.id }.putBank r.bank (bank.release r.id)

/-- Whether the transfer of a started request has ended by cycle `now`. -/
def hasEnded (now : Nat) (r : Request) : Bool := r.plan.data.stop ≤ now

/-- Retires the requests whose transfer has ended; returns their blocks. -/
def retire (c : Controller) (now : Nat) : Except Fault (List BlockRef × Controller) := do
  let (ended, ongoing) := c.ongoing.partition (hasEnded now)
  let c ← ended.foldlM release { c with ongoing }
  return (ended.map (·.block), c)

/-! ## Starting a request -/

/-- Plans a request against its bank as it is now. -/
def replan (c : Controller) (now : Nat) (r : Request) : Except Fault Request := do
  let status := (← c.bank r.bank).status r.row
  return { r with status, plan := ← Plan.compute c.timing now status }

/-- Whether the plan of a request meets no reservation. -/
def isCandidate (c : Controller) (r : Request) : Except Fault Bool :=
  if c.channel.isFree r.plan then return (← c.bank r.bank).isFree r.plan.bank
  else .ok false

/-- Plans waiting requests anew, oldest first, and notes which could start now. The first of
them that hits its row ends the pass: the requests behind it are neither planned nor
considered. -/
def survey (c : Controller) (now : Nat) : List Request → Except Fault (List (Request × Bool))
  | [] => .ok []
  | r :: rest => do
    let r ← c.replan now r
    let candidate ← c.isCandidate r
    if candidate && r.status == .hit then
      return (r, true) :: rest.map (·, false)
    return (r, candidate) :: (← c.survey now rest)

/-- The request to start, and the others: the first candidate that hits its row, otherwise the
first candidate. -/
def choose (queue : List (Request × Bool)) :
    Option ((Request × Bool) × List (Request × Bool)) :=
  takeFirst? (fun (r, candidate) => candidate && r.status == .hit) queue
    <|> takeFirst? (fun (_, candidate) => candidate) queue

/-- Starts a request: carries out its commands and reserves what it needs. -/
def start (c : Controller) (r : Request) : Except Fault Controller := do
  let bank ← (← c.bank r.bank).performAll r.status.phases r.row
  let c := c.putBank r.bank (bank.reserve r.id r.plan.bank)
  return { c with channel := c.channel.reserve r.id r.plan, ongoing := c.ongoing ++ [r] }

/-- Plans the waiting requests anew and starts at most one. -/
def schedule (c : Controller) (now : Nat) : Except Fault (Option Request × Controller) := do
  let queue ← c.survey now c.pending
  match choose queue with
  | none => return (none, { c with pending := queue.map Prod.fst })
  | some ((r, _), others) =>
    return (some r, ← { c with pending := others.map Prod.fst }.start r)

/-- One cycle of the controller. -/
def tick (c : Controller) (now : Nat) : Except Fault (Cycle × Controller) := do
  let (retired, c) ← c.retire now
  let (started?, c) ← c.schedule now
  return ({ retired, started? }, c)

/-- Whether no request waits or is under way. -/
def isIdle (c : Controller) : Bool := c.pending.isEmpty && c.ongoing.isEmpty

end Controller

end MemoryHierarchy.Dram
