import MemoryHierarchy.Config.Validation
import MemoryHierarchy.Counters
import MemoryHierarchy.Dram.Controller

/-!
The whole hierarchy: two L1 caches, the L2, the interconnect, the memory controller and the
memories.

Accesses, writes and cancellations take effect at once and take no time. A tick is one cycle: it
delivers the messages that are due, then lets the memory controller retire and start requests,
then advances the clock. Messages sent during a tick begin to count down at the next one.
-/

namespace MemoryHierarchy

/-- A hierarchy and its history so far. -/
structure Hierarchy where
  l1 : PerKind L1
  l2 : L2
  interconnect : Interconnect
  dram : Dram.Controller
  memories : PerKind Port
  /-- The number of addresses that can be accessed. -/
  memoryBytes : Nat
  /-- The ticks so far. -/
  cycle : Nat
  counters : Counters
  deriving Repr, DecidableEq

namespace Hierarchy

/-- The hierarchy of a configuration that passed its checks, over memories of zeros. -/
def build (c : Config) (g : Config.Geometries) : Hierarchy where
  l1 :=
    { instruction := L1.empty g.l1.instruction .instruction
      data := L1.empty g.l1.data .data }
  l2 := L2.empty g.l2 c.missTracking.entries.toNat
  interconnect := Interconnect.empty c.latencies
  dram := Dram.Controller.idle c.dram g.l2.lineBytes
  memories := PerKind.both
    (Port.ofMemory (Memory.zeroed c.general.memoryBytes.toNat c.wordBytes))
  memoryBytes := c.general.memoryBytes.toNat
  cycle := 0
  counters := {}

/-- The hierarchy of a configuration. -/
def ofConfig? (c : Config) : Except ConfigError Hierarchy := do
  return build c (← c.validate)

/-! ## Requests -/

/-- Checks that an address lies in memory. -/
def checkAddress (h : Hierarchy) (address : Nat) : Except Fault Unit :=
  if address < h.memoryBytes then .ok () else .error (.outsideMemory address h.memoryBytes)

/-- Looks an address up in the L1 of path `kind`. -/
def lookUp (h : Hierarchy) (kind : Kind) (address : Nat) : Except Fault (Lookup × Hierarchy) := do
  let (lookup, l1) ← (h.l1.get kind).access address
  let counters ← h.counters.countLookup kind lookup.outcome
  return (lookup, { h with l1 := h.l1.set kind l1, counters })

/-- Has the L2 answer a probe. -/
def probe (h : Hierarchy) (p : Probe) : Except Fault (L2.Response × Hierarchy) := do
  let probed ← h.l2.probe p h.interconnect
  let counters ← h.counters.countResponse probed.response
  return (probed.response,
    { h with l2 := probed.cache, interconnect := probed.interconnect, counters })

/-- Accesses an address. A block that is not in the L1 is asked of the L2; the access is to be
repeated once it has come. -/
def access (h : Hierarchy) (kind : Kind) (address : Nat) :
    Except Fault (Outcome × Hierarchy) := do
  h.checkAddress address
  match ← h.lookUp kind address with
  | (.hit, h) => return (.hit, h)
  | (.miss probe, h) => return (.miss, (← h.probe probe).2)

/-- Writes a data word. The word goes to the L2, if its block is there; otherwise the block is
asked for and the write is to be repeated. -/
def write (h : Hierarchy) (address : Nat) (word : Word) : Except Fault (Outcome × Hierarchy) := do
  h.checkAddress address
  let (_, h) ← h.lookUp .data address
  let (response, h) ← h.probe { address, kind := .data, operation := .write word }
  let counters ← h.counters.incrementIf (response.outcome == .hit) .l2Writes
  return (response.outcome, { h with counters })

/-- Withdraws the outstanding miss of path `kind` on an address; tells whether there was one. -/
def cancel (h : Hierarchy) (kind : Kind) (address : Nat) : Except Fault (Bool × Hierarchy) := do
  let request := (h.l1.get kind).cancellation address
  let (cancelled, l2) := h.l2.cancel request.address request.kind
  let counters ← h.counters.incrementIf cancelled .cancellations
  return (cancelled, { h with l2, counters })

/-! ## Ticks -/

/-- An L1 takes in a block. -/
def arriveAtL1 (h : Hierarchy) (block : BlockRef) : Except Fault Hierarchy := do
  let (inserted, l1) ← (h.l1.get block.kind).insert block.address
  let counters ← h.counters.incrementIf inserted .l1Fills
  return { h with l1 := h.l1.set block.kind l1, counters }

/-- The memory controller takes in a request. -/
def arriveAtMemory (h : Hierarchy) (block : BlockRef) : Except Fault Hierarchy := do
  let (_, dram) ← h.dram.add block h.cycle
  return { h with dram, counters := ← h.counters.increment .dramRequests }

/-- The L2 takes in a block. -/
def arriveAtL2 (h : Hierarchy) (block : BlockRef) : Except Fault Hierarchy := do
  let filled ← h.l2.fill block h.interconnect h.memories
  let counters ← h.counters.increment .l2Fills
  let counters ← counters.incrementIf filled.wroteBack?.isSome .l2WriteBacks
  return { h with
    l2 := filled.cache, interconnect := filled.interconnect, memories := filled.memories
    counters }

/-- Delivers one message. -/
def deliver (h : Hierarchy) (m : Message) : Except Fault Hierarchy := do
  let h := { h with counters := ← h.counters.increment .messagesDelivered }
  match m.route with
  | .l2ToL1 => h.arriveAtL1 m.block
  | .l2ToMemory => h.arriveAtMemory m.block
  | .memoryToL2 => h.arriveAtL2 m.block

/-- Sends a block that memory has transferred on to the L2. -/
def sendBack (h : Hierarchy) (block : BlockRef) : Except Fault Hierarchy := do
  let counters ← h.counters.increment .dramRetired
  return { h with interconnect := h.interconnect.sendOn block .memoryToL2, counters }

/-- Delivers every message that is due. -/
def deliverDue (h : Hierarchy) : Except Fault Hierarchy :=
  let (due, interconnect) := h.interconnect.tick
  due.foldlM deliver { h with interconnect }

/-- Lets the memory controller retire and start requests. -/
def tickMemory (h : Hierarchy) : Except Fault Hierarchy := do
  let (done, dram) ← h.dram.tick h.cycle
  let h ← done.retired.foldlM sendBack { h with dram }
  match done.started? with
  | some request => return { h with counters := ← h.counters.countRow request.status }
  | none => return h

/-- Advances the clock. -/
def advance (h : Hierarchy) : Except Fault Hierarchy := do
  let cycle ← sum64 h.cycle 1
  return { h with cycle, counters := { h.counters with cycles := cycle } }

/-- One cycle. -/
def tick (h : Hierarchy) : Except Fault Hierarchy := do
  (← (← h.deliverDue).tickMemory).advance

/-- So many cycles. -/
def run (h : Hierarchy) : (cycles : Nat) → Except Fault Hierarchy
  | 0 => .ok h
  | cycles + 1 => do (← h.tick).run cycles

/-- Whether nothing is on its way: no message, no request to memory, no outstanding miss. -/
def isQuiescent (h : Hierarchy) : Bool :=
  h.interconnect.isEmpty && h.dram.isIdle && h.l2.misses.isEmpty

/-! ## Waiting -/

/-- Ticks until nothing is on its way, for at most `limit` cycles; `waited` cycles have passed
already. Returns the cycles that passed. -/
def settle (h : Hierarchy) (limit : Nat) (waited : Nat := 0) : Except Fault (Nat × Hierarchy) :=
  match limit with
  | 0 => .ok (waited, h)
  | limit + 1 =>
    if h.isQuiescent then .ok (waited, h)
    else do (← h.tick).settle limit (waited + 1)

/-- Repeats an attempt, a tick apart, until it hits, for at most `limit` cycles; `waited` cycles
have passed already. Returns the last outcome and the cycles that passed. -/
def repeatUntilHit (attempt : Hierarchy → Except Fault (Outcome × Hierarchy)) (h : Hierarchy)
    (limit : Nat) (waited : Nat := 0) : Except Fault (Outcome × Nat × Hierarchy) := do
  match limit, ← attempt h with
  | _, (.hit, h) => return (.hit, waited, h)
  | 0, (.miss, h) => return (.miss, waited, h)
  | limit + 1, (.miss, h) => repeatUntilHit attempt (← h.tick) limit (waited + 1)

/-- Accesses an address until it hits. -/
def accessUntilHit (h : Hierarchy) (kind : Kind) (address limit : Nat) :
    Except Fault (Outcome × Nat × Hierarchy) :=
  repeatUntilHit (·.access kind address) h limit

/-- Writes a data word until the write hits. -/
def writeUntilHit (h : Hierarchy) (address : Nat) (word : Word) (limit : Nat) :
    Except Fault (Outcome × Nat × Hierarchy) :=
  repeatUntilHit (·.write address word) h limit

/-! ## Memory contents -/

/-- Copies words into the memory of path `kind`. -/
def load (h : Hierarchy) (kind : Kind) (address : Nat) (words : List Word) :
    Except Fault Hierarchy := do
  let port := h.memories.get kind
  let memory ← port.memory.load address words
  return { h with memories := h.memories.set kind { port with memory } }

/-- The hierarchy with empty logs of word transfers. -/
def forgetTraffic (h : Hierarchy) : Hierarchy :=
  { h with
    memories :=
      { instruction := h.memories.instruction.forget, data := h.memories.data.forget } }

end Hierarchy

end MemoryHierarchy
