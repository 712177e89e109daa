import MemoryHierarchy.Config
import MemoryHierarchy.Requester

/-!
The interconnect: one queue of messages that count down to their delivery.

A message sent with latency `n` is delivered by the `n`-th tick after it was sent, and by the
first if `n` is zero. One tick delivers what is due, oldest first, and counts all else down.
-/

namespace MemoryHierarchy

/-- From where to where a message goes. -/
inductive Route where
  /-- The L2 announces a block to the L1 of its path. -/
  | l2ToL1
  /-- The L2 asks memory for a block. -/
  | l2ToMemory
  /-- Memory returns a block to the L2. -/
  | memoryToL2
  deriving Repr, DecidableEq

/-- The two ends of a route. -/
def Route.text : Route → String
  | .l2ToL1 => "L2->L1"
  | .l2ToMemory => "L2->MEM"
  | .memoryToL2 => "MEM->L2"

/-- A block on its way. -/
structure Message where
  block : BlockRef
  /-- The ticks before the one that delivers the message. -/
  remaining : Nat
  route : Route
  deriving Repr, DecidableEq

namespace Message

/-- Whether the next tick delivers the message. -/
def isDue (m : Message) : Bool := m.remaining == 0

/-- The message one tick later. -/
def countDown (m : Message) : Message := { m with remaining := m.remaining - 1 }

end Message

/-- The messages on their way, oldest first, and the latency of each route. -/
structure Interconnect where
  messages : List Message
  latencies : Config.Latencies
  deriving Repr, DecidableEq

namespace Interconnect

/-- No message on its way. -/
def empty (latencies : Config.Latencies) : Interconnect := { messages := [], latencies }

/-- The latency of a route. -/
def latency (ic : Interconnect) : Route → Nat
  | .l2ToL1 => ic.latencies.l2ToL1.toNat
  | .l2ToMemory => ic.latencies.l2ToMemory.toNat
  | .memoryToL2 => ic.latencies.memoryToL2.toNat

/-- Sends a block with a latency of its own. -/
def send (ic : Interconnect) (block : BlockRef) (latency : Nat) (route : Route) : Interconnect :=
  { ic with messages := ic.messages ++ [{ block, remaining := latency - 1, route }] }

/-- Sends a block with the latency of its route. -/
def sendOn (ic : Interconnect) (block : BlockRef) (route : Route) : Interconnect :=
  ic.send block (ic.latency route) route

/-- One tick: the messages it delivers, and the interconnect afterwards. -/
def tick (ic : Interconnect) : List Message × Interconnect :=
  let (due, waiting) := ic.messages.partition Message.isDue
  (due, { ic with messages := waiting.map Message.countDown })

/-- Whether nothing is on its way. -/
def isEmpty (ic : Interconnect) : Bool := ic.messages.isEmpty

end Interconnect

end MemoryHierarchy
