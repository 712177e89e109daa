import MemoryHierarchy.Interconnect
import MemoryHierarchy.L1
import MemoryHierarchy.LineTransfer
import MemoryHierarchy.MissTable

/-!
The L2: the cache that both paths share. It holds data, and its tags are qualified by path.

A probe that finds its block sends it to the L1 (a read) or stores a word in it (a write). A
probe that does not find it asks memory for the block, unless that has been done already or the
miss table is full. A block that comes back takes the place of another one, which is written
back first if it is dirty, and is announced to its L1 unless the miss was cancelled.
-/

namespace MemoryHierarchy

/-- The shared cache. -/
structure L2 where
  store : LineStore
  misses : MissTable
  deriving Repr, DecidableEq

namespace L2

/-- What became of a miss. -/
inductive Disposition where
  /-- Memory was asked for the block. -/
  | issued
  /-- Memory had been asked before. -/
  | outstanding
  /-- The miss table is full; the probe has to be repeated. -/
  | stalled
  deriving Repr, DecidableEq

/-- The answer to a probe. -/
inductive Response where
  | hit
  | miss (disposition : Disposition)
  deriving Repr, DecidableEq

/-- Whether the block was here. -/
def Response.outcome : Response → Outcome
  | .hit => .hit
  | .miss _ => .miss

/-- What a probe led to. -/
structure Probed where
  response : Response
  cache : L2
  interconnect : Interconnect
  deriving Repr, DecidableEq

/-- What the arrival of a block led to. -/
structure Filled where
  /-- The dirty block that had to leave. -/
  wroteBack? : Option BlockRef
  /-- Whether the arrival was announced to the L1. -/
  notified : Bool
  cache : L2
  interconnect : Interconnect
  memories : PerKind Port
  deriving Repr, DecidableEq

/-- A cache without any block, and a miss table of so many slots. -/
def empty (geometry : Geometry) (missSlots : Nat) : L2 :=
  { store := LineStore.withData geometry .data, misses := MissTable.empty missSlots }

/-- The block that an address of one path belongs to. -/
def blockOf (c : L2) (address : Nat) (kind : Kind) : BlockRef :=
  { address := (c.store.geometry.locate address).block, kind }

/-! ## Probes -/

/-- A probe that found its block in way `way`. -/
def probeHit (c : L2) (p : Probe) (way : Nat) (ic : Interconnect) : Except Fault Probed := do
  let place := c.store.geometry.locate p.address
  let store ← c.store.touch place.index way
  match p.operation with
  | .write word =>
    let line ← (← store.line place.index way).store place.offset word
    let store ← store.putLine place.index way line
    return { response := .hit, cache := { c with store }, interconnect := ic }
  | .read =>
    return {
      response := .hit, cache := { c with store }
      interconnect := ic.sendOn (c.blockOf p.address p.kind) .l2ToL1 }

/-- A probe that did not find its block. -/
def probeMiss (c : L2) (p : Probe) (ic : Interconnect) : Probed :=
  let block := c.blockOf p.address p.kind
  if c.misses.contains block then
    { response := .miss .outstanding, cache := { c with misses := c.misses.rearm block }
      interconnect := ic }
  else if c.misses.isFull then
    { response := .miss .stalled, cache := c, interconnect := ic }
  else
    { response := .miss .issued, cache := { c with misses := c.misses.add block }
      interconnect := ic.sendOn block .l2ToMemory }

/-- Answers a probe. -/
def probe (c : L2) (p : Probe) (ic : Interconnect) : Except Fault Probed := do
  let place := c.store.geometry.locate p.address
  match ← c.store.find place.index place.tag p.kind with
  | some way => c.probeHit p way ic
  | none => return c.probeMiss p ic

/-- Withdraws the outstanding miss on an address; tells whether there was one. -/
def cancel (c : L2) (address : Nat) (kind : Kind) : Bool × L2 :=
  let (cancelled, misses) := c.misses.cancel (c.blockOf address kind)
  (cancelled, { c with misses })

/-! ## Arrivals -/

/-- Puts a block that is not here in the place of the victim of its set. -/
def replace (s : LineStore) (place : Location) (kind : Kind) (memories : PerKind Port) :
    Except Fault (Option BlockRef × LineStore × PerKind Port) := do
  let geometry := s.geometry
  let way ← s.victim place.index
  let old ← s.line place.index way
  let (wroteBack?, port) ← (memories.get old.kind).writeBack geometry place.index old
  let memories := memories.set old.kind port
  let s ← s.install place.index way place.tag kind
  let (words, port) ← (memories.get kind).fetch geometry place.block
  let s ← s.putWords place.index way words
  return (wroteBack?, s, memories.set kind port)

/-- Takes in a block that memory returned; one that is here already only counts as used. -/
def fill (c : L2) (block : BlockRef) (ic : Interconnect) (memories : PerKind Port) :
    Except Fault Filled := do
  let place := c.store.geometry.locate block.address
  let waiting : BlockRef := { block with address := place.block }
  let miss? := c.misses.get? waiting
  let misses := c.misses.erase waiting
  let (wroteBack?, store, memories) ←
    match ← c.store.find place.index place.tag block.kind with
    | some way => do pure (none, ← c.store.touch place.index way, memories)
    | none => replace c.store place block.kind memories
  let notified := !miss?.any (·.cancelled)
  return {
    wroteBack?, notified, memories
    cache := { store, misses }
    interconnect := if notified then ic.sendOn block .l2ToL1 else ic }

/-! ## Looking without use -/

/-- Whether the block of an address is here. -/
def contains (c : L2) (address : Nat) (kind : Kind) : Except Fault Bool :=
  c.store.contains address kind

/-- The word at an address, if its block is here. -/
def readWord? (c : L2) (address : Nat) (kind : Kind) : Except Fault (Option Word) := do
  let place := c.store.geometry.locate address
  match ← c.store.find place.index place.tag kind with
  | some way => return some (← (← c.store.line place.index way).word place.offset)
  | none => return none

end L2

end MemoryHierarchy
