import MemoryHierarchy.LineTransfer

/-!
The blocking cache: one level in front of one memory. A miss is served at once, for a price that
does not depend on whether a dirty line had to be written back. What is written stays in the
cache until its line is given up.
-/

namespace MemoryHierarchy

/-- A cache that serves misses at once. -/
structure BlockingCache where
  kind : Kind
  store : LineStore
  /-- The cycles that a miss costs. -/
  missPenalty : Nat
  deriving Repr, DecidableEq

namespace BlockingCache

/-- What an access gave. -/
structure Served where
  /-- The word read or written. -/
  value : Word
  outcome : Outcome
  /-- The cycles it took. -/
  latency : Nat
  deriving Repr, DecidableEq

/-- A block that is now in the cache. -/
structure Present where
  place : Location
  way : Nat
  outcome : Outcome
  cache : BlockingCache
  port : Port
  deriving Repr, DecidableEq

/-- A cache without any block. -/
def empty (geometry : Geometry) (kind : Kind) (missPenalty : Nat) : BlockingCache :=
  { kind, store := LineStore.withData geometry kind, missPenalty }

/-- Brings the block of an address into the cache, unless it is there already. -/
def bring (c : BlockingCache) (address : Nat) (port : Port) : Except Fault Present := do
  let geometry := c.store.geometry
  let place := geometry.locate address
  match ← c.store.find place.index place.tag c.kind with
  | some way =>
    let store ← c.store.touch place.index way
    return { place, way, outcome := .hit, cache := { c with store }, port }
  | none =>
    let way ← c.store.victim place.index
    let (_, port) ← port.writeBack geometry place.index (← c.store.line place.index way)
    let store ← c.store.install place.index way place.tag c.kind
    let (words, port) ← port.fetch geometry place.block
    let store ← store.putWords place.index way words
    return { place, way, outcome := .miss, cache := { c with store }, port }

/-- The price of an access. -/
def latency (c : BlockingCache) : Outcome → Nat
  | .hit => 0
  | .miss => c.missPenalty

/-- Reads the word at an address. -/
def read (c : BlockingCache) (address : Nat) (port : Port) :
    Except Fault (Served × BlockingCache × Port) := do
  let ⟨place, way, outcome, cache, port⟩ ← c.bring address port
  let value ← (← cache.store.line place.index way).word place.offset
  return ({ value, outcome, latency := c.latency outcome }, cache, port)

/-- Writes a word at an address; its line is dirty from then on. -/
def write (c : BlockingCache) (address : Nat) (word : Word) (port : Port) :
    Except Fault (Served × BlockingCache × Port) := do
  let ⟨place, way, outcome, cache, port⟩ ← c.bring address port
  let line ← (← cache.store.line place.index way).store place.offset word
  let store ← cache.store.putLine place.index way line
  return ({ value := word, outcome, latency := c.latency outcome }, { cache with store }, port)

/-- Whether the block of an address is here; looking does not count as a use. -/
def contains (c : BlockingCache) (address : Nat) : Except Fault Bool :=
  c.store.contains address c.kind

end BlockingCache

end MemoryHierarchy
