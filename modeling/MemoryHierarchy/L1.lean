import MemoryHierarchy.LineStore

/-!
The L1 cache of one path. It keeps tags only: a look-up tells whether a block is here, and a
block comes here when its arrival is announced. What is not here is asked of the L2 with a
`Probe`.
-/

namespace MemoryHierarchy

/-- What is asked of the L2. -/
inductive Operation where
  /-- Have the block sent to the L1 of its path. -/
  | read
  /-- Store a word in the block. -/
  | write (word : Word)
  deriving Repr, DecidableEq

/-- A request to the L2. The address need not be the start of its block. -/
structure Probe where
  address : Nat
  kind : Kind
  operation : Operation
  deriving Repr, DecidableEq

/-- What a look-up in an L1 found. -/
inductive Lookup where
  | hit
  /-- The block is not here; the probe is to go to the L2. -/
  | miss (probe : Probe)
  deriving Repr, DecidableEq

/-- Whether the block was here. -/
def Lookup.outcome : Lookup → Outcome
  | .hit => .hit
  | .miss _ => .miss

/-- A cache of tags for one path. -/
structure L1 where
  kind : Kind
  store : LineStore
  deriving Repr, DecidableEq

namespace L1

/-- A cache without any block. -/
def empty (geometry : Geometry) (kind : Kind) : L1 :=
  { kind, store := LineStore.tagsOnly geometry kind }

/-- Looks an address up; a block that is here counts as used. -/
def access (c : L1) (address : Nat) : Except Fault (Lookup × L1) := do
  let place := c.store.geometry.locate address
  match ← c.store.find place.index place.tag c.kind with
  | some way => return (.hit, { c with store := ← c.store.touch place.index way })
  | none => return (.miss { address, kind := c.kind, operation := .read }, c)

/-- Takes in the block at `address`; a block that is here already is left as it is. Tells
whether the block was taken in. -/
def insert (c : L1) (address : Nat) : Except Fault (Bool × L1) := do
  let place := c.store.geometry.locate address
  match ← c.store.find place.index place.tag c.kind with
  | some _ => return (false, c)
  | none =>
    let way ← c.store.victim place.index
    return (true, { c with store := ← c.store.install place.index way place.tag c.kind })

/-- The request that withdraws an outstanding miss on `address`. -/
def cancellation (c : L1) (address : Nat) : Probe :=
  { address, kind := c.kind, operation := .read }

/-- Whether the block of `address` is here; looking does not count as a use. -/
def contains (c : L1) (address : Nat) : Except Fault Bool := c.store.contains address c.kind

end L1

end MemoryHierarchy
