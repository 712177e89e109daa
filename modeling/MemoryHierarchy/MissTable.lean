import MemoryHierarchy.FirstMatch
import MemoryHierarchy.Requester

/-!
The table of outstanding misses: which blocks have been asked of memory and have not come yet.

The table has a fixed number of slots. A block takes the first free slot and gives it back when
it arrives; a block is in at most one slot. Whether its requester has withdrawn meanwhile is
noted in the slot (`cancel`), and taken back when it asks again (`rearm`).
-/

namespace MemoryHierarchy

/-- A block that is on its way. -/
structure Miss where
  block : BlockRef
  /-- Whether the requester has withdrawn, so that the arrival is not announced. -/
  cancelled : Bool
  deriving Repr, DecidableEq

/-- The slots of the table; a free one holds nothing. -/
structure MissTable where
  slots : List (Option Miss)
  deriving Repr, DecidableEq

namespace MissTable

/-- A table of so many free slots. -/
def empty (capacity : Nat) : MissTable := ⟨List.replicate capacity none⟩

/-- Whether a slot waits for this block. -/
def tracks (block : BlockRef) (slot : Option Miss) : Bool := slot.any (·.block == block)

/-- The number of slots. -/
def capacity (t : MissTable) : Nat := t.slots.length

/-- Whether the block is outstanding. -/
def contains (t : MissTable) (block : BlockRef) : Bool := t.slots.any (tracks block)

/-- Whether every slot is taken. -/
def isFull (t : MissTable) : Bool := t.slots.all Option.isSome

/-- The number of slots taken. -/
def size (t : MissTable) : Nat := t.slots.countP Option.isSome

/-- Whether no block is outstanding. -/
def isEmpty (t : MissTable) : Bool := t.size == 0

/-- Puts the block in the first free slot; changes nothing if the block is outstanding already
or no slot is free. -/
def add (t : MissTable) (block : BlockRef) : MissTable :=
  if t.contains block then t
  else ⟨updateFirst Option.isNone (fun _ => some { block, cancelled := false }) t.slots⟩

/-- What the table knows of the block. -/
def get? (t : MissTable) (block : BlockRef) : Option Miss :=
  (t.slots.find? (tracks block)).join

/-- Frees the slot of the block. -/
def erase (t : MissTable) (block : BlockRef) : MissTable :=
  ⟨updateFirst (tracks block) (fun _ => none) t.slots⟩

/-- Notes in the slot of the block whether its requester has withdrawn. -/
def mark (t : MissTable) (block : BlockRef) (cancelled : Bool) : MissTable :=
  ⟨updateFirst (tracks block) (Option.map ({ · with cancelled })) t.slots⟩

/-- Withdraws the requester of the block; tells whether the block was outstanding. -/
def cancel (t : MissTable) (block : BlockRef) : Bool × MissTable :=
  (t.contains block, t.mark block true)

/-- Has the arrival of the block announced after all. -/
def rearm (t : MissTable) (block : BlockRef) : MissTable := t.mark block false

end MissTable

end MemoryHierarchy
