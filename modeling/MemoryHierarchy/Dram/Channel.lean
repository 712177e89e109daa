import MemoryHierarchy.Dram.Plan

/-!
The channel that all banks share: one command bus and one data bus.
-/

namespace MemoryHierarchy.Dram

/-- What requests hold of the two buses. -/
structure Channel where
  command : List Reservation
  data : List Reservation
  deriving Repr, DecidableEq

namespace Channel

/-- A channel that no request holds. -/
def idle : Channel := { command := [], data := [] }

/-- Has a request hold every bus slot of its plan. -/
def reserve (c : Channel) (owner : Nat) (plan : Plan) : Channel :=
  { command := c.command ++ plan.commands.map ({ owner, interval := · })
    data := c.data ++ [{ owner, interval := plan.data }] }

/-- Drops what a request holds. -/
def release (c : Channel) (owner : Nat) : Channel :=
  { command := releaseOwner c.command owner, data := releaseOwner c.data owner }

/-- Whether no request holds a bus slot of the plan. -/
def isFree (c : Channel) (plan : Plan) : Bool :=
  plan.commands.all (isUnreserved c.command) && isUnreserved c.data plan.data

end Channel

end MemoryHierarchy.Dram
