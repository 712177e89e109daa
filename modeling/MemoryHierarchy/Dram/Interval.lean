import MemoryHierarchy.Fault

/-!
Intervals of cycles, both ends included, and the reservations that requests hold on a bus or a
bank.
-/

namespace MemoryHierarchy.Dram

/-- The cycles from `start` to `stop`. -/
structure Interval where
  start : Nat
  stop : Nat
  deriving Repr, DecidableEq

namespace Interval

/-- The `length` cycles from `start` on. The cycle after the last one has to fit 64 bits too. -/
def ofLength (start length : Nat) : Except Fault Interval := do
  let next ← sum64 start length
  return { start, stop := ← difference next 1 }

/-- Whether the intervals share a cycle. -/
def overlaps (a b : Interval) : Bool := a.start ≤ b.stop && b.start ≤ a.stop

/-- The two ends in brackets. -/
def text : Interval → String
  | ⟨start, stop⟩ => s!"[{start},{stop}]"

theorem overlaps_iff {a b : Interval} :
    a.overlaps b ↔ a.start ≤ b.stop ∧ b.start ≤ a.stop := by
  simp [overlaps]

theorem overlaps_comm (a b : Interval) : a.overlaps b = b.overlaps a := by
  simp [overlaps, Bool.and_comm]

theorem ofLength_eq_ok {start length : Nat} {i : Interval} :
    ofLength start length = .ok i ↔
      start + length < UInt64.size ∧ 1 ≤ start + length ∧ i = ⟨start, start + length - 1⟩ := by
  simp only [ofLength, sum64, difference, bind, Except.bind, pure, Except.pure]
  grind

end Interval

/-- Cycles that a request holds. -/
structure Reservation where
  /-- The request. -/
  owner : Nat
  interval : Interval
  deriving Repr, DecidableEq

/-- Whether none of the reservations shares a cycle with `slot`. -/
def isUnreserved (held : List Reservation) (slot : Interval) : Bool :=
  held.all (!·.interval.overlaps slot)

/-- The reservations of all other requests. -/
def releaseOwner (held : List Reservation) (owner : Nat) : List Reservation :=
  held.filter (·.owner != owner)

end MemoryHierarchy.Dram
