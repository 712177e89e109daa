import MemoryHierarchy.Text.Hexadecimal

/-!
Faults: the ways a step of the hierarchy can fail while it runs, and the wording of each.

Arithmetic on cycles, identifiers and counters is that of 64-bit words, and arithmetic on byte
addresses that of 32-bit words. Both are kept as natural numbers; a result that its word cannot
hold is a fault, never a wrapped number.
-/

namespace MemoryHierarchy

/-- What stopped a step. -/
inductive Fault where
  /-- A result does not fit its word, or an address was shifted by its whole width or more. -/
  | overflow
  /-- A set, way, word or bank that does not exist was asked for. -/
  | outOfBounds
  /-- A word access at an address that is no multiple of the word size. -/
  | unalignedAddress (address : Nat)
  /-- An address at or beyond the end of a memory of so many bytes. -/
  | outsideMemory (address bytes : Nat)
  /-- A preloaded range that runs past the end of the memory. -/
  | loadExceedsMemory (words address : Nat)
  /-- A number of banks that is no power of two, so that no mask selects among them. -/
  | unmaskableBanks (banks : Nat)
  /-- A row was to be opened in a bank that still has one open. -/
  | rowStillOpen (row openRow : Nat)
  /-- A column was to be accessed in a row that is not open. -/
  | closedRow
  deriving Repr, DecidableEq

namespace Fault

/-- The wording of a fault. -/
def message : Fault → String
  | overflow => "arithmetic overflow"
  | outOfBounds => "index out of bounds"
  | unalignedAddress address => "unaligned word address " ++ Hexadecimal.short address
  | outsideMemory address bytes =>
    "address " ++ Hexadecimal.short address ++ " outside " ++ toString bytes ++ "-byte memory"
  | loadExceedsMemory words address =>
    "load of " ++ toString words ++ " words at " ++ Hexadecimal.short address
      ++ " exceeds memory"
  | unmaskableBanks banks => toString banks ++ " banks cannot be selected by a mask"
  | rowStillOpen row openRow =>
    "activate of row " ++ Hexadecimal.short row ++ " with row Some(\n    "
      ++ Hexadecimal.short openRow ++ ",\n) open"
  | closedRow => "column access to a closed row"

end Fault

/-- The entry that was looked up; a missing one is a fault. -/
def inBounds {α : Type} : Option α → Except Fault α
  | some a => .ok a
  | none => .error .outOfBounds

/-- The sum of two 64-bit numbers, if 64 bits hold it. -/
def sum64 (a b : Nat) : Except Fault Nat :=
  if a + b < UInt64.size then .ok (a + b) else .error .overflow

/-- The difference of two numbers, if it is not negative. -/
def difference (a b : Nat) : Except Fault Nat :=
  if b ≤ a then .ok (a - b) else .error .overflow

@[simp] theorem inBounds_eq_ok {α : Type} {o : Option α} {a : α} :
    inBounds o = .ok a ↔ o = some a := by
  cases o <;> simp [inBounds]

theorem sum64_eq_ok {a b c : Nat} : sum64 a b = .ok c ↔ a + b < UInt64.size ∧ c = a + b := by
  grind [sum64]

end MemoryHierarchy
