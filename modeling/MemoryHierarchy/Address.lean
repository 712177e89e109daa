import MemoryHierarchy.Fault
import MemoryHierarchy.PowerOfTwo

/-!
Byte addresses and data words.

A byte address is a natural number that 32 bits hold. A data word is stored as 32 bits, whatever
the width of a machine word: the width decides only how many bytes of address one word covers.
-/

namespace MemoryHierarchy

/-- A stored data word. -/
abbrev Word := UInt32

/-- The number of byte addresses. -/
def addressSpace : Nat := UInt32.size

/-- The address `offset` bytes above `base`, if there is one. -/
def offsetAddress (base offset : Nat) : Except Fault Nat :=
  if base + offset < addressSpace then .ok (base + offset) else .error .overflow

/-- The bits of an address from bit `low` up; an address has no bit 32. -/
def highBits (address low : Nat) : Except Fault Nat :=
  if low < 32 then .ok (address / twoPow low) else .error .overflow

theorem offsetAddress_eq_ok {a b c : Nat} :
    offsetAddress a b = .ok c ↔ a + b < addressSpace ∧ c = a + b := by
  grind [offsetAddress]

theorem highBits_eq_ok {a b c : Nat} : highBits a b = .ok c ↔ b < 32 ∧ c = a / twoPow b := by
  grind [highBits]

end MemoryHierarchy
