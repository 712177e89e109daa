/-!
Hexadecimal text of addresses and rows: the shortest form (`0x2a`) and the form of a whole
32-bit address (`0x0000002a`). Digits above nine are lower-case letters.
-/

namespace MemoryHierarchy.Hexadecimal

/-- The digits of `n` without leading zeros, behind the mark `0x`. -/
def short (n : Nat) : String := "0x" ++ String.ofList (Nat.toDigits 16 n)

/-- The digits of `n` filled up with zeros to eight, behind the mark `0x`. -/
def full (n : Nat) : String := "0x" ++ String.ofList ((Nat.toDigits 16 n).leftpad 8 '0')

example : short 0 = "0x0" := by decide +kernel
example : short 0x1fC = "0x1fc" := by decide +kernel
example : full 0x40 = "0x00000040" := by decide +kernel

end MemoryHierarchy.Hexadecimal
