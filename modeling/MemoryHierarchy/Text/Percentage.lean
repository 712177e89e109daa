import MemoryHierarchy.PowerOfTwo

/-!
Percentages with two decimals.

The ratio is computed in binary floating point and written exactly: what is rounded to two
decimals is the value of the float itself, and a value halfway between two texts goes to the one
with an even last digit.
-/

namespace MemoryHierarchy.Percentage

/-- `part` of `whole` in percent; nothing of nothing is zero. -/
def ratio (part whole : Nat) : Float :=
  if whole = 0 then 0 else part.toUInt64.toFloat / whole.toUInt64.toFloat * 100.0

/-- The natural number nearest to `num / den`, and the even one of two that are equally near. -/
def nearestEven (num den : Nat) : Nat :=
  let quotient := num / den
  let doubled := 2 * (num % den)
  if doubled < den then quotient
  else if den < doubled then quotient + 1
  else quotient + quotient % 2

/-- The value of a non-negative finite float in hundredths, rounded. A float is its significand
times two to the power of its exponent field less 1075; in the lowest range the significand has
no leading one. -/
def hundredths (value : Float) : Nat :=
  let bits := value.toBits.toNat
  let field := bits / twoPow 52 % twoPow 11
  let significand := bits % twoPow 52 + (if field = 0 then 0 else twoPow 52)
  nearestEven (100 * significand * twoPow (max field 1)) (twoPow 1075)

/-- The digits of a number below one hundred, two of them. -/
def twoDigits (n : Nat) : String := toString (n / 10) ++ toString (n % 10)

/-- `part` of `whole` in percent, with two decimals and the sign. -/
def text (part whole : Nat) : String :=
  let n := hundredths (ratio part whole)
  toString (n / 100) ++ "." ++ twoDigits (n % 100) ++ "%"

example : nearestEven 5 2 = 2 ∧ nearestEven 7 2 = 4 ∧ nearestEven 8 3 = 3 := by decide

end MemoryHierarchy.Percentage
