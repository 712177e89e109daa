/-!
Powers of two: `twoPow k`, the exponent of one (`exponent?`), and the number of zero bits at the
low end of a 32-bit word (`trailingZeros`), which is the exponent where the word is a power of
two.
-/

namespace MemoryHierarchy

/-- The number of values of `k` bits. -/
def twoPow (k : Nat) : Nat := Nat.pow 2 k

/-- The `k` with `n = twoPow k`, if there is one. -/
def exponent? (n : Nat) : Option Nat :=
  if twoPow n.log2 = n then some n.log2 else none

/-- The position of the lowest one bit of a 32-bit word, and 32 where there is none. -/
def trailingZeros (n : Nat) : Nat := (List.range 32).findIdx n.testBit

theorem twoPow_pos (k : Nat) : 0 < twoPow k := Nat.two_pow_pos k

theorem twoPow_add (j k : Nat) : twoPow (j + k) = twoPow j * twoPow k := Nat.pow_add 2 j k

theorem twoPow_le_iff {j k : Nat} : twoPow j ≤ twoPow k ↔ j ≤ k :=
  Nat.pow_le_pow_iff_right (by decide)

theorem twoPow_lt_iff {j k : Nat} : twoPow j < twoPow k ↔ j < k :=
  Nat.pow_lt_pow_iff_right (by decide)

theorem log2_twoPow (k : Nat) : (twoPow k).log2 = k := Nat.log2_two_pow

theorem twoPow_inj {j k : Nat} (h : twoPow j = twoPow k) : j = k := by
  rw [← log2_twoPow j, h, log2_twoPow]

theorem twoPow_div {j k : Nat} (h : k ≤ j) : twoPow j / twoPow k = twoPow (j - k) :=
  Nat.pow_div h (by decide)

theorem exponent?_eq_some_iff {n k : Nat} : exponent? n = some k ↔ n = twoPow k := by
  unfold exponent?
  constructor
  · intro h
    split at h
    · next hn => cases h; exact hn.symm
    · contradiction
  · rintro rfl
    rw [log2_twoPow, if_pos rfl]

theorem exponent?_eq_none_iff {n : Nat} : exponent? n = none ↔ ∀ k, n ≠ twoPow k := by
  simp only [Option.eq_none_iff_forall_not_mem, Option.mem_def, exponent?_eq_some_iff, ne_eq]

theorem trailingZeros_twoPow : ∀ k < 32, trailingZeros (twoPow k) = k := by decide

end MemoryHierarchy
