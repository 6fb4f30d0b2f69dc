import Mathlib.Data.Nat.Bitwise

/-!
# Lib.Bits — masks of consecutive bits as arithmetic

A mask of `m` bits from bit `k` on takes `n / 2 ^ k % 2 ^ m` out of a number.
-/

namespace TdUtils.Lib.Bits

/-- The mask `(2 ^ m - 1) * 2 ^ k` as division and remainder. -/
theorem and_mask (n k m : ℕ) : n &&& (2 ^ m - 1) * 2 ^ k = n / 2 ^ k % 2 ^ m * 2 ^ k := by
  rw [← Nat.shiftLeft_eq, ← Nat.shiftLeft_eq, ← Nat.shiftRight_eq_div_pow]
  apply Nat.eq_of_testBit_eq
  intro i
  simp only [Nat.testBit_and, Nat.testBit_shiftLeft, Nat.testBit_mod_two_pow,
    Nat.testBit_shiftRight, Nat.testBit_two_pow_sub_one]
  by_cases hi : k ≤ i
  · simp [hi, show k + (i - k) = i by omega, Bool.and_comm]
  · simp [hi]

/-- The mask of the `m` lowest bits. -/
theorem and_low (n m : ℕ) : n &&& 2 ^ m - 1 = n % 2 ^ m := Nat.and_two_pow_sub_one_eq_mod n m

/-- `x << k | y` with `y` below the shift. -/
theorem shiftLeft_or {x y k : ℕ} (h : y < 2 ^ k) : x <<< k ||| y = x * 2 ^ k + y := by
  rw [← Nat.shiftLeft_add_eq_or_of_lt h, Nat.shiftLeft_eq]

/-- `x | y` of numbers that have no bit in common. -/
theorem or_eq_add {x y : ℕ} (k : ℕ) (hx : x % 2 ^ k = 0) (hy : y < 2 ^ k) : x ||| y = x + y := by
  have hx : x / 2 ^ k * 2 ^ k = x := Nat.div_mul_cancel (Nat.dvd_of_mod_eq_zero hx)
  calc x ||| y = (x / 2 ^ k) <<< k ||| y := by rw [Nat.shiftLeft_eq, hx]
    _ = x / 2 ^ k * 2 ^ k + y := shiftLeft_or hy
    _ = x + y := by rw [hx]

end TdUtils.Lib.Bits
