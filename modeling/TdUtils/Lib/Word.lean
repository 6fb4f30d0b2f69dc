import Mathlib.Algebra.Group.Nat.Defs
import Mathlib.Data.Nat.Notation
import Mathlib.Tactic.Common

/-!
# Lib.Word — unsigned machine words as naturals

`add w a b` and `sub w a b` are the wrap-around sum and difference of `w`-bit words.  Each has one
rule for the case that nothing wraps and one for the case that it does.
-/

namespace TdUtils.Lib.Word

variable {w a b : ℕ}

/-- Sum of `w`-bit words. -/
def add (w a b : ℕ) : ℕ := (a + b) % 2 ^ w

/-- Difference of `w`-bit words. -/
def sub (w a b : ℕ) : ℕ := (a + (2 ^ w - b)) % 2 ^ w

theorem add_of_lt (h : a + b < 2 ^ w) : add w a b = a + b := Nat.mod_eq_of_lt h

theorem add_of_ge (h : 2 ^ w ≤ a + b) (h' : a + b < 2 ^ w + 2 ^ w) :
    add w a b = a + b - 2 ^ w := by
  unfold add
  rw [Nat.mod_eq_sub_mod h, Nat.mod_eq_of_lt (by omega)]

theorem sub_of_le (h : b ≤ a) (ha : a < 2 ^ w) : sub w a b = a - b := by
  unfold sub
  have hab : a + (2 ^ w - b) = (a - b) + 2 ^ w := by omega
  rw [hab, Nat.add_mod_right, Nat.mod_eq_of_lt (by omega)]

end TdUtils.Lib.Word
