import Mathlib.Data.List.Basic
import Mathlib.Data.Nat.Notation

/-!
# Lib.Part — a part of a list, and writing beside it

`part xs i j` is what stands from `i` up to `j`.  Writing right behind a part or right in front of it makes the part
longer by what is written.
-/

namespace TdUtils.Lib

universe u

variable {α : Type u} {xs new : List α} {i j : ℕ}

def part (xs : List α) (i j : ℕ) : List α := (xs.drop i).take (j - i)

/-- Write over what stands at `i`. -/
def overwrite (xs : List α) (i : ℕ) (new : List α) : List α := xs.take i ++ new ++ xs.drop (i + new.length)

@[simp] theorem part_self (xs : List α) (i : ℕ) : part xs i i = [] := by
  unfold part
  rw [Nat.sub_self, List.take_zero]

theorem length_overwrite (h : i + new.length ≤ xs.length) : (overwrite xs i new).length = xs.length := by
  unfold overwrite
  rw [List.length_append, List.length_append, List.length_take, List.length_drop]
  omega

@[simp] theorem overwrite_nil (xs : List α) (i : ℕ) : overwrite xs i [] = xs := by
  unfold overwrite
  rw [List.append_nil, List.length_nil, Nat.add_zero, List.take_append_drop]

theorem part_overwrite_behind (hij : i ≤ j) (h : j + new.length ≤ xs.length) :
    part (overwrite xs j new) i (j + new.length) = part xs i j ++ new := by
  have hfront : (xs.take j ++ new).length = j + new.length := by
    rw [List.length_append, List.length_take]
    omega
  unfold part overwrite
  rw [← List.drop_take, List.take_left' hfront, List.drop_append_of_le_length (by rw [List.length_take]; omega),
    List.drop_take]

theorem part_overwrite_before (hij : i + new.length ≤ j) (hj : j ≤ xs.length) :
    part (overwrite xs i new) i j = new ++ part xs (i + new.length) j := by
  have hfront : (xs.take i).length = i := by
    rw [List.length_take]
    omega
  have hrest : j - i = new.length + (j - (i + new.length)) := by omega
  unfold part overwrite
  rw [List.append_assoc, List.drop_left' hfront, hrest, List.take_length_add_append]

end TdUtils.Lib
