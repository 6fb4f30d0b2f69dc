import Mathlib.Data.List.GetD
import Mathlib.Tactic.SplitIfs

/-!
# Lib.Memory — bytes at addresses

A memory is a function from addresses to bytes.  `load` reads a range of it and `store` writes one; what a
store does to a range that is read later depends only on how the two ranges lie.
-/

namespace TdUtils.Lib

/-- The byte at every address. -/
abbrev Memory := ℕ → UInt8

namespace Memory

def load (mem : Memory) (p n : ℕ) : List UInt8 := (List.range n).map fun i => mem (p + i)

def store (mem : Memory) (p : ℕ) (bytes : List UInt8) : Memory := fun q =>
  if p ≤ q then bytes.getD (q - p) (mem q) else mem q

variable {mem : Memory} {p q n : ℕ} {bytes : List UInt8}

@[simp] theorem length_load (mem : Memory) (p n : ℕ) : (mem.load p n).length = n := by
  unfold load
  rw [List.length_map, List.length_range]

theorem load_add (mem : Memory) (p m n : ℕ) : mem.load p (m + n) = mem.load p m ++ mem.load (p + m) n := by
  unfold load
  rw [List.range_add, List.map_append, List.map_map]
  congr 1
  apply List.map_congr_left
  intro i _
  exact congrArg mem (Nat.add_assoc p m i).symm

theorem take_load {m : ℕ} (h : m ≤ n) : (mem.load p n).take m = mem.load p m := by
  obtain ⟨k, rfl⟩ := Nat.exists_eq_add_of_le h
  rw [load_add, List.take_left' (length_load _ _ _)]

theorem drop_load {m : ℕ} (h : m ≤ n) : (mem.load p n).drop m = mem.load (p + m) (n - m) := by
  obtain ⟨k, rfl⟩ := Nat.exists_eq_add_of_le h
  rw [load_add, List.drop_left' (length_load _ _ _), Nat.add_sub_cancel_left]

@[simp] theorem store_nil (mem : Memory) (p : ℕ) : mem.store p [] = mem := by
  funext q
  unfold store
  rw [List.getD_nil, ite_self]

theorem store_of_lt (h : q < p) : mem.store p bytes q = mem q := if_neg (Nat.not_le_of_lt h)

theorem store_of_ge (h : p + bytes.length ≤ q) : mem.store p bytes q = mem q := by
  unfold store
  rw [List.getD_eq_default _ _ (by omega), ite_self]

theorem store_of_mem {i : ℕ} (h : i < bytes.length) : mem.store p bytes (p + i) = bytes[i] := by
  unfold store
  rw [if_pos (Nat.le_add_right _ _), Nat.add_sub_cancel_left, List.getD_eq_getElem _ _ h]

/-- A store leaves the ranges beside it alone. -/
theorem load_store_of_apart (h : q + n ≤ p ∨ p + bytes.length ≤ q) :
    (mem.store p bytes).load q n = mem.load q n := by
  unfold load
  apply List.map_congr_left
  intro i hi
  rw [List.mem_range] at hi
  rcases h with h | h
  · exact store_of_lt (by omega)
  · exact store_of_ge (by omega)

theorem load_store (mem : Memory) (p : ℕ) (bytes : List UInt8) :
    (mem.store p bytes).load p bytes.length = bytes := by
  unfold load
  apply List.ext_getElem
  · rw [List.length_map, List.length_range]
  · intro i _ hi
    rw [List.getElem_map, List.getElem_range, store_of_mem hi]

/-- Storing two neighbours, the left one first. -/
theorem store_append (mem : Memory) (p : ℕ) (a b : List UInt8) :
    mem.store p (a ++ b) = (mem.store p a).store (p + a.length) b := by
  funext q
  unfold store
  by_cases hp : p ≤ q
  · by_cases ha : p + a.length ≤ q
    · rw [if_pos hp, if_pos ha, if_pos hp, List.getD_append_right _ _ _ _ (by omega),
        List.getD_eq_default a _ (by omega), Nat.sub_sub]
    · rw [if_pos hp, if_neg ha, if_pos hp, List.getD_append _ _ _ _ (by omega)]
  · have ha : ¬p + a.length ≤ q := by omega
    rw [if_neg hp, if_neg ha, if_neg hp]

/-- Storing two neighbours, the right one first. -/
theorem store_append' (mem : Memory) (p : ℕ) (a b : List UInt8) :
    mem.store p (a ++ b) = (mem.store (p + a.length) b).store p a := by
  rw [store_append]
  funext q
  unfold store
  by_cases hp : p ≤ q
  · by_cases ha : p + a.length ≤ q
    · rw [if_pos ha, if_pos hp, if_pos hp, if_pos ha, List.getD_eq_default a _ (by omega),
        List.getD_eq_default a _ (by omega)]
    · rw [if_neg ha, if_pos hp, if_pos hp, if_neg ha]
  · have ha : ¬p + a.length ≤ q := by omega
    rw [if_neg ha, if_neg hp, if_neg hp, if_neg ha]

/-- Of two stores at one place the second one stays. -/
theorem store_store (mem : Memory) (p : ℕ) {a b : List UInt8} (h : a.length = b.length) :
    (mem.store p a).store p b = mem.store p b := by
  funext q
  unfold store
  by_cases hp : p ≤ q
  · rw [if_pos hp, if_pos hp, if_pos hp]
    by_cases hb : q - p < b.length
    · rw [List.getD_eq_getElem _ _ hb, List.getD_eq_getElem _ _ hb]
    · rw [List.getD_eq_default a _ (by omega)]
  · rw [if_neg hp, if_neg hp, if_neg hp]

end Memory

end TdUtils.Lib
