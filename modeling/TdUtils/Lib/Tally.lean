import Mathlib.Algebra.BigOperators.Group.Finset.Basic
import Mathlib.Algebra.Order.BigOperators.Group.Finset
import Mathlib.Data.Fintype.Card

/-!
# Lib.Tally — how many members of a finite family are of a kind
-/

namespace TdUtils.Lib

variable {ι κ : Type*} [Fintype ι] {P : κ → Bool} {f : ι → κ}

/-- How many `i` have `P (f i)`. -/
def tally (P : κ → Bool) (f : ι → κ) : ℕ := ∑ i, (P (f i)).toNat

theorem tally_pos {i : ι} (hi : P (f i) = true) : 0 < tally P f := by
  have hle : (P (f i)).toNat ≤ tally P f :=
    Finset.single_le_sum (fun j _ => Nat.zero_le (P (f j)).toNat) (Finset.mem_univ i)
  rw [hi] at hle
  exact hle

theorem exists_of_tally_pos (h : 0 < tally P f) : ∃ i, P (f i) = true := by
  obtain ⟨i, -, hi⟩ := Finset.exists_ne_zero_of_sum_ne_zero h.ne'
  refine ⟨i, ?_⟩
  cases hP : P (f i) with
  | false => exact absurd (by rw [hP]; rfl) hi
  | true => rfl

theorem tally_le_card : tally P f ≤ Fintype.card ι := by
  have hle : tally P f ≤ ∑ _i : ι, 1 := Finset.sum_le_sum fun i _ => Bool.toNat_le (P (f i))
  simpa using hle

theorem tally_eq_zero (h : ∀ i, P (f i) = false) : tally P f = 0 :=
  Finset.sum_eq_zero fun i _ => by rw [h i]; rfl

/-! ### Members that change -/

variable [DecidableEq ι] {M : Type*} [AddCommMonoid M]

/-- A sum changes by what one of its terms changes by. -/
theorem sum_balance {g g' : ι → M} {a b : M} (i : ι) (hoff : ∀ j, j ≠ i → g' j = g j) (hi : g' i + a = g i + b) :
    ∑ j, g' j + a = ∑ j, g j + b := by
  have hrest : ∑ j ∈ Finset.univ.erase i, g' j = ∑ j ∈ Finset.univ.erase i, g j :=
    Finset.sum_congr rfl fun j hj => hoff j (Finset.ne_of_mem_erase hj)
  rw [← Finset.add_sum_erase _ g' (Finset.mem_univ i), ← Finset.add_sum_erase _ g (Finset.mem_univ i), hrest,
    add_right_comm, hi, add_right_comm]

/-- What one term loses another gets. -/
theorem sum_exchange {g g' : ι → M} {i j : ι} (hij : i ≠ j) (hoff : ∀ k, k ≠ i → k ≠ j → g' k = g k)
    (h : g' i + g' j = g i + g j) : ∑ k, g' k = ∑ k, g k := by
  have hmem : j ∈ Finset.univ.erase i := Finset.mem_erase.mpr ⟨hij.symm, Finset.mem_univ j⟩
  have hrest : ∑ k ∈ (Finset.univ.erase i).erase j, g' k = ∑ k ∈ (Finset.univ.erase i).erase j, g k := by
    refine Finset.sum_congr rfl fun k hk => ?_
    have hk' := Finset.mem_of_mem_erase hk
    exact hoff k (Finset.ne_of_mem_erase hk') (Finset.ne_of_mem_erase hk)
  rw [← Finset.add_sum_erase _ g' (Finset.mem_univ i), ← Finset.add_sum_erase _ g (Finset.mem_univ i),
    ← Finset.add_sum_erase _ g' hmem, ← Finset.add_sum_erase _ g hmem, hrest, ← add_assoc, ← add_assoc, h]

theorem tally_split (P : κ → Bool) (f : ι → κ) (i : ι) :
    tally P f = (P (f i)).toNat + ∑ j ∈ Finset.univ.erase i, (P (f j)).toNat :=
  (Finset.add_sum_erase _ _ (Finset.mem_univ i)).symm

/-- Another member is of the kind when there are two. -/
theorem exists_other_of_tally {i : ι} (h : 1 < tally P f) : ∃ j, j ≠ i ∧ P (f j) = true := by
  rw [tally_split P f i] at h
  have hone := Bool.toNat_le (P (f i))
  obtain ⟨j, hj, hne⟩ := Finset.exists_ne_zero_of_sum_ne_zero
    (show ∑ j ∈ Finset.univ.erase i, (P (f j)).toNat ≠ 0 by omega)
  refine ⟨j, Finset.ne_of_mem_erase hj, ?_⟩
  cases hP : P (f j) with
  | false => exact absurd (by rw [hP]; rfl) hne
  | true => rfl

/-- One member changes. -/
theorem tally_update (P : κ → Bool) (f : ι → κ) (i : ι) (k : κ) :
    tally P (Function.update f i k) + (P (f i)).toNat = tally P f + (P k).toNat := by
  refine sum_balance i ?_ ?_
  · intro j hj
    rw [Function.update_of_ne hj]
  · rw [Function.update_self, add_comm]

theorem tally_eq_length {l : List ι} (hnodup : l.Nodup) (hmem : ∀ i, i ∈ l ↔ P (f i) = true) :
    tally P f = l.length := by
  have hsum : tally P f = ∑ i ∈ l.toFinset, 1 := by
    unfold tally
    rw [← Finset.sum_subset (Finset.subset_univ l.toFinset)]
    · refine Finset.sum_congr rfl fun i hi => ?_
      rw [(hmem i).mp (List.mem_toFinset.mp hi)]
      rfl
    · intro i _ hi
      have hP : P (f i) = false := Bool.eq_false_iff.mpr fun h => hi (List.mem_toFinset.mpr ((hmem i).mpr h))
      rw [hP]
      rfl
  rw [hsum, ← Finset.card_eq_sum_ones, List.toFinset_card_of_nodup hnodup]

end TdUtils.Lib
