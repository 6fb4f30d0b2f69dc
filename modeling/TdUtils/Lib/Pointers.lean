import Mathlib.Data.List.Basic

/-!
# Lib.Pointers — how many variables point to an object
-/

namespace TdUtils.Lib

universe u v

variable {α : Type u} {ν : Type v} [DecidableEq ν]

/-- Whether a pointer is to the object. -/
def hit (ptr : Option ν) (b : ν) : ℕ := if ptr = some b then 1 else 0

@[simp] theorem hit_none (b : ν) : hit none b = 0 := rfl

@[simp] theorem hit_self (b : ν) : hit (some b) b = 1 := if_pos rfl

theorem hit_of_ne {b c : ν} (h : b ≠ c) : hit (some b) c = 0 := if_neg fun heq => h (Option.some.inj heq)

/-- How many of the variables have a pointer to the object. -/
def refs (ptr : α → Option ν) (vars : List α) (b : ν) : ℕ := vars.countP fun x => ptr x = some b

variable {ptr : α → Option ν} {vars : List α} {h : ℕ} {x old : α} {b : ν}

theorem refs_append (ptr : α → Option ν) (vars : List α) (x : α) (b : ν) :
    refs ptr (vars ++ [x]) b = refs ptr vars b + hit (ptr x) b := by
  unfold refs hit
  rw [List.countP_append, List.countP_singleton]
  simp only [decide_eq_true_eq]

/-- One variable changes. -/
theorem refs_set (ptr : α → Option ν) {vars : List α} {h : ℕ} (hold : vars[h]? = some old) (x : α) (b : ν) :
    refs ptr (vars.set h x) b + hit (ptr old) b = refs ptr vars b + hit (ptr x) b := by
  induction vars generalizing h with
  | nil => cases hold
  | cons first rest ih =>
    unfold refs hit at ih ⊢
    cases h with
    | zero =>
      cases hold
      rw [List.set_cons_zero, List.countP_cons, List.countP_cons]
      simp only [decide_eq_true_eq]
      omega
    | succ h =>
      have ih := ih hold
      rw [List.set_cons_succ, List.countP_cons, List.countP_cons]
      omega

theorem refs_pos (hx : vars[h]? = some x) (hptr : ptr x = some b) : 0 < refs ptr vars b :=
  List.countP_pos_iff.mpr ⟨x, List.mem_of_getElem? hx, decide_eq_true hptr⟩

theorem ptr_ne_of_refs_eq_zero (hzero : refs ptr vars b = 0) (hx : vars[h]? = some x) : ptr x ≠ some b :=
  fun hptr => absurd hzero (Nat.ne_of_gt (refs_pos hx hptr))

/-- What a variable is after one variable has changed. -/
theorem getElem?_set_inv {i : ℕ} {other : α} (hother : (vars.set h x)[i]? = some other) :
    (i ≠ h ∧ vars[i]? = some other) ∨ (i = h ∧ other = x) := by
  by_cases hi : h = i
  · rw [hi, List.getElem?_set, if_pos rfl] at hother
    split at hother
    · exact .inr ⟨hi.symm, (Option.some.inj hother).symm⟩
    · cases hother
  · rw [List.getElem?_set_ne hi] at hother
    exact .inl ⟨fun heq => hi heq.symm, hother⟩

theorem getElem?_append_inv {i : ℕ} {other : α} (hother : (vars ++ [x])[i]? = some other) :
    vars[i]? = some other ∨ (i = vars.length ∧ other = x) := by
  rcases Nat.lt_trichotomy i vars.length with hlt | rfl | hgt
  · rw [List.getElem?_append_left hlt] at hother
    exact .inl hother
  · rw [List.getElem?_append_right (Nat.le_refl _), Nat.sub_self] at hother
    exact .inr ⟨rfl, (Option.some.inj hother).symm⟩
  · rw [List.getElem?_eq_none (by rw [List.length_append]; exact hgt)] at hother
    cases hother

end TdUtils.Lib
