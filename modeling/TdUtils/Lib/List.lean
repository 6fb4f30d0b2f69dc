import Mathlib.Data.List.Forall2

/-!
# Lib.List — positions and members of lists

What `takeWhile` says about positions, for programs that walk an index while a test holds, and what
`Forall₂` says about members, for programs that rewrite a list element by element.  `dropBefore`
thins out a sorted list by comparing neighbours.
-/

namespace TdUtils.Lib.List

universe u

variable {α : Type u} (p : α → Bool)

/-- Every position before the end of the `takeWhile` passes the test. -/
theorem of_lt_takeWhile : ∀ (xs : List α) {j : ℕ} {a : α}, j < (xs.takeWhile p).length →
    xs[j]? = some a → p a = true
  | [], _, _, h, _ => by simp at h
  | x :: xs, j, a, h, ha => by
    by_cases hx : p x = true
    · rw [List.takeWhile_cons_of_pos hx] at h
      cases j with
      | zero => simpa using (by simpa using ha : x = a) ▸ hx
      | succ j => exact of_lt_takeWhile xs (by simpa using h) (by simpa using ha)
    · rw [List.takeWhile_cons_of_neg hx] at h
      simp at h

/-- The position at which `takeWhile` stops fails the test. -/
theorem not_at_takeWhile : ∀ (xs : List α) {a : α}, xs[(xs.takeWhile p).length]? = some a →
    p a = false
  | [], _, h => by simp at h
  | x :: xs, a, h => by
    by_cases hx : p x = true
    · rw [List.takeWhile_cons_of_pos hx] at h
      exact not_at_takeWhile xs (by simpa using h)
    · rw [List.takeWhile_cons_of_neg hx] at h
      simpa [show x = a by simpa using h] using hx

variable {β γ : Type u} {R : α → β → Prop}

theorem exists_of_mem_forall₂ : ∀ {xs : List α} {ys : List β}, List.Forall₂ R xs ys →
    ∀ y ∈ ys, ∃ x ∈ xs, R x y
  | _, _, .nil, y, hy => by simp at hy
  | _, _, .cons (a := a) h hs, y, hy => by
    rcases List.mem_cons.mp hy with rfl | hy
    · exact ⟨a, by simp, h⟩
    · obtain ⟨x, hx, hR⟩ := exists_of_mem_forall₂ hs y hy
      exact ⟨x, by simp [hx], hR⟩

theorem map_eq_of_forall₂ {f : α → γ} {g : β → γ} (hfg : ∀ x y, R x y → f x = g y) :
    ∀ {xs : List α} {ys : List β}, List.Forall₂ R xs ys → xs.map f = ys.map g
  | _, _, .nil => rfl
  | _, _, .cons h hs => by simp [hfg _ _ h, map_eq_of_forall₂ hfg hs]

/-! ### Thinning out -/

/-- Drop every element that is related to the next one. -/
def dropBefore (r : α → α → Prop) [DecidableRel r] : List α → List α
  | x :: y :: xs => if r x y then dropBefore r (y :: xs) else x :: dropBefore r (y :: xs)
  | xs => xs

section DropBefore

variable {r : α → α → Prop} [DecidableRel r]

theorem dropBefore_cons_cons (x y : α) (xs : List α) : dropBefore r (x :: y :: xs) =
    if r x y then dropBefore r (y :: xs) else x :: dropBefore r (y :: xs) := rfl

theorem dropBefore_sublist (xs : List α) : (dropBefore r xs).Sublist xs := by
  induction xs with
  | nil => exact List.Sublist.refl _
  | cons x xs ih =>
    rcases xs with - | ⟨y, xs⟩
    · exact List.Sublist.refl _
    · rw [dropBefore_cons_cons]
      split_ifs
      · exact ih.cons x
      · exact ih.cons_cons x

/-- What is dropped is related to something that stays. -/
theorem exists_mem_dropBefore (hrefl : ∀ x, r x x) (htrans : ∀ x y z, r x y → r y z → r x z)
    {xs : List α} {x : α} (hx : x ∈ xs) : ∃ y ∈ dropBefore r xs, r x y := by
  induction xs generalizing x with
  | nil => cases hx
  | cons z xs ih =>
    rcases xs with - | ⟨y, xs⟩
    · exact ⟨x, hx, hrefl x⟩
    · rw [dropBefore_cons_cons]
      rcases List.mem_cons.mp hx with rfl | hx
      · split_ifs with hxy
        · obtain ⟨w, hw, hyw⟩ := ih List.mem_cons_self
          exact ⟨w, hw, htrans _ _ _ hxy hyw⟩
        · exact ⟨x, List.mem_cons_self, hrefl x⟩
      · obtain ⟨w, hw, hxw⟩ := ih hx
        split_ifs
        · exact ⟨w, hw, hxw⟩
        · exact ⟨w, List.mem_cons_of_mem _ hw, hxw⟩

/-- A sorted list loses its duplicates. -/
theorem dropBefore_pairwise_lt [LT α] [LE α] [Std.IsLinearOrder α] [Std.LawfulOrderLT α]
    (hrefl : ∀ x, r x x) {xs : List α} (hs : xs.Pairwise (· ≤ ·)) :
    (dropBefore r xs).Pairwise (· < ·) := by
  induction xs with
  | nil => exact List.Pairwise.nil
  | cons x xs ih =>
    obtain ⟨hx, hs'⟩ := List.pairwise_cons.mp hs
    rcases xs with - | ⟨y, xs⟩
    · exact List.pairwise_singleton _ _
    · rw [dropBefore_cons_cons]
      split_ifs with hxy
      · exact ih hs'
      · refine List.pairwise_cons.mpr ⟨fun z hz => ?_, ih hs'⟩
        have hyz : y ≤ z := by
          rcases List.mem_cons.mp ((dropBefore_sublist _).subset hz) with rfl | hz
          · exact Std.le_refl _
          · exact (List.pairwise_cons.mp hs').1 z hz
        refine Std.lt_of_lt_of_le (Std.lt_of_le_of_ne (hx y List.mem_cons_self) ?_) hyz
        rintro rfl
        exact hxy (hrefl x)

/-- Where the relation goes from an element to everything up to one that it is related to, what stays of a sorted list is
related to no other element of the list. -/
theorem dropBefore_eq_of_rel [LE α] [Std.IsLinearOrder α] (hle : ∀ x y, r x y → x ≤ y)
    (hconvex : ∀ x y z, r x z → x ≤ y → y ≤ z → r x y) {xs : List α} (hs : xs.Pairwise (· ≤ ·)) {x z : α}
    (hx : x ∈ dropBefore r xs) (hz : z ∈ xs) (hr : r x z) : x = z := by
  induction xs with
  | nil => cases hz
  | cons w xs ih =>
    obtain ⟨hw, hs'⟩ := List.pairwise_cons.mp hs
    rcases xs with - | ⟨y, xs⟩
    · exact (List.mem_singleton.mp hx).trans (List.mem_singleton.mp hz).symm
    · have htail : x ∈ dropBefore r (y :: xs) → x = z := fun hstays => by
        rcases List.mem_cons.mp hz with rfl | hz
        · exact Std.le_antisymm (hle _ _ hr) (hw x ((dropBefore_sublist _).subset hstays))
        · exact ih hs' hstays hz
      rw [dropBefore_cons_cons] at hx
      split_ifs at hx with hwy
      · exact htail hx
      · rcases List.mem_cons.mp hx with rfl | hx
        · rcases List.mem_cons.mp hz with rfl | hz
          · rfl
          · have hyz : y ≤ z := by
              rcases List.mem_cons.mp hz with rfl | hz
              · exact Std.le_refl _
              · exact (List.pairwise_cons.mp hs').1 z hz
            exact absurd (hconvex _ _ _ hr (hw y List.mem_cons_self) hyz) hwy
        · exact htail hx

end DropBefore

/-! ### Prefixes in the lexicographic order -/

section Lex

variable [LT α] [LE α] [Std.IsLinearOrder α] [Std.LawfulOrderLT α]

/-- A list between a prefix and its extension has the prefix too. -/
theorem prefix_of_le : ∀ {xs ys zs : List α}, xs <+: zs → xs ≤ ys → ys ≤ zs → xs <+: ys
  | [], ys, _, _, _, _ => List.nil_prefix
  | x :: xs, [], _, _, hle, _ => nomatch List.le_nil.mp hle
  | x :: xs, y :: ys, zs, hprefix, hle, hle' => by
    obtain ⟨rest, rfl⟩ := hprefix
    rcases List.cons_le_cons_iff.mp hle with hxy | ⟨rfl, hxs⟩
    · rcases List.cons_le_cons_iff.mp hle' with hyx | ⟨rfl, -⟩
      · exact absurd (Std.lt_trans hxy hyx) Std.lt_irrefl
      · exact absurd hxy Std.lt_irrefl
    · rcases List.cons_le_cons_iff.mp hle' with hlt | ⟨-, hys⟩
      · exact absurd hlt Std.lt_irrefl
      · exact List.prefix_cons_inj x |>.mpr (prefix_of_le ⟨rest, rfl⟩ hxs hys)

end Lex

end TdUtils.Lib.List
