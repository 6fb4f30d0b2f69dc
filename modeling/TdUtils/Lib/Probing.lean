import Mathlib.Data.Finset.Card
import Mathlib.Logic.Function.Basic

/-!
# Lib.Probing — tables with open addressing

Each key has a path of slots, and is put in the first free slot among the first `n` of them.  In a table that is filled
in this way, and from which nothing is taken out, a key is behind slots with other keys; so it is not there if a free
slot of its path comes first.
-/

namespace TdUtils.Lib.Probing

universe u v

variable {K : Type u} {P : Type v} {path : K → ℕ → P} {n : ℕ} {table : P → Option K} {k : K} {p q : P} {i : ℕ}

/-- The first `i` slots of the path have other keys. -/
def Passed (path : K → ℕ → P) (table : P → Option K) (k : K) (i : ℕ) : Prop :=
  ∀ j < i, ∃ k', table (path k j) = some k' ∧ k' ≠ k

/-- Each key of the table is where its path leads to. -/
def Probed (path : K → ℕ → P) (n : ℕ) (table : P → Option K) : Prop :=
  ∀ p k, table p = some k → ∃ i < n, path k i = p ∧ Passed path table k i

theorem passed_zero : Passed path table k 0 := fun _ hj => absurd hj (Nat.not_lt_zero _)

theorem Passed.mono {j : ℕ} (h : Passed path table k i) (hj : j ≤ i) : Passed path table k j :=
  fun a ha => h a (Nat.lt_of_lt_of_le ha hj)

theorem Passed.succ (h : Passed path table k i) {k' : K} (hk : table (path k i) = some k') (hne : k' ≠ k) :
    Passed path table k (i + 1) := by
  intro j hj
  rcases Nat.lt_succ_iff_lt_or_eq.mp hj with hlt | rfl
  · exact h j hlt
  · exact ⟨k', hk, hne⟩

theorem probed_empty : Probed path n fun _ => none := fun _ _ h => (by cases h)

/-- On the way to a key there is no other slot with this key, and none that is free. -/
theorem Probed.index_eq (h : Probed path n table) (hp : table p = some k) (hpass : Passed path table k i)
    (hstop : table (path k i) = none ∨ table (path k i) = some k) : path k i = p := by
  obtain ⟨j, -, rfl, hj⟩ := h p k hp
  rcases Nat.lt_trichotomy i j with hlt | rfl | hgt
  · obtain ⟨k', hk', hne⟩ := hj i hlt
    rcases hstop with hnone | hsome
    · rw [hnone] at hk'
      cases hk'
    · rw [hsome] at hk'
      exact absurd (Option.some.inj hk').symm hne
  · rfl
  · obtain ⟨k', hk', hne⟩ := hpass j hgt
    rw [hp] at hk'
    exact absurd (Option.some.inj hk').symm hne

/-- A key is in one slot. -/
theorem Probed.unique (h : Probed path n table) (hp : table p = some k) (hq : table q = some k) : p = q := by
  obtain ⟨i, -, rfl, hpass⟩ := h p k hp
  exact h.index_eq hq hpass (.inr hp)

/-- A free slot on its path tells that a key is not there. -/
theorem Probed.absent (h : Probed path n table) (hpass : Passed path table k i) (hfree : table (path k i) = none)
    (p : P) : table p ≠ some k := by
  intro hp
  rw [h.index_eq hp hpass (.inl hfree), hp] at hfree
  cases hfree

/-- So do other keys in all slots where it could be. -/
theorem Probed.absent_of_full (h : Probed path n table) (hpass : Passed path table k n) (p : P) :
    table p ≠ some k := by
  intro hp
  obtain ⟨i, hi, rfl, -⟩ := h p k hp
  obtain ⟨k', hk', hne⟩ := hpass i hi
  rw [hp] at hk'
  exact hne (Option.some.inj hk').symm

section Put

variable [DecidableEq P]

theorem Passed.update {k' : K} (h : Passed path table k i) (hfree : table p = none) :
    Passed path (Function.update table p (some k')) k i := by
  intro j hj
  obtain ⟨k₁, hk₁, hne⟩ := h j hj
  have hp : path k j ≠ p := by
    rintro rfl
    rw [hfree] at hk₁
    cases hk₁
  exact ⟨k₁, by rw [Function.update_of_ne hp, hk₁], hne⟩

/-- A key is put in the first free slot. -/
theorem Probed.put (h : Probed path n table) (hpass : Passed path table k i) (hi : i < n)
    (hfree : table (path k i) = none) : Probed path n (Function.update table (path k i) (some k)) := by
  intro p k' hp
  by_cases hpi : p = path k i
  · rw [hpi, Function.update_self] at hp
    obtain rfl := Option.some.inj hp
    exact ⟨i, hi, hpi.symm, hpass.update hfree⟩
  · rw [Function.update_of_ne hpi] at hp
    obtain ⟨j, hj, hpath, hpassed⟩ := h p k' hp
    exact ⟨j, hj, hpath, hpassed.update hfree⟩

end Put

/-- If a path has other keys only, then there are as many keys. -/
theorem Probed.le_card [DecidableEq K] (h : Probed path n table) (hpass : Passed path table k n)
    (hinj : ∀ i < n, ∀ j < n, path k i = path k j → i = j) {keys : Finset K}
    (hkeys : ∀ p k, table p = some k → k ∈ keys) : n ≤ keys.card := by
  have hcard : ((Finset.range n).image fun i => table (path k i)).card = n := by
    rw [Finset.card_image_of_injOn, Finset.card_range]
    intro i hi j hj hij
    have hi := Finset.mem_range.mp hi
    have hj := Finset.mem_range.mp hj
    obtain ⟨k', hk', -⟩ := hpass i hi
    exact hinj i hi j hj (h.unique hk' (hij.symm.trans hk'))
  rw [← hcard, ← Finset.card_image_of_injective keys (Option.some_injective K)]
  refine Finset.card_le_card fun o ho => ?_
  obtain ⟨i, hi, rfl⟩ := Finset.mem_image.mp ho
  obtain ⟨k', hk', -⟩ := hpass i (Finset.mem_range.mp hi)
  rw [hk']
  exact Finset.mem_image_of_mem _ (hkeys _ _ hk')

end TdUtils.Lib.Probing
