import Mathlib.Data.List.Basic
import Mathlib.Data.List.Pairwise
import Mathlib.Order.Defs.Unbundled

/-!
# Lib.SortedMap — maps as lists with increasing keys

The keys of a `SortedMap` increase strictly, so that a run of neighbouring entries can be read off
the list from a lower bound on.
-/

namespace TdUtils.Lib

structure SortedMap (α β : Type) [LT α] where
  entries : List (α × β)
  sorted : entries.Pairwise fun x y => x.1 < y.1

namespace SortedMap

section Operations

variable {α β : Type} [LT α] [LE α] [Std.IsLinearOrder α] [Std.LawfulOrderLT α] [DecidableLT α]

def empty : SortedMap α β := ⟨[], .nil⟩

/-- Insert an entry, or replace the one with the key. -/
def setEntry (a : α) (b : β) : List (α × β) → List (α × β)
  | [] => [(a, b)]
  | x :: entries =>
    if a < x.1 then (a, b) :: x :: entries
    else if x.1 < a then x :: setEntry a b entries
    else (a, b) :: entries

omit [DecidableLT α] in
theorem eq_of_not_lt {a b : α} (h : ¬ a < b) (h' : ¬ b < a) : a = b := by
  rcases Std.lt_trichotomy a b with hab | hab | hab
  · exact absurd hab h
  · exact hab
  · exact absurd hab h'

theorem mem_setEntry {a : α} {b : β} {entries : List (α × β)}
    (hs : entries.Pairwise fun x y => x.1 < y.1) (x : α × β) :
    x ∈ setEntry a b entries ↔ x = (a, b) ∨ x ∈ entries ∧ x.1 ≠ a := by
  induction entries with
  | nil => simp [setEntry]
  | cons y entries ih =>
    obtain ⟨hy, hs⟩ := List.pairwise_cons.mp hs
    rw [setEntry]
    split_ifs with h1 h2
    · have hne : ∀ z ∈ y :: entries, z.1 ≠ a := by
        intro z hz hza
        rcases List.mem_cons.mp hz with rfl | hz
        · exact Std.lt_irrefl (hza ▸ h1)
        · exact Std.lt_irrefl (hza ▸ Std.lt_trans h1 (hy z hz))
      constructor
      · intro hx
        rcases List.mem_cons.mp hx with rfl | hx
        · exact Or.inl rfl
        · exact Or.inr ⟨hx, hne x hx⟩
      · rintro (rfl | ⟨hx, -⟩)
        · exact List.mem_cons_self
        · exact List.mem_cons_of_mem _ hx
    · have hya : y.1 ≠ a := Std.ne_of_lt h2
      rw [List.mem_cons, ih hs, List.mem_cons]
      constructor
      · rintro (rfl | rfl | ⟨hx, hxa⟩)
        · exact Or.inr ⟨Or.inl rfl, hya⟩
        · exact Or.inl rfl
        · exact Or.inr ⟨Or.inr hx, hxa⟩
      · rintro (rfl | ⟨rfl | hx, hxa⟩)
        · exact Or.inr (Or.inl rfl)
        · exact Or.inl rfl
        · exact Or.inr (Or.inr ⟨hx, hxa⟩)
    · have hya : a = y.1 := eq_of_not_lt h1 h2
      rw [List.mem_cons, List.mem_cons]
      constructor
      · rintro (rfl | hx)
        · exact Or.inl rfl
        · exact Or.inr ⟨Or.inr hx, fun hxa => Std.lt_irrefl (hxa.trans hya ▸ hy x hx)⟩
      · rintro (rfl | ⟨rfl | hx, hxa⟩)
        · exact Or.inl rfl
        · exact absurd hya.symm hxa
        · exact Or.inr hx

theorem sorted_setEntry (a : α) (b : β) {entries : List (α × β)}
    (hs : entries.Pairwise fun x y => x.1 < y.1) :
    (setEntry a b entries).Pairwise fun x y => x.1 < y.1 := by
  induction entries with
  | nil => exact List.pairwise_singleton _ _
  | cons y entries ih =>
    obtain ⟨hy, hs'⟩ := List.pairwise_cons.mp hs
    rw [setEntry]
    split_ifs with h1 h2
    · refine List.pairwise_cons.mpr ⟨fun z hz => ?_, hs⟩
      rcases List.mem_cons.mp hz with rfl | hz
      · exact h1
      · exact Std.lt_trans h1 (hy z hz)
    · refine List.pairwise_cons.mpr ⟨fun z hz => ?_, ih hs'⟩
      rcases (mem_setEntry hs' z).mp hz with rfl | ⟨hz, -⟩
      · exact h2
      · exact hy z hz
    · have hya : a = y.1 := eq_of_not_lt h1 h2
      exact List.pairwise_cons.mpr ⟨fun z hz => hya ▸ hy z hz, hs'⟩

def set (m : SortedMap α β) (a : α) (b : β) : SortedMap α β :=
  ⟨setEntry a b m.entries, sorted_setEntry a b m.sorted⟩

def erase (m : SortedMap α β) [DecidableEq α] (a : α) : SortedMap α β :=
  ⟨m.entries.filter (·.1 ≠ a), m.sorted.filter _⟩

def find (m : SortedMap α β) [DecidableEq α] (a : α) : Option β :=
  (m.entries.find? (·.1 = a)).map Prod.snd

/-- The entries from the first key on that is not below `a`. -/
def lowerBound (m : SortedMap α β) (a : α) : List (α × β) := m.entries.dropWhile (·.1 < a)

end Operations

section Laws

variable {α β : Type} [LT α] [LE α] [Std.IsLinearOrder α] [Std.LawfulOrderLT α] [DecidableLT α]
  [DecidableEq α] {m : SortedMap α β} {a : α} {b : β}

omit [DecidableEq α] in
theorem mem_set {x : α × β} :
    x ∈ (m.set a b).entries ↔ x = (a, b) ∨ x ∈ m.entries ∧ x.1 ≠ a := mem_setEntry m.sorted x

omit [LE α] [Std.IsLinearOrder α] [Std.LawfulOrderLT α] [DecidableLT α] in
theorem mem_erase {x : α × β} : x ∈ (m.erase a).entries ↔ x ∈ m.entries ∧ x.1 ≠ a := by
  simp [erase]

omit [Std.IsLinearOrder α] [DecidableLT α] [DecidableEq α] in
/-- A key has one entry. -/
theorem eq_of_mem {b' : β} (h : (a, b) ∈ m.entries) (h' : (a, b') ∈ m.entries) : b = b' := by
  have hs := m.sorted
  generalize m.entries = entries at h h' hs
  induction entries with
  | nil => cases h
  | cons x entries ih =>
    obtain ⟨hx, hs'⟩ := List.pairwise_cons.mp hs
    rcases List.mem_cons.mp h with rfl | hm <;> rcases List.mem_cons.mp h' with heq | hm'
    · exact (Prod.mk.inj heq).2.symm
    · exact absurd rfl (Std.ne_of_lt (hx (a, b') hm'))
    · obtain rfl := heq
      exact absurd rfl (Std.ne_of_lt (hx (a, b) hm))
    · exact ih hm hm' hs'

omit [Std.IsLinearOrder α] [DecidableLT α] in
theorem find_eq_some_iff : m.find a = some b ↔ (a, b) ∈ m.entries := by
  unfold find
  constructor
  · intro h
    obtain ⟨⟨a', b'⟩, hf, rfl⟩ := Option.map_eq_some_iff.mp h
    have ha : a' = a := by simpa using List.find?_some hf
    exact ha ▸ List.mem_of_find?_eq_some hf
  · intro h
    rcases hf : m.entries.find? (·.1 = a) with - | ⟨a', b'⟩
    · exact absurd (decide_eq_true rfl) (List.find?_eq_none.mp hf (a, b) h)
    · obtain rfl : a' = a := by simpa using List.find?_some hf
      rw [hf, Option.map_some, eq_of_mem (List.mem_of_find?_eq_some hf) h]

omit [Std.IsLinearOrder α] [DecidableLT α] in
theorem find_eq_none_iff : m.find a = none ↔ ∀ b, (a, b) ∉ m.entries := by
  constructor
  · intro h b hb
    rw [find_eq_some_iff.mpr hb] at h
    cases h
  · intro h
    rcases hf : m.find a with - | b
    · rfl
    · exact absurd (find_eq_some_iff.mp hf) (h b)

omit [Std.IsLinearOrder α] [DecidableLT α] [DecidableEq α] in
theorem entries_nodup (m : SortedMap α β) : m.entries.Nodup := by
  refine m.sorted.imp fun {x y} (hlt : x.1 < y.1) (heq : x = y) => ?_
  rw [heq] at hlt
  exact Std.lt_irrefl hlt

omit [DecidableLT α] [DecidableEq α] in
/-- A map is known by its entries. -/
theorem entries_ext {m' : SortedMap α β} (h : ∀ x, x ∈ m.entries ↔ x ∈ m'.entries) :
    m.entries = m'.entries := by
  refine List.Perm.eq_of_pairwise (fun x y _ _ hxy hyx => ?_) m.sorted m'.sorted ?_
  · exact absurd (Std.lt_trans hxy hyx) Std.lt_irrefl
  · exact (List.perm_ext_iff_of_nodup m.entries_nodup m'.entries_nodup).mpr h

omit [DecidableEq α] in
/-- Where a property holds of no key below `a` and of no key behind the first one that misses it, the
entries with the property are a run from the lower bound on. -/
theorem takeWhile_lowerBound {p : α → Bool} (hlow : ∀ k, p k = true → ¬ k < a)
    (hrun : ∀ k k', ¬ k < a → k < k' → p k' = true → p k = true) :
    (m.lowerBound a).takeWhile (fun x => p x.1) = m.entries.filter (fun x => p x.1) := by
  unfold lowerBound
  have hs := m.sorted
  generalize m.entries = entries at hs
  induction entries with
  | nil => rfl
  | cons x entries ih =>
    obtain ⟨hx, hs'⟩ := List.pairwise_cons.mp hs
    by_cases hlt : x.1 < a
    · have hp : p x.1 = false := by
        rw [← Bool.not_eq_true]
        exact fun hp => hlow _ hp hlt
      rw [List.dropWhile_cons_of_pos (by simpa using hlt), ih hs',
        List.filter_cons_of_neg (by simp [hp])]
    · rw [List.dropWhile_cons_of_neg (by simpa using hlt)]
      by_cases hp : p x.1 = true
      · have hrest : entries.takeWhile (fun x => p x.1) = entries.filter (fun x => p x.1) := by
          have hdrop : entries.dropWhile (fun y => decide (y.1 < a)) = entries := by
            rcases entries with - | ⟨y, entries⟩
            · rfl
            · refine List.dropWhile_cons_of_neg ?_
              have := hx y List.mem_cons_self
              simpa using fun hya => hlt (Std.lt_trans this hya)
          rw [← ih hs', hdrop]
        rw [List.takeWhile_cons, if_pos hp, List.filter_cons, if_pos hp, hrest]
      · rw [List.takeWhile_cons, if_neg hp, eq_comm, List.filter_eq_nil_iff]
        intro y hy hpy
        rcases List.mem_cons.mp hy with rfl | hy
        · exact hp hpy
        · exact hp (hrun x.1 y.1 hlt (hx y hy) hpy)

end Laws

end SortedMap

end TdUtils.Lib
