import Mathlib.Data.List.Basic

/-!
# Lib.Table — tables that are filled entry by entry
-/

namespace TdUtils.Lib.Table

variable {α : Type} {table : List α} {entries : List (ℕ × α)} {position : ℕ} {value : α}

/-- Each entry is put at its position. -/
def fill (table : List α) (entries : List (ℕ × α)) : List α := entries.foldl (fun table e => table.set e.1 e.2) table

@[simp] theorem fill_nil (table : List α) : fill table [] = table := rfl

@[simp] theorem fill_cons (table : List α) (e : ℕ × α) (entries : List (ℕ × α)) :
    fill table (e :: entries) = fill (table.set e.1 e.2) entries := rfl

@[simp] theorem length_fill (table : List α) (entries : List (ℕ × α)) : (fill table entries).length = table.length := by
  induction entries generalizing table with
  | nil => rfl
  | cons e entries ih =>
    rw [fill_cons, ih]
    exact List.length_set

/-- A position without an entry keeps its value. -/
theorem getElem?_fill_of_not_mem (h : position ∉ entries.map Prod.fst) :
    (fill table entries)[position]? = table[position]? := by
  induction entries generalizing table with
  | nil => rfl
  | cons e entries ih =>
    rw [List.map_cons, List.mem_cons, not_or] at h
    rw [fill_cons, ih h.2, List.getElem?_set_ne (Ne.symm h.1)]

/-- A position has the value of its entry. -/
theorem getElem?_fill_of_mem (hnodup : (entries.map Prod.fst).Nodup) (h : (position, value) ∈ entries)
    (hlt : position < table.length) : (fill table entries)[position]? = some value := by
  induction entries generalizing table with
  | nil => cases h
  | cons e entries ih =>
    rw [List.map_cons, List.nodup_cons] at hnodup
    rw [fill_cons]
    rcases List.mem_cons.mp h with heq | hrest
    · subst heq
      rw [getElem?_fill_of_not_mem hnodup.1, List.getElem?_set_self hlt]
    · exact ih hnodup.2 hrest (by rwa [List.length_set])

/-- A position has the value that all its entries have. -/
theorem getElem?_fill_of_forall (hall : ∀ e ∈ entries, e.1 = position → e.2 = value)
    (h : position ∈ entries.map Prod.fst) (hlt : position < table.length) :
    (fill table entries)[position]? = some value := by
  induction entries generalizing table with
  | nil => cases h
  | cons e entries ih =>
    obtain ⟨he, hentries⟩ := List.forall_mem_cons.mp hall
    rw [fill_cons]
    by_cases hlater : position ∈ entries.map Prod.fst
    · exact ih hentries hlater (by rwa [List.length_set])
    · obtain rfl : position = e.1 := (List.mem_cons.mp h).resolve_right hlater
      rw [getElem?_fill_of_not_mem hlater, List.getElem?_set_self hlt, he rfl]

/-- The value at a position is of an entry, or the one before. -/
theorem entry_of_fill (h : (fill table entries)[position]? = some value) :
    (position, value) ∈ entries ∨ table[position]? = some value := by
  induction entries generalizing table with
  | nil => exact .inr h
  | cons e entries ih =>
    rw [fill_cons] at h
    rcases ih h with hmem | hset
    · exact .inl (List.mem_cons_of_mem e hmem)
    · by_cases heq : e.1 = position
      · rw [← heq, List.getElem?_set] at hset
        rw [if_pos rfl] at hset
        split at hset
        · left
          rw [← heq, ← Option.some.inj hset]
          exact List.mem_cons_self
        · cases hset
      · rw [List.getElem?_set_ne heq] at hset
        exact .inr hset

end TdUtils.Lib.Table
