import Mathlib.Data.List.Nodup
import Mathlib.Data.List.Perm.Basic
import Mathlib.Logic.Function.Basic

/-!
# Lib.Waiting — what waits in one of several lists until it is taken out

Every object that was put into one of the lists is there once, in one list only, or was taken out once.
-/

namespace TdUtils.Lib

universe u v

/-- `put` is all that was put into the lists, `taken` all that was taken out. -/
structure Waiting {κ : Type u} {α : Type v} (lists : κ → List α) (put taken : List α) : Prop where
  once : ∀ k, (lists k).Nodup
  apart : ∀ j k x, x ∈ lists j → x ∈ lists k → j = k
  kept : ∀ k x, x ∈ lists k → x ∉ taken
  nodup : taken.Nodup
  origin : ∀ x, (∃ k, x ∈ lists k) ∨ x ∈ taken → x ∈ put

namespace Waiting

variable {κ : Type u} {α : Type v} {lists : κ → List α} {put taken : List α}

theorem start : Waiting (fun _ : κ => ([] : List α)) [] [] where
  once := fun _ => .nil
  apart := fun _ _ _ hx => by cases hx
  kept := fun _ _ hx => by cases hx
  nodup := .nil
  origin := by
    rintro x (⟨_, hx⟩ | hx) <;> cases hx

theorem more {put' : List α} (h : Waiting lists put taken) (hput : put ⊆ put') : Waiting lists put' taken :=
  { h with origin := fun x hx => hput (h.origin x hx) }

variable [DecidableEq κ]

theorem mem_update {k j : κ} {rest : List α} {x : α} (hx : x ∈ Function.update lists k rest j) :
    (j = k ∧ x ∈ rest) ∨ (j ≠ k ∧ x ∈ lists j) := by
  by_cases hj : j = k
  · rw [hj, Function.update_self] at hx
    exact .inl ⟨hj, hx⟩
  · rw [Function.update_of_ne hj] at hx
    exact .inr ⟨hj, hx⟩

/-- An object is put into one list. -/
theorem push (h : Waiting lists put taken) (k : κ) {x : α} (hx : x ∉ put) :
    Waiting (Function.update lists k (lists k ++ [x])) (put ++ [x]) taken := by
  have hnew : ∀ j, x ∉ lists j := fun j hj => hx (h.origin x (.inl ⟨j, hj⟩))
  have hmem : ∀ j y, y ∈ Function.update lists k (lists k ++ [x]) j → y ∈ lists j ∨ (j = k ∧ y = x) := by
    intro j y hy
    rcases mem_update hy with ⟨rfl, hy⟩ | ⟨-, hy⟩
    · rcases List.mem_append.mp hy with hy | hy
      · exact .inl hy
      · exact .inr ⟨rfl, List.mem_singleton.mp hy⟩
    · exact .inl hy
  refine ⟨fun j => ?_, fun i j y hi hj => ?_, fun j y hy => ?_, h.nodup, fun y hy => ?_⟩
  · by_cases hj : j = k
    · rw [hj, Function.update_self]
      refine List.nodup_append.mpr ⟨h.once k, List.nodup_singleton x, fun y hy z hz heq => ?_⟩
      rw [heq, List.mem_singleton.mp hz] at hy
      exact hnew k hy
    · rw [Function.update_of_ne hj]
      exact h.once j
  · rcases hmem i y hi with hiold | ⟨hik, rfl⟩
    · rcases hmem j y hj with hjold | ⟨-, rfl⟩
      · exact h.apart i j y hiold hjold
      · exact absurd hiold (hnew i)
    · rcases hmem j y hj with hjold | ⟨hjk, -⟩
      · exact absurd hjold (hnew j)
      · rw [hik, hjk]
  · rcases hmem j y hy with hy | ⟨-, rfl⟩
    · exact h.kept j y hy
    · exact fun htaken => hx (h.origin y (.inr htaken))
  · rcases hy with ⟨j, hy⟩ | hy
    · rcases hmem j y hy with hy | ⟨-, rfl⟩
      · exact List.mem_append_left _ (h.origin y (.inl ⟨j, hy⟩))
      · exact List.mem_append_right _ (List.mem_singleton_self y)
    · exact List.mem_append_left _ (h.origin y (.inr hy))

/-- Some of the objects of one list are taken out. -/
theorem take (h : Waiting lists put taken) (k : κ) {rest out : List α} (hperm : (rest ++ out).Perm (lists k)) :
    Waiting (Function.update lists k rest) put (taken ++ out) := by
  obtain ⟨hrest, hout, hapart⟩ := List.nodup_append.mp (hperm.nodup_iff.mpr (h.once k))
  have hin : ∀ y, y ∈ out → y ∈ lists k := fun y hy => hperm.subset (List.mem_append_right _ hy)
  have hsub : ∀ j y, y ∈ Function.update lists k rest j → y ∈ lists j ∧ y ∉ out := by
    intro j y hy
    rcases mem_update hy with ⟨hj, hyrest⟩ | ⟨hj, hylist⟩
    · rw [hj]
      exact ⟨hperm.subset (List.mem_append_left _ hyrest), fun hyout => hapart y hyrest y hyout rfl⟩
    · exact ⟨hylist, fun hyout => hj (h.apart j k y hylist (hin y hyout))⟩
  refine ⟨fun j => ?_, fun i j y hi hj => h.apart i j y (hsub i y hi).1 (hsub j y hj).1, fun j y hy => ?_, ?_,
    fun y hy => ?_⟩
  · by_cases hj : j = k
    · rw [hj, Function.update_self]
      exact hrest
    · rw [Function.update_of_ne hj]
      exact h.once j
  · intro htaken
    rcases List.mem_append.mp htaken with htaken | hyout
    · exact h.kept j y (hsub j y hy).1 htaken
    · exact (hsub j y hy).2 hyout
  · refine List.nodup_append.mpr ⟨h.nodup, hout, fun x hx y hy heq => ?_⟩
    rw [heq] at hx
    exact h.kept k y (hin y hy) hx
  · rcases hy with ⟨j, hy⟩ | hy
    · exact h.origin y (.inl ⟨j, (hsub j y hy).1⟩)
    · rcases List.mem_append.mp hy with hy | hy
      · exact h.origin y (.inr hy)
      · exact h.origin y (.inl ⟨k, hin y hy⟩)

end Waiting

end TdUtils.Lib
