import Mathlib.Data.List.Basic

/-!
# Lib.Fails — runs that may fail in several ways

A run does one step for each operation, and ends at the first failure.  It fails at an operation in front of which it
went through; an invariant of the steps holds wherever it went through.
-/

namespace TdUtils.Lib.Fails

universe u v w

variable {ε : Type u} {σ : Type v} {ι : Type w} {step : σ → ι → Except ε σ} {s t : σ} {e : ε}

theorem foldlM_cons_ok {i : ι} {is : List ι} (h : step s i = .ok t) :
    (i :: is).foldlM step s = is.foldlM step t := by
  rw [List.foldlM_cons, h]
  rfl

theorem foldlM_cons_error {i : ι} (h : step s i = .error e) (is : List ι) :
    (i :: is).foldlM step s = .error e := by
  rw [List.foldlM_cons, h]
  rfl

theorem foldlM_inv {P : σ → Prop} (hstep : ∀ s i t, P s → step s i = .ok t → P t) (is : List ι) (hs : P s)
    (h : is.foldlM step s = .ok t) : P t := by
  induction is generalizing s with
  | nil =>
    obtain rfl := Except.ok.inj h
    exact hs
  | cons i is ih =>
    rcases hi : step s i with e | s'
    · rw [foldlM_cons_error hi] at h
      cases h
    · rw [foldlM_cons_ok hi] at h
      exact ih (hstep s i s' hs hi) h

/-- A run fails at one of its operations. -/
theorem foldlM_error_iff {is : List ι} : is.foldlM step s = .error e ↔
    ∃ before i after t, is = before ++ i :: after ∧ before.foldlM step s = .ok t ∧ step t i = .error e := by
  induction is generalizing s with
  | nil =>
    refine ⟨fun h => (by cases h), ?_⟩
    rintro ⟨before, i, after, t, his, -⟩
    exact absurd his (by simp)
  | cons i is ih =>
    rcases hi : step s i with e' | s'
    · rw [foldlM_cons_error hi]
      constructor
      · intro h
        exact ⟨[], i, is, s, rfl, rfl, hi.trans h⟩
      · rintro ⟨- | ⟨j, before⟩, i', after, t, his, hrun, hfail⟩
        · obtain ⟨rfl, -⟩ := List.cons.inj his
          obtain rfl := Except.ok.inj hrun
          exact hi.symm.trans hfail
        · obtain ⟨rfl, -⟩ := List.cons.inj his
          rw [foldlM_cons_error hi] at hrun
          cases hrun
    · rw [foldlM_cons_ok hi, ih]
      constructor
      · rintro ⟨before, i', after, t, rfl, hrun, hfail⟩
        exact ⟨i :: before, i', after, t, rfl, (foldlM_cons_ok hi).trans hrun, hfail⟩
      · rintro ⟨- | ⟨j, before⟩, i', after, t, his, hrun, hfail⟩
        · obtain ⟨rfl, -⟩ := List.cons.inj his
          obtain rfl := Except.ok.inj hrun
          rw [hi] at hfail
          cases hfail
        · obtain ⟨rfl, rfl⟩ := List.cons.inj his
          rw [foldlM_cons_ok hi] at hrun
          exact ⟨before, i', after, t, rfl, hrun, hfail⟩

end TdUtils.Lib.Fails
