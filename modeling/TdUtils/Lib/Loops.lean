import Mathlib.Data.List.Basic

/-!
# Lib.Loops — loops over a range of counters

A loop whose rounds may fail goes through when each round goes through and takes an invariant on to the next counter.
-/

namespace TdUtils.Lib.Loops

universe u

variable {σ : Type u}

/-- The induction rule for `for (n = a; n < a + k; n++)`. -/
theorem foldlM_range' (step : σ → ℕ → Option σ) (P : ℕ → σ → Prop) : ∀ (k a : ℕ) (s : σ),
    (∀ n s, a ≤ n → n < a + k → P n s → ∃ t, step s n = some t ∧ P (n + 1) t) → P a s →
      ∃ t, (List.range' a k).foldlM step s = some t ∧ P (a + k) t
  | 0, _, s, _, h => ⟨s, rfl, h⟩
  | k + 1, a, s, hstep, h => by
    obtain ⟨t, ht, hnext⟩ := hstep a s (Nat.le_refl a) (by omega) h
    obtain ⟨u, hu, hlast⟩ := foldlM_range' step P k (a + 1) t
      (fun n s hn hn' => hstep n s (by omega) (by omega)) hnext
    refine ⟨u, ?_, by rwa [show a + (k + 1) = a + 1 + k by omega]⟩
    rw [List.range'_succ, List.foldlM_cons, ht]
    exact hu

end TdUtils.Lib.Loops
