import TdUtils.Lib.Machine

/-!
# Lib.Refines — machines that answer as a specification says

A specification has states of its own, a condition on each operation, and says which answers an operation may get.  A
machine refines it by a relation between their states if every operation that meets the condition is answered so, with the
relation kept.
-/

namespace TdUtils.Lib

universe u v w x

structure Specification (τ : Type x) (ι : Type v) (ω : Type w) where
  Pre : τ → ι → Prop
  next : τ → ι → τ
  Answer : τ → ι → ω → Prop

namespace Specification

variable {τ : Type x} {ι : Type v} {ω : Type w} (S : Specification τ ι ω)

/-- Each operation meets its condition when it is its turn. -/
def Admits : τ → List ι → Prop
  | _, [] => True
  | t, i :: is => S.Pre t i ∧ Admits (S.next t i) is

/-- The answers to a list of operations, one for each. -/
def Answers : τ → List ι → List ω → Prop
  | _, [], [] => True
  | t, i :: is, o :: os => S.Answer t i o ∧ Answers (S.next t i) is os
  | _, _, _ => False

variable {S}

theorem admits_of_forall : ∀ {is : List ι} (t : τ), (∀ t, ∀ i ∈ is, S.Pre t i) → S.Admits t is
  | [], _, _ => trivial
  | _ :: _, t, hpre =>
    ⟨hpre t _ List.mem_cons_self, admits_of_forall _ fun t i hi => hpre t i (List.mem_cons_of_mem _ hi)⟩

end Specification

namespace Machine

variable {σ : Type u} {ι : Type v} {ω : Type w} {τ : Type x} {M : Machine σ ι ω} {S : Specification τ ι ω}
  {R : σ → τ → Prop}

variable (M S R) in
def Refines : Prop := ∀ s t i, R s t → S.Pre t i →
  ∃ s' o, M.step s i = some (s', o) ∧ R s' (S.next t i) ∧ S.Answer t i o

/-- Runs of a machine that refines a specification go through and answer as it says. -/
theorem Refines.run (h : M.Refines S R) : ∀ (is : List ι) {s : σ} {t : τ}, R s t → S.Admits t is →
    ∃ s' os, M.run s is = some (s', os) ∧ R s' (is.foldl S.next t) ∧ S.Answers t is os
  | [], s, _, hR, _ => ⟨s, [], rfl, hR, trivial⟩
  | i :: is, s, t, hR, hadmits => by
    obtain ⟨s₁, o, hstep, hR₁, ho⟩ := h s t i hR hadmits.1
    obtain ⟨s', os, hrun, hR', hos⟩ := Refines.run h is hR₁ hadmits.2
    exact ⟨s', o :: os, run_cons_of hstep hrun, hR', ho, hos⟩

end Machine

end TdUtils.Lib
