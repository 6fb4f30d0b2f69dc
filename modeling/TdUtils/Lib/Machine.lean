import Mathlib.Data.List.Basic
import Mathlib.Data.List.Induction

/-!
# Lib.Machine — partial machines and their runs

A machine reads operations and answers each of them; `none` is a failed check, an access out of
range or a call that does not return.  A run is the list of answers to a list of operations.
`Along C` says that every step of a run meets the condition `C` on the state before it.
`run_inv`, `run_inv_along`, `run_total`, `run_history` and `history_inv` are the induction rules: the first three
carry an invariant of the state, the others an invariant that also speaks of everything read and answered
so far; `history_inv` is about the runs that go through, with a condition on the past of each step.
-/

namespace TdUtils.Lib

universe u v w

/-- A machine with states `σ`, operations `ι` and answers `ω`. -/
structure Machine (σ : Type u) (ι : Type v) (ω : Type w) where
  step : σ → ι → Option (σ × ω)

namespace Machine

variable {σ : Type u} {ι : Type v} {ω : Type w} (M : Machine σ ι ω)

/-- Run a list of operations from a state. -/
def run : σ → List ι → Option (σ × List ω)
  | s, [] => some (s, [])
  | s, i :: is =>
    match M.step s i with
    | none => none
    | some (s', o) =>
      match run s' is with
      | none => none
      | some (t, os) => some (t, o :: os)

@[simp] theorem run_nil (s : σ) : M.run s [] = some (s, []) := rfl

variable {M}

theorem run_cons_of {s s' t : σ} {i : ι} {o : ω} {is : List ι} {os : List ω}
    (hi : M.step s i = some (s', o)) (his : M.run s' is = some (t, os)) :
    M.run s (i :: is) = some (t, o :: os) := by
  simp only [run, hi, his]

theorem run_cons_inv {s t : σ} {i : ι} {is : List ι} {os : List ω}
    (h : M.run s (i :: is) = some (t, os)) :
    ∃ s' o os', M.step s i = some (s', o) ∧ M.run s' is = some (t, os') ∧ os = o :: os' := by
  simp only [run] at h
  split at h
  · cases h
  · rename_i s' o hstep
    split at h
    · cases h
    · rename_i t' os' hrun
      cases h
      exact ⟨s', o, os', hstep, hrun, rfl⟩

theorem run_append_of {s t u : σ} {is js : List ι} {os ps : List ω}
    (h1 : M.run s is = some (t, os)) (h2 : M.run t js = some (u, ps)) :
    M.run s (is ++ js) = some (u, os ++ ps) := by
  induction is generalizing s os with
  | nil => cases h1; simpa using h2
  | cons i is ih =>
    obtain ⟨s', o, os', hi, his, rfl⟩ := run_cons_inv h1
    exact run_cons_of hi (ih his)

theorem run_concat_of {s t u : σ} {is : List ι} {i : ι} {os : List ω} {o : ω}
    (h1 : M.run s is = some (t, os)) (h2 : M.step t i = some (u, o)) :
    M.run s (is ++ [i]) = some (u, os ++ [o]) :=
  run_append_of h1 (run_cons_of h2 rfl)

theorem run_append_inv {s u : σ} {is js : List ι} {qs : List ω}
    (h : M.run s (is ++ js) = some (u, qs)) :
    ∃ t os ps, M.run s is = some (t, os) ∧ M.run t js = some (u, ps) ∧ qs = os ++ ps := by
  induction is generalizing s qs with
  | nil => exact ⟨s, [], qs, rfl, h, rfl⟩
  | cons i is ih =>
    obtain ⟨s', o, os', hi, his, rfl⟩ := run_cons_inv h
    obtain ⟨t, os, ps, h1, h2, rfl⟩ := ih his
    exact ⟨t, o :: os, ps, run_cons_of hi h1, h2, rfl⟩

/-- An invariant of every step is an invariant of every run. -/
theorem run_inv {P : σ → Prop}
    (hstep : ∀ s i s' o, P s → M.step s i = some (s', o) → P s') :
    ∀ (is : List ι) {s t : σ} {os : List ω}, P s → M.run s is = some (t, os) → P t
  | [], _, _, _, hs, h => by cases h; exact hs
  | i :: is, s, t, os, hs, h => by
    obtain ⟨s', o, os', hi, his, -⟩ := run_cons_inv h
    exact run_inv hstep is (hstep s i s' o hs hi) his

/-- If every operation is answered in the states of `P`, with answers in `Q` and without leaving `P`,
every run goes through. -/
theorem run_total {P : σ → Prop} {Q : ω → Prop}
    (hstep : ∀ s i, P s → ∃ s' o, M.step s i = some (s', o) ∧ P s' ∧ Q o) :
    ∀ (is : List ι) (s : σ), P s → ∃ t os, M.run s is = some (t, os) ∧ P t ∧ ∀ o ∈ os, Q o
  | [], s, hs => ⟨s, [], rfl, hs, by simp⟩
  | i :: is, s, hs => by
    obtain ⟨s', o, hi, hs', ho⟩ := hstep s i hs
    obtain ⟨t, os, his, ht, hos⟩ := run_total hstep is s' hs'
    exact ⟨t, o :: os, run_cons_of hi his, ht, List.forall_mem_cons.mpr ⟨ho, hos⟩⟩

variable (M) in
/-- Every step of the run from `s` starts in a state in which its operation meets `C`. -/
def Along (C : σ → ι → Prop) : σ → List ι → Prop
  | _, [] => True
  | s, i :: is => C s i ∧
    match M.step s i with
    | none => True
    | some (s', _) => Along C s' is

instance decidableAlong {C : σ → ι → Prop} [∀ s i, Decidable (C s i)] :
    ∀ (s : σ) (is : List ι), Decidable (M.Along C s is)
  | _, [] => isTrue trivial
  | s, i :: is =>
    match h : M.step s i with
    | none => decidable_of_iff (C s i) (by simp [Along, h])
    | some (s', _) =>
      have := decidableAlong (C := C) s' is
      decidable_of_iff (C s i ∧ M.Along C s' is) (by simp [Along, h])

theorem along_step {C : σ → ι → Prop} {s s' : σ} {i : ι} {o : ω} {is : List ι}
    (h : M.Along C s (i :: is)) (hs : M.step s i = some (s', o)) : M.Along C s' is := by
  simpa only [Along, hs] using h.2

/-- An invariant of every step that meets `C` is an invariant of every run along `C`. -/
theorem run_inv_along {C : σ → ι → Prop} {P : σ → Prop}
    (hstep : ∀ s i s' o, P s → C s i → M.step s i = some (s', o) → P s') :
    ∀ (is : List ι) {s t : σ} {os : List ω}, P s → M.Along C s is → M.run s is = some (t, os) → P t
  | [], _, _, _, hs, _, h => by cases h; exact hs
  | i :: is, s, t, os, hs, halong, h => by
    obtain ⟨s', o, os', hi, his, -⟩ := run_cons_inv h
    exact run_inv_along hstep is (hstep s i s' o hs halong.1 hi) (along_step halong hi) his

theorem along_of_forall {C : σ → ι → Prop} : ∀ (is : List ι) (s : σ), (∀ s, ∀ i ∈ is, C s i) →
    M.Along C s is
  | [], _, _ => trivial
  | i :: is, s, h => by
    refine ⟨h s i (by simp), ?_⟩
    split
    · trivial
    · exact along_of_forall is _ fun t j hj => h t j (by simp [hj])

theorem along_mono {C C' : σ → ι → Prop} : ∀ {is : List ι} {s : σ},
    (∀ s, ∀ i ∈ is, C s i → C' s i) → M.Along C s is → M.Along C' s is
  | [], _, _, _ => trivial
  | i :: is, s, h, halong => by
    refine ⟨h s i (by simp) halong.1, ?_⟩
    split
    · trivial
    · rename_i s' o hs
      exact along_mono (fun t j hj => h t j (by simp [hj])) (along_step halong hs)

theorem along_concat {C : σ → ι → Prop} {i : ι} : ∀ {is : List ι} {s t : σ} {os : List ω},
    M.Along C s (is ++ [i]) → M.run s is = some (t, os) → C t i
  | [], s, t, os, h, hr => by cases hr; exact h.1
  | j :: is, s, t, os, h, hr => by
    obtain ⟨s', o, os', hs, his, -⟩ := run_cons_inv hr
    exact along_concat (along_step h hs) his

theorem along_concat_of {C : σ → ι → Prop} {i : ι} : ∀ {is : List ι} {s t : σ} {os : List ω},
    M.Along C s is → M.run s is = some (t, os) → C t i → M.Along C s (is ++ [i])
  | [], s, t, os, _, hr, hi => by
    cases hr
    refine ⟨hi, ?_⟩
    split <;> trivial
  | j :: is, s, t, os, h, hr, hi => by
    obtain ⟨s', o, os', hs, his, -⟩ := run_cons_inv hr
    refine ⟨h.1, ?_⟩
    rw [hs]
    exact along_concat_of (along_step h hs) his hi

theorem along_dropLast {C : σ → ι → Prop} {i : ι} : ∀ {is : List ι} {s : σ},
    M.Along C s (is ++ [i]) → M.Along C s is
  | [], _, _ => trivial
  | j :: is, s, h => by
    refine ⟨h.1, ?_⟩
    split
    · trivial
    · rename_i s' o hs
      exact along_dropLast (along_step h hs)

variable (M) in
/-- If every admissible continuation of a history whose step meets `C` is answered and keeps `P`,
then every admissible list of operations along `C` runs to its end and satisfies `P`. -/
theorem run_history (s₀ : σ) (C : σ → ι → Prop) (Adm : List ι → Prop)
    (P : List ι → List ω → σ → Prop)
    (hpre : ∀ is i, Adm (is ++ [i]) → Adm is) (h0 : P [] [] s₀)
    (hstep : ∀ is os s i, Adm (is ++ [i]) → C s i → P is os s →
      ∃ s' o, M.step s i = some (s', o) ∧ P (is ++ [i]) (os ++ [o]) s') :
    ∀ is, Adm is → M.Along C s₀ is → ∃ s os, M.run s₀ is = some (s, os) ∧ P is os s := by
  intro is
  induction is using List.reverseRecOn with
  | nil => exact fun _ _ => ⟨s₀, [], rfl, h0⟩
  | append_singleton is i ih =>
    intro hadm halong
    obtain ⟨s, os, hrun, hP⟩ := ih (hpre is i hadm) (along_dropLast halong)
    obtain ⟨s', o, hi, hP'⟩ := hstep is os s i hadm (along_concat halong hrun) hP
    exact ⟨s', os ++ [o], run_concat_of hrun hi, hP'⟩

variable (M) in
/-- The operations and answers that lead from one state to another. -/
def History (s : σ) (events : List (ι × ω)) (t : σ) : Prop :=
  M.run s (events.map Prod.fst) = some (t, events.map Prod.snd)

instance decidableHistory [DecidableEq σ] [DecidableEq ω] (s t : σ) (events : List (ι × ω)) :
    Decidable (M.History s events t) :=
  inferInstanceAs (Decidable (M.run s (events.map Prod.fst) = some (t, events.map Prod.snd)))

theorem history_nil (s : σ) : M.History s [] s := rfl

theorem history_concat {s t u : σ} {events : List (ι × ω)} {i : ι} {o : ω}
    (h : M.History s events t) (hs : M.step t i = some (u, o)) :
    M.History s (events ++ [(i, o)]) u := by
  unfold History
  rw [List.map_append, List.map_append]
  exact run_concat_of h hs

theorem history_cons_inv {s u : σ} {events : List (ι × ω)} {i : ι} {o : ω} (h : M.History s ((i, o) :: events) u) :
    ∃ t, M.step s i = some (t, o) ∧ M.History t events u := by
  obtain ⟨t, o', os, hi, his, heq⟩ := run_cons_inv h
  obtain ⟨rfl, rfl⟩ := List.cons.inj heq
  exact ⟨t, hi, his⟩

theorem history_append_inv {s u : σ} {events : List (ι × ω)} : ∀ {events' : List (ι × ω)},
    M.History s (events' ++ events) u → ∃ t, M.History s events' t ∧ M.History t events u
  | [], h => ⟨s, rfl, h⟩
  | (_, _) :: _, h => by
    obtain ⟨s', hi, h⟩ := history_cons_inv h
    obtain ⟨t, h, h'⟩ := history_append_inv h
    exact ⟨t, run_cons_of hi h, h'⟩

variable (M) in
/-- Every step of the run from `s` meets `C` on the history before it, which begins with `past`. -/
def AlongPast (C : List (ι × ω) → ι → Prop) : List (ι × ω) → σ → List ι → Prop
  | _, _, [] => True
  | past, s, i :: is => C past i ∧
    match M.step s i with
    | none => True
    | some (s', o) => AlongPast C (past ++ [(i, o)]) s' is

instance decidableAlongPast {C : List (ι × ω) → ι → Prop} [∀ past i, Decidable (C past i)] :
    ∀ (past : List (ι × ω)) (s : σ) (is : List ι), Decidable (M.AlongPast C past s is)
  | _, _, [] => isTrue trivial
  | past, s, i :: is =>
    match h : M.step s i with
    | none => decidable_of_iff (C past i) (by simp [AlongPast, h])
    | some (s', o) =>
      have := decidableAlongPast (C := C) (past ++ [(i, o)]) s' is
      decidable_of_iff (C past i ∧ M.AlongPast C (past ++ [(i, o)]) s' is) (by simp [AlongPast, h])

/-- If every step that meets `C` is answered and keeps `P`, every run along `C` goes through and ends in
`P`. -/
theorem run_past {C : List (ι × ω) → ι → Prop} {P : List (ι × ω) → σ → Prop}
    (hstep : ∀ past s i, P past s → C past i → ∃ s' o, M.step s i = some (s', o) ∧ P (past ++ [(i, o)]) s') :
    ∀ (is : List ι) (past : List (ι × ω)) (s : σ), P past s → M.AlongPast C past s is →
      ∃ t os, M.run s is = some (t, os) ∧ P (past ++ is.zip os) t
  | [], past, s, hs, _ => ⟨s, [], rfl, by simpa using hs⟩
  | i :: is, past, s, hs, halong => by
    obtain ⟨s', o, hi, hs'⟩ := hstep past s i hs halong.1
    have hrest : M.AlongPast C (past ++ [(i, o)]) s' is := by simpa only [AlongPast, hi] using halong.2
    obtain ⟨t, os, his, ht⟩ := run_past hstep is _ s' hs' hrest
    refine ⟨t, o :: os, run_cons_of hi his, ?_⟩
    rwa [List.append_assoc] at ht

/-- What the start and every step keep, of the history and the state, holds after every history. -/
theorem history_of_step {P : List (ι × ω) → σ → Prop} {s : σ} (h0 : P [] s)
    (hstep : ∀ events t i u o, P events t → M.step t i = some (u, o) → P (events ++ [(i, o)]) u) :
    ∀ (events : List (ι × ω)) {t : σ}, M.History s events t → P events t := by
  intro events
  induction events using List.reverseRecOn with
  | nil =>
    intro t h
    cases h
    exact h0
  | append_singleton events e ih =>
    intro u h
    unfold History at h
    rw [List.map_append, List.map_append] at h
    obtain ⟨t, os, ps, h1, h2, heq⟩ := run_append_inv h
    obtain ⟨t', o, os', hi, hnil, rfl⟩ := run_cons_inv h2
    cases hnil
    obtain ⟨rfl, hlast⟩ := List.append_inj' heq rfl
    obtain ⟨rfl, -⟩ := List.cons.inj hlast
    exact hstep events t e.1 u e.2 (ih h1) hi

/-- An invariant of the history and the state, kept by every step that is used as `Use` asks. -/
theorem history_inv {C : σ → ι → Prop} {Use : List (ι × ω) → ι → Prop}
    {P : List (ι × ω) → σ → Prop}
    (hstep : ∀ events s i s' o, P events s → C s i → Use events i → M.step s i = some (s', o) →
      P (events ++ [(i, o)]) s') :
    ∀ (events : List (ι × ω)) {s t : σ} (past : List (ι × ω)), P past s →
      M.Along C s (events.map Prod.fst) → M.History s events t →
      (∀ before e after, events = before ++ e :: after → Use (past ++ before) e.1) →
      P (past ++ events) t
  | [], s, t, past, hs, _, h, _ => by
    cases h
    simpa using hs
  | (i, o) :: events, s, t, past, hs, halong, h, huse => by
    obtain ⟨s', o', os', hi, his, heq⟩ := run_cons_inv h
    obtain ⟨rfl, rfl⟩ := List.cons.inj heq
    have hfirst := huse [] (i, o) events rfl
    rw [List.append_nil] at hfirst
    have hnext := history_inv hstep events (past ++ [(i, o)])
      (hstep past s i s' o hs halong.1 hfirst hi) (along_step halong hi) his
      fun before e after heq => by
        have hrest := huse ((i, o) :: before) e after (congrArg ((i, o) :: ·) heq)
        rwa [List.append_assoc]
    rwa [List.append_assoc] at hnext

end Machine

end TdUtils.Lib
