import TdUtils.Concurrent.MpmcSleepyParking

/-!
# Concurrent.MpmcSleepyNotify — `notify` keeps the stages

A notification that finds nobody searching takes the last worker of the list: it is out of the list, then
counted as searching, then it has its flag.
-/

namespace TdUtils.MpmcSleepyWaiter

open Lib (tally)

variable {n : ℕ} {π : Type} {s : MpmcSleepyWaiter n π} {stage : Fin n → Stage}

/-- The counts when one worker changes its stage. -/
theorem tally_of {v : Fin n} {st : Stage} (P : Stage → Bool) (hv : stage v = st) (st' : Stage) :
    tally P (Function.update stage v st') + (P st).toNat = tally P stage + (P st').toNat := by
  rw [← hv]
  exact Lib.tally_update P stage v st'

theorem update_eq_iff {v w : Fin n} {st st' : Stage} (hne : stage v ≠ st') (hst : st ≠ st') :
    Function.update stage v st w = st' ↔ stage w = st' := by
  by_cases hw : w = v
  · subst hw
    rw [Function.update_self]
    exact iff_of_false hst hne
  · rw [Function.update_of_ne hw]

/-- Only the stage of one sleeper changes. -/
theorem passes {v : Fin n} {st : Stage} (hst : (stage v).asleep = true ∧ st.dozes = true) (w : Fin n) :
    Function.update stage v st w = stage w ∨
      (stage w).asleep = true ∧ (Function.update stage v st w).dozes = true := by
  by_cases hw : w = v
  · subst hw
    rw [Function.update_self]
    exact Or.inr hst
  · rw [Function.update_of_ne hw]
    exact Or.inl rfl

/-! ### The mutex -/

theorem acquires (hfree : s.sleepersMutex = none) (t : Fin n ⊕ π) :
    ∀ u, u ≠ t → (some t = some u ↔ s.sleepersMutex = some u) := by
  intro u hu
  rw [hfree]
  exact iff_of_false (fun heq => hu (Option.some.inj heq).symm) (by simp)

theorem Inv.releases (h : Inv s stage) {t : Fin n ⊕ π} (hown : s.holds t = true) :
    ∀ u, u ≠ t → (none = some u ↔ s.sleepersMutex = some u) := by
  intro u hu
  rw [(h.mutex t).mpr hown]
  exact iff_of_false (by simp) fun heq => hu (Option.some.inj heq).symm

theorem Inv.keeps (h : Inv s stage) {w : Fin n} {place : WorkerAt n} (hat : (s.worker w).holds = place.holds) :
    s.sleepersMutex = some (.inl w) ↔ place.holds = true := by
  rw [h.mutex, ← hat]
  rfl

/-! ### The steps of `notify` -/

theorem exists_other {t : Fin n ⊕ π} {a b : NotifyAt n} (hat : s.notifying t = some a) (hab : a ≠ b) :
    (∃ u, s.notifying u = some b) ↔ ∃ u, u ≠ t ∧ s.notifying u = some b := by
  constructor
  · rintro ⟨u, hu⟩
    refine ⟨u, ?_, hu⟩
    rintro rfl
    rw [hat] at hu
    exact hab (Option.some.inj hu)
  · rintro ⟨u, -, hu⟩
    exact ⟨u, hu⟩

theorem exists_not_parked {P : Stage → Bool} (hP : ∀ st, P st = true → st.parked = false)
    (h : 0 < tally P stage) : ∃ w, (stage w).parked = false := by
  obtain ⟨w, hw⟩ := Lib.exists_of_tally_pos h
  exact ⟨w, hP _ hw⟩

theorem not_parked_of_counted : ∀ st : Stage, st.counted = true → st.parked = false := by
  intro st hst
  cases st <;> first | rfl | cases hst

/-- `notify` returns because somebody searches, or because nobody is parked. -/
theorem Inv.awake (h : Inv s stage) (hn : n < 1000)
    (hview : 0 < searchingCount s.state ∨ parkedCount s.state = 0) (hpos : 0 < n) :
    ∃ w, (stage w).parked = false := by
  rcases hview with hsearching | hparked
  · rw [h.searchingCount_eq hn] at hsearching
    exact exists_not_parked not_parked_of_counted (by omega)
  · rw [h.parkedCount_eq hn] at hparked
    refine ⟨⟨0, hpos⟩, ?_⟩
    rw [Bool.eq_false_iff]
    intro hw
    have htally := Lib.tally_pos (P := Stage.parked) (f := stage) hw
    omega

/-- The thread that holds the mutex before it takes a sleeper sees the list as it is counted. -/
theorem Inv.parked_eq_length (h : Inv s stage) (hquiet : ∀ v, stage v ≠ .taken ∧ stage v ≠ .moving) :
    tally Stage.parked stage = s.sleepers.length := by
  refine Lib.tally_eq_length h.nodup fun v => ?_
  rw [h.listed]
  have hv := hquiet v
  cases hst : stage v <;> simp_all [Stage.parked]

theorem Fits.moving {place : WorkerAt n} {slot : SlotState} (h : Fits place slot .moving) :
    place.holds = true ∧ place.notifying = none := by
  have hby : ¬ByState slot .moving := by
    cases slot <;> exact fun hs => by cases hs
  cases place with
  | search => exact absurd h hby
  | wait => exact absurd h hby
  | stopWait => exact absurd h hby
  | push once => exact ⟨rfl, rfl⟩
  | fetchSub => exact ⟨rfl, rfl⟩
  | fetchAdd => exact absurd h.2 (by simp)
  | park => exact absurd h.2 (by decide)
  | working => exact absurd h.2 (by simp)
  | find => cases h
  | cancelPark => cases h
  | stop => cases h
  | notify place => cases h

theorem Inv.not_moving (h : Inv s stage) {t : Fin n ⊕ π} {a : NotifyAt n} (hat : s.notifying t = some a)
    (ha : a.holds = true) (v : Fin n) : stage v ≠ .moving := by
  intro hv
  have hplace := (hv ▸ h.fits v : Fits (s.worker v) (s.slotState v) .moving).moving
  by_cases hvt : .inl v = t
  · subst hvt
    rw [show s.notifying (.inl v) = (s.worker v).notifying from rfl, hplace.2] at hat
    cases hat
  · have hfalse := h.others ((holds_of_notifying hat).trans ha) hvt
    rw [show s.holds (.inl v) = (s.worker v).holds from rfl, hplace.1] at hfalse
    cases hfalse

section Notify

variable [DecidableEq π]

/-- A thread goes on, and no worker is moved. -/
theorem Inv.proceeds (h : Inv s stage) {t : Fin n ⊕ π} {a : NotifyAt n} (hat : s.notifying t = some a)
    {next : Option (NotifyAt n)} {mutex : Option (Fin n ⊕ π)}
    (ha : ∀ v, a ≠ .fetchSub v ∧ a ≠ .unpark v)
    (hnext : ∀ v, next ≠ some (.fetchSub v) ∧ next ≠ some (.unpark v))
    (hmutex : ∀ u, u ≠ t → (mutex = some u ↔ s.sleepersMutex = some u))
    (hholds : mutex = some t ↔ next.any NotifyAt.holds = true)
    (hready : next = none → 0 < n → ∃ w, (stage w).parked = false) :
    Inv (resumes { s with sleepersMutex := mutex } t next) stage := by
  refine h.notified hat (fun w => Or.inl rfl) h.flag h.listed h.nodup h.state hmutex hholds ?_ ?_ hready
  · intro v
    rw [h.taken, exists_other hat (ha v).1]
    exact (or_iff_right (hnext v).1).symm
  · intro v
    rw [h.waking, exists_other hat (ha v).2]
    exact (or_iff_right (hnext v).2).symm

theorem Inv.notify_load (h : Inv s stage) (hn : n < 1000) {t : Fin n ⊕ π} (hat : s.notifying t = some .load) :
    ∃ s', s.notify t .load = some s' ∧ Inv s' stage := by
  have hnot : ¬s.sleepersMutex = some t := by
    rw [h.mutex, holds_of_notifying hat]
    exact Bool.false_ne_true
  unfold notify notifyStep
  dsimp only
  split_ifs with hview
  · exact ⟨_, rfl, h.proceeds hat (by simp) (by simp) (fun _ _ => Iff.rfl) (iff_of_false hnot (by simp))
      fun _ => h.awake hn hview⟩
  · exact ⟨_, rfl, h.proceeds hat (by simp) (by simp) (fun _ _ => Iff.rfl)
      (iff_of_false hnot (by simp [NotifyAt.holds])) (by simp)⟩

theorem Inv.notify_lock (h : Inv s stage) {t : Fin n ⊕ π} (hat : s.notifying t = some .lock) :
    ∃ s', s.notify t .lock = some s' ∧ Inv s' stage := by
  have hnot : ¬s.sleepersMutex = some t := by
    rw [h.mutex, holds_of_notifying hat]
    exact Bool.false_ne_true
  unfold notify notifyStep
  dsimp only
  cases hmutex : s.sleepersMutex with
  | none =>
    exact ⟨_, rfl, h.proceeds hat (by simp) (by simp) (acquires hmutex t) (by simp [NotifyAt.holds]) (by simp)⟩
  | some u =>
    refine ⟨_, rfl, h.proceeds hat (by simp) (by simp) (fun _ _ => Iff.rfl) ?_ (by simp)⟩
    exact iff_of_false hnot (by simp [NotifyAt.holds])

theorem Inv.notify_check (h : Inv s stage) (hn : n < 1000) {t : Fin n ⊕ π} (hat : s.notifying t = some .check) :
    ∃ s' stage', s.notify t .check = some s' ∧ Inv s' stage' := by
  have hheld : s.holds t = true := (holds_of_notifying hat).trans rfl
  have hlength : tally Stage.parked stage = s.sleepers.length := by
    refine h.parked_eq_length fun v => ⟨fun hv => ?_, h.not_moving hat rfl v⟩
    obtain ⟨u, hu⟩ := (h.taken v).mp hv
    obtain rfl := h.sole hat rfl hu rfl
    rw [hat] at hu
    cases hu
  unfold notify notifyStep
  dsimp only
  split_ifs with hview hcheck
  · exact ⟨_, stage, rfl, h.proceeds hat (by simp) (by simp) (h.releases hheld) (by simp)
      fun _ => h.awake hn (Or.inl hview)⟩
  · rw [h.parkedCount_eq hn, hlength] at hcheck
    exact absurd rfl hcheck
  · cases hlast : s.sleepers.getLast? with
    | none =>
      refine ⟨_, stage, rfl, h.proceeds hat (by simp) (by simp) (h.releases hheld) (by simp) fun _ => ?_⟩
      refine h.awake hn (Or.inr ?_)
      rw [h.parkedCount_eq hn, hlength, List.getLast?_eq_none_iff.mp hlast]
      rfl
    | some sleeper =>
      obtain ⟨rest, hrest⟩ := List.getLast?_eq_some_iff.mp hlast
      have hnodup := h.nodup
      rw [hrest] at hnodup
      have hv : stage sleeper = .listed := (h.listed sleeper).mp (by rw [hrest]; simp)
      have hdrop : s.sleepers.dropLast = rest := by rw [hrest, List.dropLast_concat]
      refine ⟨_, Function.update stage sleeper .taken, rfl, h.notified hat (passes ?_) ?_ ?_ ?_ ?_
        (fun _ _ => Iff.rfl) ?_ ?_ ?_ (by simp)⟩
      · rw [hv]
        exact ⟨rfl, rfl⟩
      · intro w
        rw [h.flag, update_eq_iff (by rw [hv]; simp) (by simp)]
      · intro w
        rw [hdrop]
        by_cases hw : w = sleeper
        · subst hw
          rw [Function.update_self]
          refine iff_of_false (fun hmem => ?_) (by simp)
          exact (List.nodup_append.mp hnodup).2.2 w hmem w (by simp) rfl
        · rw [Function.update_of_ne hw, ← h.listed, hrest]
          simp [hw]
      · rw [hdrop]
        exact (List.nodup_append.mp hnodup).1
      · have hparked := tally_of Stage.parked hv .taken
        have hcounted := tally_of Stage.counted hv .taken
        have hstate := h.state
        simp only [Stage.parked, Stage.counted, Bool.toNat_true, Bool.toNat_false] at hparked hcounted
        omega
      · rw [h.mutex, hheld]
        rfl
      · intro v
        have hnone : ¬∃ u, u ≠ t ∧ s.notifying u = some (.fetchSub v) :=
          fun ⟨u, hut, hu⟩ => hut (h.sole hat rfl hu rfl)
        rw [or_iff_left hnone]
        by_cases hvs : v = sleeper
        · subst hvs
          rw [Function.update_self]
          exact iff_of_true rfl rfl
        · rw [Function.update_of_ne hvs, h.taken, exists_other hat (by simp)]
          exact iff_of_false hnone fun heq => hvs (by simpa using heq.symm)
      · intro v
        rw [update_eq_iff (by rw [hv]; simp) (by simp), h.waking, exists_other hat (by simp)]
        exact (or_iff_right (by simp)).symm

theorem Inv.notify_fetchSub (h : Inv s stage) (hn : n < 1000) {t : Fin n ⊕ π} {sleeper : Fin n}
    (hat : s.notifying t = some (.fetchSub sleeper)) :
    ∃ s' stage', s.notify t (.fetchSub sleeper) = some s' ∧ Inv s' stage' := by
  have hheld : s.holds t = true := (holds_of_notifying hat).trans rfl
  have hv : stage sleeper = .taken := (h.taken sleeper).mpr ⟨t, hat⟩
  have hparked := tally_of Stage.parked hv .waking
  have hcounted := tally_of Stage.counted hv .waking
  simp only [Stage.parked, Stage.counted, Bool.toNat_true, Bool.toNat_false] at hparked hcounted
  have hstate : s.state - oneParked = 2 ^ 16 * tally Stage.parked (Function.update stage sleeper .waking) +
      tally Stage.counted (Function.update stage sleeper .waking) := by
    have hold := h.state
    unfold oneParked
    omega
  refine ⟨_, Function.update stage sleeper .waking, rfl, h.notified hat (passes ?_) ?_ ?_ h.nodup ?_
    (fun _ _ => Iff.rfl) ?_ ?_ ?_ (by simp)⟩
  · rw [hv]
    exact ⟨rfl, rfl⟩
  · intro w
    rw [h.flag, update_eq_iff (by rw [hv]; simp) (by simp)]
  · intro w
    rw [h.listed, update_eq_iff (by rw [hv]; simp) (by simp)]
  · have hlt := tally_lt hn (Function.update stage sleeper .waking) Stage.parked
    have hlt' := tally_lt hn (Function.update stage sleeper .waking) Stage.counted
    rw [fetchSub_eq (by omega) (by omega), hstate]
  · rw [h.mutex, hheld]
    rfl
  · intro v
    have hnone : ¬∃ u, u ≠ t ∧ s.notifying u = some (.fetchSub v) :=
      fun ⟨u, hut, hu⟩ => hut (h.sole hat rfl hu rfl)
    by_cases hvs : v = sleeper
    · subst hvs
      rw [Function.update_self, or_iff_left hnone]
      simp
    · rw [Function.update_of_ne hvs, h.taken, exists_other hat (by simpa using fun heq => hvs heq.symm)]
      exact (or_iff_right (by simp)).symm
  · intro v
    have hnone : ¬∃ u, u ≠ t ∧ s.notifying u = some (.unpark v) :=
      fun ⟨u, hut, hu⟩ => hut (h.sole hat rfl hu rfl)
    rw [or_iff_left hnone]
    by_cases hvs : v = sleeper
    · subst hvs
      rw [Function.update_self]
      exact iff_of_true rfl rfl
    · rw [Function.update_of_ne hvs, h.waking, exists_other hat (by simp)]
      exact iff_of_false hnone fun heq => hvs (by simpa using heq.symm)

theorem Inv.notify_unpark (h : Inv s stage) {t : Fin n ⊕ π} {sleeper : Fin n}
    (hat : s.notifying t = some (.unpark sleeper)) :
    ∃ s' stage', s.notify t (.unpark sleeper) = some s' ∧ Inv s' stage' := by
  have hheld : s.holds t = true := (holds_of_notifying hat).trans rfl
  have hv : stage sleeper = .waking := (h.waking sleeper).mpr ⟨t, hat⟩
  refine ⟨_, Function.update stage sleeper .woken, rfl, h.notified hat (passes ?_) ?_ ?_ h.nodup ?_
    (h.releases hheld) (by simp) ?_ ?_ ?_⟩
  · rw [hv]
    exact ⟨rfl, rfl⟩
  · intro w
    by_cases hw : w = sleeper
    · subst hw
      rw [Function.update_self, Function.update_self]
      exact iff_of_true rfl rfl
    · rw [Function.update_of_ne hw, Function.update_of_ne hw]
      exact h.flag w
  · intro w
    rw [h.listed, update_eq_iff (by rw [hv]; simp) (by simp)]
  · have hparked := tally_of Stage.parked hv .woken
    have hcounted := tally_of Stage.counted hv .woken
    have hstate := h.state
    simp only [Stage.parked, Stage.counted, Bool.toNat_true, Bool.toNat_false] at hparked hcounted
    show s.state = _
    omega
  · intro v
    rw [update_eq_iff (by rw [hv]; simp) (by simp), h.taken, exists_other hat (by simp)]
    exact (or_iff_right (by simp)).symm
  · intro v
    have hnone : ¬∃ u, u ≠ t ∧ s.notifying u = some (.unpark v) :=
      fun ⟨u, hut, hu⟩ => hut (h.sole hat rfl hu rfl)
    by_cases hvs : v = sleeper
    · subst hvs
      rw [Function.update_self, or_iff_left hnone]
      simp
    · rw [Function.update_of_ne hvs, h.waking, exists_other hat (by simpa using fun heq => hvs heq.symm)]
      exact (or_iff_right (by simp)).symm
  · intro _ _
    refine ⟨sleeper, ?_⟩
    rw [Function.update_self]
    rfl

theorem Inv.notify (h : Inv s stage) (hn : n < 1000) {t : Fin n ⊕ π} {place : NotifyAt n}
    (hat : s.notifying t = some place) : ∃ s' stage', s.notify t place = some s' ∧ Inv s' stage' := by
  cases place with
  | load =>
    obtain ⟨s', hs, h'⟩ := h.notify_load hn hat
    exact ⟨s', stage, hs, h'⟩
  | lock =>
    obtain ⟨s', hs, h'⟩ := h.notify_lock hat
    exact ⟨s', stage, hs, h'⟩
  | check => exact h.notify_check hn hat
  | fetchSub sleeper => exact h.notify_fetchSub hn hat
  | unpark sleeper => exact h.notify_unpark hat

end Notify

end TdUtils.MpmcSleepyWaiter
