import TdUtils.Concurrent.MpmcSleepyNotify

/-!
# Concurrent.MpmcSleepyWakeups — no check fails, and nobody sleeps beside an item

A worker that parks while nobody else searches looks at the queue once more after it is in the list.
-/

namespace TdUtils.MpmcSleepyWaiter

open Lib (tally)

variable {n : ℕ} {π : Type} {s : MpmcSleepyWaiter n π} {stage : Fin n → Stage}

/-! ### Searching -/

theorem plain_of_none {place : WorkerAt n} (h : place.notifying = none) : Plain place := by
  intro v
  rw [h]
  exact ⟨nofun, nofun⟩

theorem ready_stopWait (st : Stage) : Ready (.stopWait : WorkerAt n) st = true := by
  cases st <;> rfl

theorem ready_search (st : Stage) : Ready (.search : WorkerAt n) st = true := by
  cases st <;> rfl

/-- A worker goes on, and only its own place changes. -/
theorem Inv.goes (h : Inv s stage) {w : Fin n} {place : WorkerAt n} (queue : List ℕ)
    (hfits : Fits place (s.slotState w) (stage w)) (hholds : (s.worker w).holds = place.holds)
    (hold : Plain (s.worker w)) (hnew : Plain place)
    (hready : queue ≠ [] → s.queue ≠ [] ∧ (Ready place (stage w) = true ∨
      Ready (s.worker w) (stage w) = false ∨ ∃ v, v ≠ w ∧ Ready (s.worker v) (stage v) = true)) :
    Inv ({ s with queue := queue }.goes w place) stage :=
  h.moved (fun _ _ => rfl) (fun _ _ => rfl) (fun _ _ => rfl) hfits (h.flag w) h.listed h.nodup h.state
    (fun _ _ => Iff.rfl) (h.keeps hholds) hold hnew Iff.rfl Iff.rfl hready

/-- What a worker that changes its stage adds to the word. -/
def added (st st' : Stage) : ℤ :=
  2 ^ 16 * ((st'.parked.toNat : ℤ) - st.parked.toNat) + ((st'.counted.toNat : ℤ) - st.counted.toNat)

theorem Inv.state_update (h : Inv s stage) (w : Fin n) (st : Stage) :
    s.state + added (stage w) st = 2 ^ 16 * tally Stage.parked (Function.update stage w st) +
      tally Stage.counted (Function.update stage w st) := by
  have hparked := Lib.tally_update Stage.parked stage w st
  have hcounted := Lib.tally_update Stage.counted stage w st
  have hstate := h.state
  unfold added
  omega

theorem Inv.fetchAdd (h : Inv s stage) (hn : n < 1000) {w : Fin n} {st : Stage} {add : ℤ}
    (hadd : add = added (stage w) st) : fetchAdd s.state add = s.state + added (stage w) st := by
  have hstate := h.state_update w st
  have hparked := tally_lt hn (Function.update stage w st) Stage.parked
  have hcounted := tally_lt hn (Function.update stage w st) Stage.counted
  rw [hadd, fetchAdd_eq (by omega) (by omega)]

theorem Inv.fetchSub (h : Inv s stage) (hn : n < 1000) {w : Fin n} {st : Stage} {sub : ℤ}
    (hsub : -sub = added (stage w) st) : fetchSub s.state sub = s.state + added (stage w) st := by
  have hstate := h.state_update w st
  have hparked := tally_lt hn (Function.update stage w st) Stage.parked
  have hcounted := tally_lt hn (Function.update stage w st) Stage.counted
  rw [fetchSub_eq (by omega) (by omega)]
  omega

/-- Nobody else is dealing with the worker. -/
def Stage.own (st : Stage) : Prop := st ≠ .taken ∧ st ≠ .waking

/-- A worker goes on and changes its stage. -/
theorem Inv.turns (h : Inv s stage) {w : Fin n} {place : WorkerAt n} {st : Stage}
    {slots : Fin n → SlotState} {flags : Fin n → Bool} {state : ℤ} {mutex : Option (Fin n ⊕ π)}
    {sleepers : List (Fin n)} (hslots : ∀ v, v ≠ w → slots v = s.slotState v)
    (hflags : ∀ v, v ≠ w → flags v = s.unparkFlag v) (hfits : Fits place (slots w) st)
    (hflag : flags w = true ↔ st = .woken) (hothers : ∀ v, v ≠ w → (v ∈ sleepers ↔ v ∈ s.sleepers))
    (hlisted : w ∈ sleepers ↔ st = .listed) (hnodup : sleepers.Nodup)
    (hstate : state = s.state + added (stage w) st)
    (hmutex : ∀ t, t ≠ .inl w → (mutex = some t ↔ s.sleepersMutex = some t))
    (hholds : mutex = some (.inl w) ↔ place.holds = true) (hold : Plain (s.worker w)) (hnew : Plain place)
    (hw : (stage w).own) (hst : st.own)
    (hready : Ready place st = true ∨ Ready (s.worker w) (stage w) = false ∨
      ∃ v, v ≠ w ∧ Ready (s.worker v) (stage v) = true) :
    Inv { s with
      state := state
      sleepersMutex := mutex
      sleepers := sleepers
      slotState := slots
      unparkFlag := flags
      worker := Function.update s.worker w place } (Function.update stage w st) := by
  refine h.moved (fun v hv => Function.update_of_ne hv _ _) hslots hflags ?_ ?_ ?_ hnodup
    (hstate.trans (h.state_update w st)) hmutex hholds hold hnew ?_ ?_ ?_
  · rwa [Function.update_self]
  · rwa [Function.update_self]
  · intro v
    by_cases hv : v = w
    · subst hv
      rwa [Function.update_self]
    · rw [Function.update_of_ne hv, hothers v hv, h.listed]
  · rw [Function.update_self]
    exact iff_of_false hst.1 hw.1
  · rw [Function.update_self]
    exact iff_of_false hst.2 hw.2
  · rw [Function.update_self]
    exact fun hqueue => ⟨hqueue, hready⟩

theorem Inv.not_listed (h : Inv s stage) {w : Fin n} {st : Stage} (hw : stage w ≠ .listed) (hst : st ≠ .listed) :
    w ∈ s.sleepers ↔ st = .listed :=
  iff_of_false (fun hmem => hw ((h.listed w).mp hmem)) hst

theorem Inv.not_woken (h : Inv s stage) {w : Fin n} {st : Stage} (hw : stage w ≠ .woken) (hst : st ≠ .woken) :
    s.unparkFlag w = true ↔ st = .woken :=
  iff_of_false (fun hflag => hw ((h.flag w).mp hflag)) hst

section Steps

variable [DecidableEq π]

theorem Inv.step_search (h : Inv s stage) {w : Fin n} (pick : ℕ) (hat : s.worker w = .search) :
    ∃ s', s.workerStep w pick = some s' ∧ Inv s' stage := by
  have hfits := h.fits w
  rw [hat] at hfits
  unfold workerStep
  simp only [hat]
  split_ifs with hempty
  · refine ⟨_, rfl, h.goes s.queue hfits (by rw [hat]; rfl) (by rw [hat]; exact plain_of_none rfl)
      (plain_of_none rfl) fun hqueue => absurd hempty hqueue⟩
  · refine ⟨_, rfl, h.goes _ hfits (by rw [hat]; rfl) (by rw [hat]; exact plain_of_none rfl)
      (plain_of_none rfl) fun _ => ⟨hempty, Or.inl (ready_stopWait _)⟩⟩

omit [DecidableEq π] in
theorem Inv.step_wait (h : Inv s stage) (hn : n < 1000) {w : Fin n} (hat : s.worker w = .wait) :
    ∃ stage', Inv (s.wait w) stage' := by
  have hfits := h.fits w
  rw [hat] at hfits
  have hold : Plain (s.worker w) := by
    rw [hat]
    exact plain_of_none rfl
  unfold MpmcSleepyWaiter.wait
  cases hslot : s.slotState w with
  | work =>
    rw [hslot] at hfits
    have hst : stage w = .free := hfits
    dsimp only
    refine ⟨Function.update stage w .searching, h.turns (fun v hv => Function.update_of_ne hv _ _)
      (fun _ _ => rfl) ?_ ?_ (fun _ _ => Iff.rfl) ?_ h.nodup (h.fetchAdd hn ?_) (fun _ _ => Iff.rfl)
      (h.keeps (by rw [hat]; rfl)) hold (plain_of_none rfl) ?_ ⟨nofun, nofun⟩ (Or.inl (ready_search _))⟩
    · show Fits .search (Function.update s.slotState w .search w) .searching
      rw [Function.update_self]
      rfl
    · exact h.not_woken (by rw [hst]; simp) (by simp)
    · exact h.not_listed (by rw [hst]; simp) (by simp)
    · rw [hst]
      rfl
    · rw [hst]
      exact ⟨nofun, nofun⟩
  | search =>
    rw [hslot] at hfits
    have hst : stage w = .searching := hfits
    dsimp only
    cases hmutex : s.sleepersMutex with
    | none =>
      refine ⟨stage, h.moved (fun _ _ => rfl) (fun v hv => Function.update_of_ne hv _ _) (fun _ _ => rfl) ?_
        (h.flag w) h.listed h.nodup h.state (acquires hmutex _) (iff_of_true rfl rfl) hold (plain_of_none rfl)
        Iff.rfl Iff.rfl fun hqueue => ⟨hqueue, Or.inl (ready_of_awake ?_)⟩⟩
      · show Fits .fetchAdd (Function.update s.slotState w .sleep w) (stage w)
        rw [Function.update_self]
        exact ⟨rfl, hst⟩
      · rw [hst]
        rfl
    | some t => exact ⟨stage, h⟩
  | sleep =>
    rw [hslot] at hfits
    refine ⟨stage, h.goes s.queue ⟨hslot, hfits⟩ (by rw [hat]; rfl) hold (plain_of_none rfl) fun hqueue => ⟨hqueue, ?_⟩⟩
    rw [hat]
    cases hparked : (stage w).parked with
    | false => exact Or.inl (ready_of_awake hparked)
    | true =>
      refine Or.inr (Or.inl ?_)
      unfold Ready
      rw [hparked]
      rfl

theorem Inv.step_fetchAdd (h : Inv s stage) (hn : n < 1000) {w : Fin n} (pick : ℕ) (hat : s.worker w = .fetchAdd) :
    ∃ s' stage', s.workerStep w pick = some s' ∧ Inv s' stage' := by
  have hfits := h.fits w
  rw [hat] at hfits
  obtain ⟨hslot, hst⟩ := hfits
  have hpos := h.counted_pos hn (w := w) (by rw [hst]; rfl)
  unfold workerStep
  simp only [hat]
  rw [if_neg hpos]
  refine ⟨_, Function.update stage w .moving, rfl, h.turns (fun _ _ => rfl) (fun _ _ => rfl) ⟨hslot, rfl⟩ ?_
    (fun _ _ => Iff.rfl) ?_ h.nodup (h.fetchAdd hn ?_) (fun _ _ => Iff.rfl) (h.keeps (by rw [hat]; rfl)) ?_
    (plain_of_none rfl) ?_ ⟨nofun, nofun⟩ ?_⟩
  · exact h.not_woken (by rw [hst]; simp) (by simp)
  · exact h.not_listed (by rw [hst]; simp) (by simp)
  · rw [hst]
    rfl
  · rw [hat]
    exact plain_of_none rfl
  · rw [hst]
    exact ⟨nofun, nofun⟩
  · -- the last one that searches looks once more; otherwise another one searches
    by_cases hone : searchingCount s.state = 1
    · rw [decide_eq_true hone]
      exact Or.inl rfl
    · rw [h.searchingCount_eq hn] at hone hpos
      obtain ⟨v, hvw, hv⟩ := Lib.exists_other_of_tally (P := Stage.counted) (f := stage) (i := w) (by omega)
      exact Or.inr (Or.inr ⟨v, hvw, ready_of_awake (not_parked_of_counted _ hv)⟩)

theorem Inv.step_push (h : Inv s stage) {w : Fin n} {once : Bool} (pick : ℕ) (hat : s.worker w = .push once) :
    ∃ s' stage', s.workerStep w pick = some s' ∧ Inv s' stage' := by
  have hfits := h.fits w
  rw [hat] at hfits
  obtain ⟨hslot, hst⟩ := hfits
  have hflag : ¬s.unparkFlag w = true := by
    rw [h.flag, hst]
    simp
  have hmem : w ∉ s.sleepers := by
    rw [h.listed, hst]
    simp
  have hheld : s.holds (.inl w) = true := by
    unfold holds
    dsimp only
    rw [hat]
    rfl
  unfold workerStep
  simp only [hat]
  rw [if_neg hflag]
  refine ⟨_, Function.update stage w .listed, rfl, h.turns (fun _ _ => rfl) (fun _ _ => rfl) ?_
    (iff_of_false hflag (by simp)) ?_ (iff_of_true (by simp) rfl) ?_ ?_ (h.releases hheld) ?_ ?_ ?_ ?_
    ⟨nofun, nofun⟩ ?_⟩
  · cases once with
    | false => exact ⟨hslot, rfl⟩
    | true =>
      show ByState (s.slotState w) .listed
      rw [hslot]
      rfl
  · intro v hv
    rw [List.mem_append, List.mem_singleton]
    exact or_iff_left hv
  · refine List.nodup_append.mpr ⟨h.nodup, List.nodup_singleton w, ?_⟩
    rintro v hv u hu rfl
    rw [List.mem_singleton] at hu
    exact hmem (hu ▸ hv)
  · rw [hst]
    exact (add_zero _).symm
  · cases once <;> simp [WorkerAt.holds]
  · rw [hat]
    exact plain_of_none rfl
  · cases once <;> exact plain_of_none rfl
  · rw [hst]
    exact ⟨nofun, nofun⟩
  · cases once with
    | true => exact Or.inl rfl
    | false =>
      refine Or.inr (Or.inl ?_)
      rw [hat, hst]
      rfl

theorem Inv.step_park (h : Inv s stage) {w : Fin n} (pick : ℕ) (hat : s.worker w = .park) :
    ∃ s' stage', s.workerStep w pick = some s' ∧ Inv s' stage' := by
  unfold workerStep
  simp only [hat]
  split_ifs with hflag
  · have hst := (h.flag w).mp hflag
    refine ⟨_, Function.update stage w .searching, rfl, h.turns (fun v hv => Function.update_of_ne hv _ _)
      (fun v hv => Function.update_of_ne hv _ _) ?_ ?_ (fun _ _ => Iff.rfl) ?_ h.nodup ?_ (fun _ _ => Iff.rfl)
      (h.keeps (by rw [hat]; rfl)) ?_ (plain_of_none rfl) ?_ ⟨nofun, nofun⟩ (Or.inl (ready_search _))⟩
    · show Fits .search (Function.update s.slotState w .search w) .searching
      rw [Function.update_self]
      rfl
    · show Function.update s.unparkFlag w false w = true ↔ _
      rw [Function.update_self]
      simp
    · exact h.not_listed (by rw [hst]; simp) (by simp)
    · rw [hst]
      exact (add_zero _).symm
    · rw [hat]
      exact plain_of_none rfl
    · rw [hst]
      exact ⟨nofun, nofun⟩
  · exact ⟨s, stage, rfl, h⟩

/-! ### A worker that has found an item -/

omit [DecidableEq π] in
theorem Inv.step_stopWait (h : Inv s stage) {w : Fin n} (hat : s.worker w = .stopWait) : Inv (s.stopWait w) stage := by
  have hfits := h.fits w
  rw [hat] at hfits
  have hold : Plain (s.worker w) := by
    rw [hat]
    exact plain_of_none rfl
  unfold MpmcSleepyWaiter.stopWait
  cases hslot : s.slotState w with
  | work =>
    rw [hslot] at hfits
    have hst : stage w = .free := hfits
    refine h.goes s.queue ⟨hslot, hst⟩ (by rw [hat]; rfl) hold (plain_of_none rfl) fun hqueue =>
      ⟨hqueue, Or.inl (ready_of_awake ?_)⟩
    rw [hst]
    rfl
  | search =>
    rw [hslot] at hfits
    have hst : stage w = .searching := hfits
    refine h.goes s.queue hst (by rw [hat]; rfl) hold (plain_of_none rfl) fun hqueue =>
      ⟨hqueue, Or.inl (ready_of_awake ?_)⟩
    rw [hst]
    rfl
  | sleep =>
    rw [hslot] at hfits
    dsimp only
    cases hmutex : s.sleepersMutex with
    | none =>
      refine h.moved (fun _ _ => rfl) (fun v hv => Function.update_of_ne hv _ _) (fun _ _ => rfl) ?_
        (h.flag w) h.listed h.nodup h.state (acquires hmutex _) (iff_of_true rfl rfl) hold (plain_of_none rfl)
        Iff.rfl Iff.rfl fun hqueue => ⟨hqueue, Or.inl ?_⟩
      · exact hfits
      · cases stage w <;> rfl
    | some t => exact h

/-- A worker that sleeps, is not in the list, and holds the mutex has its flag. -/
theorem Inv.woken_of_find (h : Inv s stage) {w : Fin n} (hat : s.worker w = .find) (hmem : w ∉ s.sleepers) :
    stage w = .woken := by
  have hheld : s.holds (.inl w) = true := by
    unfold holds
    dsimp only
    rw [hat]
    rfl
  have hnone : s.notifying (.inl w) = none := by
    unfold notifying
    dsimp only
    rw [hat]
    rfl
  have hnobody : ∀ t a, s.notifying t = some a → a.holds = false := by
    intro t a ht
    by_cases htw : t = .inl w
    · subst htw
      rw [hnone] at ht
      cases ht
    · rw [← holds_of_notifying ht]
      exact h.others hheld htw
  have hfits := h.fits w
  rw [hat] at hfits
  have hdozes : (stage w).dozes = true := hfits
  cases hst : stage w with
  | woken => rfl
  | listed => exact absurd ((h.listed w).mpr hst) hmem
  | taken =>
    obtain ⟨t, ht⟩ := (h.taken w).mp hst
    exact absurd (hnobody t _ ht) (by simp [NotifyAt.holds])
  | waking =>
    obtain ⟨t, ht⟩ := (h.waking w).mp hst
    exact absurd (hnobody t _ ht) (by simp [NotifyAt.holds])
  | free =>
    rw [hst] at hdozes
    cases hdozes
  | searching =>
    rw [hst] at hdozes
    cases hdozes
  | moving =>
    rw [hst] at hdozes
    cases hdozes

theorem Inv.step_find (h : Inv s stage) {w : Fin n} (pick : ℕ) (hat : s.worker w = .find) :
    ∃ s' stage', s.workerStep w pick = some s' ∧ Inv s' stage' := by
  have hheld : s.holds (.inl w) = true := by
    unfold holds
    dsimp only
    rw [hat]
    rfl
  have hold : Plain (s.worker w) := by
    rw [hat]
    exact plain_of_none rfl
  unfold workerStep
  simp only [hat]
  split_ifs with hmem
  · have hst := (h.listed w).mp hmem
    refine ⟨_, Function.update stage w .moving, rfl, h.turns (fun _ _ => rfl) (fun _ _ => rfl) rfl ?_ ?_ ?_
      (h.nodup.erase w) ?_ (fun _ _ => Iff.rfl) (h.keeps (by rw [hat]; rfl)) hold (plain_of_none rfl) ?_
      ⟨nofun, nofun⟩ (Or.inl rfl)⟩
    · exact h.not_woken (by rw [hst]; simp) (by simp)
    · intro v hv
      rw [h.nodup.mem_erase_iff]
      exact and_iff_right hv
    · rw [h.nodup.mem_erase_iff]
      simp
    · rw [hst]
      exact (add_zero _).symm
    · rw [hst]
      exact ⟨nofun, nofun⟩
  · have hst := h.woken_of_find hat hmem
    refine ⟨_, stage, rfl, h.moved (fun _ _ => rfl) (fun _ _ => rfl) (fun _ _ => rfl) hst (h.flag w) h.listed h.nodup
      h.state (h.releases hheld) (by simp [WorkerAt.holds]) hold (plain_of_none rfl) Iff.rfl Iff.rfl fun hqueue =>
      ⟨hqueue, Or.inl (ready_of_awake ?_)⟩⟩
    rw [hst]
    rfl

theorem Inv.step_fetchSub (h : Inv s stage) (hn : n < 1000) {w : Fin n} (pick : ℕ) (hat : s.worker w = .fetchSub) :
    ∃ s' stage', s.workerStep w pick = some s' ∧ Inv s' stage' := by
  have hfits := h.fits w
  rw [hat] at hfits
  have hst : stage w = .moving := hfits
  have hheld : s.holds (.inl w) = true := by
    unfold holds
    dsimp only
    rw [hat]
    rfl
  unfold workerStep
  simp only [hat]
  refine ⟨_, Function.update stage w .searching, rfl, h.turns (fun v hv => Function.update_of_ne hv _ _)
    (fun _ _ => rfl) rfl ?_ (fun _ _ => Iff.rfl) ?_ h.nodup (h.fetchSub hn ?_) (h.releases hheld)
    (iff_of_false nofun Bool.false_ne_true) ?_ (plain_of_none rfl) ?_ ⟨nofun, nofun⟩ (Or.inl (ready_of_awake rfl))⟩
  · exact h.not_woken (by rw [hst]; simp) (by simp)
  · exact h.not_listed (by rw [hst]; simp) (by simp)
  · rw [hst]
    rfl
  · rw [hat]
    exact plain_of_none rfl
  · rw [hst]
    exact ⟨nofun, nofun⟩

theorem Inv.step_cancelPark (h : Inv s stage) {w : Fin n} (pick : ℕ) (hat : s.worker w = .cancelPark) :
    ∃ s' stage', s.workerStep w pick = some s' ∧ Inv s' stage' := by
  have hfits := h.fits w
  rw [hat] at hfits
  have hst : stage w = .woken := hfits
  unfold workerStep
  simp only [hat]
  rw [if_pos ((h.flag w).mpr hst)]
  refine ⟨_, Function.update stage w .searching, rfl, h.turns (fun v hv => Function.update_of_ne hv _ _)
    (fun v hv => Function.update_of_ne hv _ _) rfl ?_ (fun _ _ => Iff.rfl) ?_ h.nodup ?_ (fun _ _ => Iff.rfl)
    (h.keeps (by rw [hat]; rfl)) ?_ (plain_of_none rfl) ?_ ⟨nofun, nofun⟩ (Or.inl (ready_of_awake rfl))⟩
  · show Function.update s.unparkFlag w false w = true ↔ _
    rw [Function.update_self]
    simp
  · exact h.not_listed (by rw [hst]; simp) (by simp)
  · rw [hst]
    exact (add_zero _).symm
  · rw [hat]
    exact plain_of_none rfl
  · rw [hst]
    exact ⟨nofun, nofun⟩

theorem Inv.step_stop (h : Inv s stage) (hn : n < 1000) {w : Fin n} (pick : ℕ) (hat : s.worker w = .stop) :
    ∃ s' stage', s.workerStep w pick = some s' ∧ Inv s' stage' := by
  have hfits := h.fits w
  rw [hat] at hfits
  have hst : stage w = .searching := hfits
  have hpos := h.counted_pos hn (w := w) (by rw [hst]; rfl)
  have hlt := tally_lt hn stage Stage.counted
  have hcheck : ¬(searchingCount s.state = 0 ∨ 1000 ≤ searchingCount s.state) := by
    rw [h.searchingCount_eq hn] at hpos ⊢
    omega
  have hsub : -(1 : ℤ) = added (stage w) .free := by
    rw [hst]
    rfl
  have hold : Plain (s.worker w) := by
    rw [hat]
    exact plain_of_none rfl
  have hw : (stage w).own := by
    rw [hst]
    exact ⟨nofun, nofun⟩
  have hflag : s.unparkFlag w = true ↔ Stage.free = .woken := h.not_woken (by rw [hst]; simp) (by simp)
  have hlisted : w ∈ s.sleepers ↔ Stage.free = .listed := h.not_listed (by rw [hst]; simp) (by simp)
  unfold workerStep
  simp only [hat]
  rw [if_neg hcheck]
  split_ifs with hone
  · refine ⟨_, Function.update stage w .free, rfl, h.turns (fun _ _ => rfl) (fun _ _ => rfl) rfl hflag
      (fun _ _ => Iff.rfl) hlisted h.nodup (h.fetchSub hn hsub) (fun _ _ => Iff.rfl) (h.keeps (by rw [hat]; rfl))
      hold ?_ hw ⟨nofun, nofun⟩ (Or.inl (ready_of_awake rfl))⟩
    exact fun v => ⟨nofun, nofun⟩
  · refine ⟨_, Function.update stage w .free, rfl, h.turns (fun v hv => Function.update_of_ne hv _ _)
      (fun _ _ => rfl) ?_ hflag (fun _ _ => Iff.rfl) hlisted h.nodup (h.fetchSub hn hsub) (fun _ _ => Iff.rfl)
      (h.keeps (by rw [hat]; rfl)) hold (plain_of_none rfl) hw ⟨nofun, nofun⟩ (Or.inl (ready_of_awake rfl))⟩
    show Fits .working (Function.update s.slotState w .work w) .free
    rw [Function.update_self]
    exact ⟨rfl, rfl⟩

theorem Inv.worker (h : Inv s stage) (hn : n < 1000) (w : Fin n) (pick : ℕ) :
    ∃ s' stage', s.workerStep w pick = some s' ∧ Inv s' stage' := by
  cases hat : s.worker w with
  | search =>
    obtain ⟨s', hs, h'⟩ := h.step_search pick hat
    exact ⟨s', stage, hs, h'⟩
  | wait =>
    obtain ⟨stage', h'⟩ := h.step_wait hn hat
    refine ⟨_, stage', ?_, h'⟩
    unfold workerStep
    simp only [hat]
  | fetchAdd => exact h.step_fetchAdd hn pick hat
  | push once => exact h.step_push pick hat
  | park => exact h.step_park pick hat
  | stopWait =>
    refine ⟨_, stage, ?_, h.step_stopWait hat⟩
    unfold workerStep
    simp only [hat]
  | find => exact h.step_find pick hat
  | fetchSub => exact h.step_fetchSub hn pick hat
  | cancelPark => exact h.step_cancelPark pick hat
  | stop => exact h.step_stop hn pick hat
  | notify place =>
    have hnotifying : s.notifying (.inl w) = some place := by
      unfold notifying
      dsimp only
      rw [hat]
      rfl
    obtain ⟨s', stage', hs, h'⟩ := h.notify hn hnotifying
    refine ⟨s', stage', ?_, h'⟩
    unfold workerStep
    simp only [hat]
    exact hs
  | working =>
    have hfits := h.fits w
    rw [hat] at hfits
    refine ⟨s.goes w .search, stage, ?_, h.goes s.queue ?_ (by rw [hat]; rfl) ?_ (plain_of_none rfl) fun hqueue =>
      ⟨hqueue, Or.inl (ready_search _)⟩⟩
    · unfold workerStep
      simp only [hat]
    · show ByState (s.slotState w) (stage w)
      rw [hfits.1]
      exact hfits.2
    · rw [hat]
      exact plain_of_none rfl

/-! ### Producers -/

theorem publish_notifying {p : π} (hat : s.producer p = .idle) {b : NotifyAt n} (hb : b ≠ .load) :
    (∃ t, s.notifying t = some b) ↔ ∃ t, notifying { s with
      queue := s.queue ++ [s.published]
      published := s.published + 1
      producer := Function.update s.producer p (.notify .load) } t = some b := by
  unfold notifying
  dsimp only
  constructor
  · rintro ⟨w | q, ht⟩
    · exact ⟨.inl w, ht⟩
    · refine ⟨.inr q, ?_⟩
      have hq : q ≠ p := by
        rintro rfl
        dsimp only at ht
        rw [hat] at ht
        cases ht
      dsimp only
      rwa [Function.update_of_ne hq]
  · rintro ⟨w | q, ht⟩
    · exact ⟨.inl w, ht⟩
    · refine ⟨.inr q, ?_⟩
      dsimp only at ht
      by_cases hq : q = p
      · subst hq
        rw [Function.update_self] at ht
        exact absurd (Option.some.inj ht).symm hb
      · rwa [Function.update_of_ne hq] at ht

theorem Inv.publish (h : Inv s stage) (p : π) : Inv (s.publish p) stage := by
  unfold MpmcSleepyWaiter.publish
  cases hat : s.producer p with
  | notify place => exact h
  | idle =>
    dsimp only
    have hother : ∀ q, q ≠ p → Function.update s.producer p (.notify .load) q = s.producer q :=
      fun q hq => Function.update_of_ne hq _ _
    have hself : Function.update s.producer p (.notify .load) p = .notify .load := Function.update_self ..
    refine ⟨h.fits, h.flag, h.listed, h.nodup, h.state, ?_, ?_, ?_, ?_⟩
    · rintro (w | q)
      · exact h.mutex (.inl w)
      · rw [h.mutex]
        unfold holds
        dsimp only
        by_cases hq : q = p
        · subst hq
          rw [hself, hat]
          exact Iff.rfl
        · rw [hother q hq]
    · intro v
      rw [h.taken]
      exact publish_notifying hat (by simp)
    · intro v
      rw [h.waking]
      exact publish_notifying hat (by simp)
    · intro _ _
      refine Or.inr ⟨p, ?_⟩
      dsimp only
      rw [hself]
      simp

theorem Inv.producer (h : Inv s stage) (hn : n < 1000) (p : π) :
    ∃ s' stage', s.producerStep p = some s' ∧ Inv s' stage' := by
  unfold producerStep
  cases hat : s.producer p with
  | idle => exact ⟨s, stage, rfl, h⟩
  | notify place =>
    refine h.notify (t := .inr p) hn ?_
    unfold notifying
    dsimp only
    rw [hat]
    rfl

theorem Inv.step (h : Inv s stage) (hn : n < 1000) (event : Event n π) :
    ∃ s' stage', s.step event = some s' ∧ Inv s' stage' := by
  cases event with
  | worker w pick => exact h.worker hn w pick
  | publish p => exact ⟨s.publish p, stage, rfl, h.publish p⟩
  | producer p => exact h.producer hn p

end Steps

/-! ### Whole runs -/

theorem inv_start : Inv (start n π) fun _ => .free where
  fits := fun _ => rfl
  flag := fun _ => iff_of_false Bool.false_ne_true nofun
  listed := fun _ => iff_of_false List.not_mem_nil nofun
  nodup := List.nodup_nil
  state := by
    rw [Lib.tally_eq_zero fun _ => rfl, Lib.tally_eq_zero fun _ => rfl]
    rfl
  mutex := fun t => iff_of_false nofun (by cases t <;> exact Bool.false_ne_true)
  taken := fun _ => iff_of_false nofun (by rintro ⟨t | t, ht⟩ <;> cases ht)
  waking := fun _ => iff_of_false nofun (by rintro ⟨t | t, ht⟩ <;> cases ht)
  ready := fun _ hqueue => absurd rfl hqueue

/-- While nobody holds the mutex the list is as long as the word says. -/
theorem Inv.parkedCount_of_free (h : Inv s stage) (hn : n < 1000) (hfree : s.sleepersMutex = none) :
    parkedCount s.state = s.sleepers.length := by
  have hnobody : ∀ t, s.holds t = false := by
    intro t
    rw [Bool.eq_false_iff]
    intro ht
    have howner := (h.mutex t).mpr ht
    rw [hfree] at howner
    cases howner
  rw [h.parkedCount_eq hn, h.parked_eq_length]
  refine fun v => ⟨fun hv => ?_, fun hv => ?_⟩
  · obtain ⟨t, ht⟩ := (h.taken v).mp hv
    have hheld := hnobody t
    rw [holds_of_notifying ht] at hheld
    cases hheld
  · have hplace := (hv ▸ h.fits v : Fits (s.worker v) (s.slotState v) .moving).moving
    have hheld := hnobody (.inl v)
    rw [show s.holds (.inl v) = (s.worker v).holds from rfl, hplace.1] at hheld
    cases hheld

theorem Inv.not_lost (h : Inv s stage) (hpos : 0 < n) : ¬Lost s := by
  rintro ⟨hqueue, hidle, hparked⟩
  rcases h.ready hpos hqueue with ⟨w, hw⟩ | ⟨p, hp⟩
  · obtain ⟨hat, hflag⟩ := hparked w
    have hfits := h.fits w
    rw [hat] at hw hfits
    have hnone : ∀ a, ∀ t, s.notifying t ≠ some a := by
      rintro a (v | p) ht
      · unfold notifying at ht
        dsimp only at ht
        rw [(hparked v).1] at ht
        cases ht
      · unfold notifying at ht
        dsimp only at ht
        rw [hidle p] at ht
        cases ht
    have hdozes := hfits.2
    cases hst : stage w with
    | listed =>
      rw [hst] at hw
      cases hw
    | taken =>
      rw [hst] at hw
      cases hw
    | moving =>
      rw [hst] at hw
      cases hw
    | waking =>
      obtain ⟨t, ht⟩ := (h.waking w).mp hst
      exact hnone _ t ht
    | woken =>
      rw [(h.flag w).mpr hst] at hflag
      cases hflag
    | free =>
      rw [hst] at hdozes
      cases hdozes
    | searching =>
      rw [hst] at hdozes
      cases hdozes
  · exact hp (hidle p)

/-- With fewer than 1000 workers no check fails, the word counts the sleepers while the mutex is free, and
nobody is left parked beside an item. -/
theorem parks_safely [DecidableEq π] (hn : n < 1000) (events : List (Event n π)) :
    ∃ s answers, (machine n π).run (start n π) events = some (s, answers) ∧
      (s.sleepersMutex = none → parkedCount s.state = s.sleepers.length) ∧ (0 < n → ¬Lost s) := by
  obtain ⟨s, answers, hrun, ⟨stage, h⟩, -⟩ := (machine n π).run_total (P := fun s => ∃ stage, Inv s stage)
    (Q := fun _ => True) (fun t event ht => by
      obtain ⟨stage, h⟩ := ht
      obtain ⟨t', stage', hstep, h'⟩ := h.step hn event
      refine ⟨t', (), ?_, ⟨stage', h'⟩, trivial⟩
      show (t.step event).map _ = _
      rw [hstep]
      rfl) events (start n π) ⟨_, inv_start⟩
  exact ⟨s, answers, hrun, h.parkedCount_of_free hn, h.not_lost⟩

/-- An item is published while one of two workers waits for the other. -/
theorem parks_safely_two : ∃ s answers, (machine 2 Unit).run (start 2 Unit)
    [.worker 0 0, .worker 0 0, .worker 0 0, .publish (), .producer (), .worker 1 0] = some (s, answers) ∧
      (s.sleepersMutex = none → parkedCount s.state = s.sleepers.length) ∧ (0 < 2 → ¬Lost s) :=
  parks_safely (by decide) _

end TdUtils.MpmcSleepyWaiter
