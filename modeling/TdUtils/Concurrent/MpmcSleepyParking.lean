import TdUtils.Lib.Tally
import TdUtils.Concurrent.MpmcSleepyWaiter

/-!
# Concurrent.MpmcSleepyParking — how far each worker is on its way to sleep and back

The word counts the workers that are parked and those that search.  Each worker is given a stage: in the list
of sleepers, on its way into it or out of it, taken from it by a notification, or awake.  The stages of all
workers and the places of all threads determine the word, the list, the flags and the owner of the mutex.
-/

namespace TdUtils.MpmcSleepyWaiter

open Lib (tally)

/-- A worker that works, one that is counted as searching, one between the word and the list, one in the
list; `taken` is out of the list and still counted as parked, `waking` has no flag yet, `woken` has it. -/
inductive Stage where
  | free
  | searching
  | moving
  | listed
  | taken
  | waking
  | woken
deriving DecidableEq

namespace Stage

def parked : Stage → Bool
  | moving | listed | taken => true
  | _ => false

def counted : Stage → Bool
  | searching | waking | woken => true
  | _ => false

def dozes : Stage → Bool
  | listed | taken | waking | woken => true
  | _ => false

/-- The others can still move it. -/
def asleep : Stage → Bool
  | listed | taken | waking => true
  | _ => false

end Stage

variable {n : ℕ} {π : Type} {s : MpmcSleepyWaiter n π} {stage : Fin n → Stage}

/-- The stage of a worker between its calls. -/
def ByState : SlotState → Stage → Prop
  | .work, st => st = .free
  | .search, st => st = .searching
  | .sleep, st => st.dozes = true

def Fits : WorkerAt n → SlotState → Stage → Prop
  | .search, slot, st | .wait, slot, st | .stopWait, slot, st => ByState slot st
  | .fetchAdd, slot, st => slot = .sleep ∧ st = .searching
  | .push _, slot, st => slot = .sleep ∧ st = .moving
  | .park, slot, st => slot = .sleep ∧ st.dozes = true
  | .find, _, st => st.dozes = true
  | .fetchSub, _, st => st = .moving
  | .cancelPark, _, st => st = .woken
  | .stop, _, st => st = .searching
  | .notify _, _, st => st = .free
  | .working, slot, st => slot = .work ∧ st = .free

/-- A worker that is not going to stay in the list without looking at the queue once more. -/
def Ready (place : WorkerAt n) (st : Stage) : Bool :=
  !st.parked ||
    match place with
    | .search | .push true | .stopWait | .find | .fetchSub => true
    | _ => false

def NotifyAt.holds : NotifyAt n → Bool
  | .load | .lock => false
  | .check | .fetchSub _ | .unpark _ => true

def WorkerAt.holds : WorkerAt n → Bool
  | .fetchAdd | .push _ | .find | .fetchSub => true
  | .notify place => place.holds
  | _ => false

def WorkerAt.notifying : WorkerAt n → Option (NotifyAt n)
  | .notify place => some place
  | _ => none

def ProducerAt.notifying : ProducerAt n → Option (NotifyAt n)
  | .notify place => some place
  | .idle => none

/-- Whether a thread is in a critical section of `sleepers_mutex_`. -/
def holds (s : MpmcSleepyWaiter n π) : Fin n ⊕ π → Bool
  | .inl w => (s.worker w).holds
  | .inr p => (s.producer p).notifying.any NotifyAt.holds

def notifying (s : MpmcSleepyWaiter n π) : Fin n ⊕ π → Option (NotifyAt n)
  | .inl w => (s.worker w).notifying
  | .inr p => (s.producer p).notifying

structure Inv (s : MpmcSleepyWaiter n π) (stage : Fin n → Stage) : Prop where
  fits : ∀ w, Fits (s.worker w) (s.slotState w) (stage w)
  flag : ∀ w, s.unparkFlag w = true ↔ stage w = .woken
  listed : ∀ w, w ∈ s.sleepers ↔ stage w = .listed
  nodup : s.sleepers.Nodup
  state : s.state = 2 ^ 16 * tally Stage.parked stage + tally Stage.counted stage
  mutex : ∀ t, s.sleepersMutex = some t ↔ s.holds t = true
  taken : ∀ v, stage v = .taken ↔ ∃ t, s.notifying t = some (.fetchSub v)
  waking : ∀ v, stage v = .waking ↔ ∃ t, s.notifying t = some (.unpark v)
  ready : 0 < n → s.queue ≠ [] → (∃ w, Ready (s.worker w) (stage w) = true) ∨ ∃ p, s.producer p ≠ .idle

/-! ### The word -/

theorem fetchAdd_eq {state add : ℤ} (hpos : 0 ≤ state + add) (hlt : state + add < 2 ^ 31) :
    fetchAdd state add = state + add :=
  Int.bmod_eq_of_le (by omega) (by omega)

theorem fetchSub_eq {state sub : ℤ} (hpos : 0 ≤ state - sub) (hlt : state - sub < 2 ^ 31) :
    fetchSub state sub = state - sub :=
  Int.bmod_eq_of_le (by omega) (by omega)

theorem tally_lt (hn : n < 1000) (stage : Fin n → Stage) (P : Stage → Bool) : tally P stage < 1000 := by
  have hle : tally P stage ≤ Fintype.card (Fin n) := Lib.tally_le_card
  rw [Fintype.card_fin] at hle
  omega

theorem Inv.parkedCount_eq (h : Inv s stage) (hn : n < 1000) :
    parkedCount s.state = tally Stage.parked stage := by
  have hcounted := tally_lt hn stage Stage.counted
  unfold parkedCount
  rw [h.state, Int.shiftRight_eq_div_pow]
  omega

theorem Inv.searchingCount_eq (h : Inv s stage) (hn : n < 1000) :
    searchingCount s.state = tally Stage.counted stage := by
  have hcounted := tally_lt hn stage Stage.counted
  unfold searchingCount
  rw [h.state]
  omega

theorem Inv.counted_pos (h : Inv s stage) (hn : n < 1000) {w : Fin n} (hw : (stage w).counted = true) :
    searchingCount s.state ≠ 0 := by
  have hpos := Lib.tally_pos (P := Stage.counted) (f := stage) hw
  rw [h.searchingCount_eq hn]
  omega

/-! ### Moving one worker -/

theorem ready_of_awake {place : WorkerAt n} {st : Stage} (h : st.parked = false) : Ready place st = true := by
  unfold Ready
  rw [h]
  rfl

/-- Being dealt with by others does not change what a worker can do. -/
theorem Fits.asleep {place : WorkerAt n} {slot : SlotState} {st st' : Stage} (h : Fits place slot st)
    (hst : st.asleep = true) (hst' : st'.dozes = true) : Fits place slot st' := by
  have hby : ∀ slot, ByState slot st → ByState slot st' := by
    intro slot hs
    cases slot with
    | work =>
      rw [show st = .free from hs] at hst
      cases hst
    | search =>
      rw [show st = .searching from hs] at hst
      cases hst
    | sleep => exact hst'
  cases place with
  | search => exact hby slot h
  | wait => exact hby slot h
  | stopWait => exact hby slot h
  | park => exact ⟨h.1, hst'⟩
  | find => exact hst'
  | fetchAdd =>
    rw [h.2] at hst
    cases hst
  | push once =>
    rw [h.2] at hst
    cases hst
  | fetchSub =>
    rw [show st = .moving from h] at hst
    cases hst
  | cancelPark =>
    rw [show st = .woken from h] at hst
    cases hst
  | stop =>
    rw [show st = .searching from h] at hst
    cases hst
  | notify place =>
    rw [show st = .free from h] at hst
    cases hst
  | working =>
    rw [h.2] at hst
    cases hst

/-- No worker is inside `notify` past its second load. -/
def Plain (place : WorkerAt n) : Prop :=
  ∀ v, place.notifying ≠ some (.fetchSub v) ∧ place.notifying ≠ some (.unpark v)

/-- A worker goes to a place: what has to be known of it and of the word, the mutex and the list. -/
theorem Inv.moved (h : Inv s stage) {w : Fin n} {place : WorkerAt n} {stage' : Fin n → Stage}
    {slots : Fin n → SlotState} {flags : Fin n → Bool} {state : ℤ} {mutex : Option (Fin n ⊕ π)}
    {sleepers : List (Fin n)} {queue : List ℕ} (hstage : ∀ v, v ≠ w → stage' v = stage v)
    (hslots : ∀ v, v ≠ w → slots v = s.slotState v) (hflags : ∀ v, v ≠ w → flags v = s.unparkFlag v)
    (hfits : Fits place (slots w) (stage' w)) (hflag : flags w = true ↔ stage' w = .woken)
    (hlisted : ∀ v, v ∈ sleepers ↔ stage' v = .listed) (hnodup : sleepers.Nodup)
    (hstate : state = 2 ^ 16 * tally Stage.parked stage' + tally Stage.counted stage')
    (hmutex : ∀ t, t ≠ .inl w → (mutex = some t ↔ s.sleepersMutex = some t))
    (hholds : mutex = some (.inl w) ↔ place.holds = true) (hold : Plain (s.worker w)) (hnew : Plain place)
    (htaken : stage' w = .taken ↔ stage w = .taken) (hwaking : stage' w = .waking ↔ stage w = .waking)
    (hready : queue ≠ [] → s.queue ≠ [] ∧ (Ready place (stage' w) = true ∨
      Ready (s.worker w) (stage w) = false ∨ ∃ v, v ≠ w ∧ Ready (s.worker v) (stage v) = true)) :
    Inv { s with
      state := state
      sleepersMutex := mutex
      sleepers := sleepers
      slotState := slots
      unparkFlag := flags
      queue := queue
      worker := Function.update s.worker w place } stage' := by
  have hworker : ∀ v, v ≠ w → Function.update s.worker w place v = s.worker v :=
    fun v hv => Function.update_of_ne hv _ _
  have hself : Function.update s.worker w place w = place := Function.update_self ..
  have hnotifying : ∀ a : NotifyAt n, (s.worker w).notifying ≠ some a → place.notifying ≠ some a →
      ((∃ t, s.notifying t = some a) ↔ ∃ t, notifying { s with
        state := state
        sleepersMutex := mutex
        sleepers := sleepers
        slotState := slots
        unparkFlag := flags
        queue := queue
        worker := Function.update s.worker w place } t = some a) := by
    intro a ha ha'
    constructor
    · rintro ⟨t | p, ht⟩
      · have htw : t ≠ w := by
          rintro rfl
          exact ha ht
        refine ⟨.inl t, ?_⟩
        rw [← ht]
        exact congrArg WorkerAt.notifying (hworker t htw)
      · exact ⟨.inr p, ht⟩
    · rintro ⟨t | p, ht⟩
      · have htw : t ≠ w := by
          rintro rfl
          exact ha' (hself ▸ ht)
        refine ⟨.inl t, ?_⟩
        rw [← ht]
        exact (congrArg WorkerAt.notifying (hworker t htw)).symm
      · exact ⟨.inr p, ht⟩
  refine ⟨?_, ?_, hlisted, hnodup, hstate, ?_, ?_, ?_, ?_⟩
  · intro v
    dsimp only
    by_cases hv : v = w
    · subst hv
      rwa [hself]
    · rw [hworker v hv, hslots v hv, hstage v hv]
      exact h.fits v
  · intro v
    dsimp only
    by_cases hv : v = w
    · subst hv
      exact hflag
    · rw [hflags v hv, hstage v hv]
      exact h.flag v
  · rintro (t | p)
    · by_cases ht : t = w
      · subst ht
        rw [hholds]
        unfold MpmcSleepyWaiter.holds
        dsimp only
        rw [hself]
      · have hne : (Sum.inl t : Fin n ⊕ π) ≠ .inl w := fun heq => ht (Sum.inl.inj heq)
        rw [hmutex _ hne, h.mutex]
        unfold MpmcSleepyWaiter.holds
        dsimp only
        rw [hworker t ht]
    · rw [hmutex _ (by simp), h.mutex]
      rfl
  · intro v
    rw [← hnotifying _ (hold v).1 (hnew v).1, ← h.taken]
    by_cases hv : v = w
    · subst hv
      exact htaken
    · rw [hstage v hv]
  · intro v
    rw [← hnotifying _ (hold v).2 (hnew v).2, ← h.waking]
    by_cases hv : v = w
    · subst hv
      exact hwaking
    · rw [hstage v hv]
  · intro hn hqueue
    dsimp only at hqueue ⊢
    obtain ⟨hold, hcases⟩ := hready hqueue
    rcases hcases with hplace | hnot | ⟨v, hvw, hv⟩
    · refine Or.inl ⟨w, ?_⟩
      rwa [hself]
    · rcases h.ready hn hold with ⟨v, hv⟩ | hp
      · have hvw : v ≠ w := by
          rintro rfl
          rw [hnot] at hv
          cases hv
        refine Or.inl ⟨v, ?_⟩
        rwa [hworker v hvw, hstage v hvw]
      · exact Or.inr hp
    · refine Or.inl ⟨v, ?_⟩
      rwa [hworker v hvw, hstage v hvw]

/-! ### Moving one thread inside `notify` -/

theorem Inv.others (h : Inv s stage) {t : Fin n ⊕ π} (ht : s.holds t = true) {u : Fin n ⊕ π} (hu : u ≠ t) :
    s.holds u = false := by
  rw [Bool.eq_false_iff]
  intro hheld
  have howner := (h.mutex u).mpr hheld
  rw [(h.mutex t).mpr ht] at howner
  exact hu (Option.some.inj howner).symm

theorem holds_of_notifying {t : Fin n ⊕ π} {place : NotifyAt n} (h : s.notifying t = some place) :
    s.holds t = place.holds := by
  rcases t with w | p
  · unfold notifying at h
    unfold MpmcSleepyWaiter.holds
    dsimp only at h ⊢
    cases hw : s.worker w <;> rw [hw] at h <;> cases h
    rfl
  · unfold notifying at h
    unfold MpmcSleepyWaiter.holds
    dsimp only at h ⊢
    rw [h]
    rfl

theorem Inv.notifying_free (h : Inv s stage) {w : Fin n} {place : NotifyAt n}
    (hat : s.notifying (.inl w) = some place) : stage w = .free := by
  have hfits := h.fits w
  unfold notifying at hat
  dsimp only at hat
  cases hw : s.worker w <;> rw [hw] at hat hfits <;> cases hat
  exact hfits

/-- The thread that holds the mutex is the only one at a place of its critical section. -/
theorem Inv.sole (h : Inv s stage) {t u : Fin n ⊕ π} {a b : NotifyAt n} (hat : s.notifying t = some a)
    (ha : a.holds = true) (hbt : s.notifying u = some b) (hb : b.holds = true) : u = t := by
  by_contra hne
  have hfalse := h.others ((holds_of_notifying hat).trans ha) hne
  rw [holds_of_notifying hbt, hb] at hfalse
  cases hfalse

variable [DecidableEq π]

theorem resumes_notifying (t : Fin n ⊕ π) (next : Option (NotifyAt n)) :
    (s.resumes t next).notifying t = next := by
  rcases t with w | p
  · cases next with
    | none =>
      show ((Function.update s.worker w .working) w).notifying = none
      rw [Function.update_self]
      rfl
    | some place =>
      show ((Function.update s.worker w (.notify place)) w).notifying = some place
      rw [Function.update_self]
      rfl
  · cases next with
    | none =>
      show ((Function.update s.producer p .idle) p).notifying = none
      rw [Function.update_self]
      rfl
    | some place =>
      show ((Function.update s.producer p (.notify place)) p).notifying = some place
      rw [Function.update_self]
      rfl

theorem resumes_other {t u : Fin n ⊕ π} (next : Option (NotifyAt n)) (hu : u ≠ t) :
    (s.resumes t next).notifying u = s.notifying u ∧ (s.resumes t next).holds u = s.holds u := by
  rcases t with w | p <;> rcases u with v | q
  · have hv : v ≠ w := fun heq => hu (congrArg Sum.inl heq)
    cases next <;> exact ⟨congrArg WorkerAt.notifying (Function.update_of_ne hv _ _),
      congrArg WorkerAt.holds (Function.update_of_ne hv _ _)⟩
  · cases next <;> exact ⟨rfl, rfl⟩
  · cases next <;> exact ⟨rfl, rfl⟩
  · have hq : q ≠ p := fun heq => hu (congrArg Sum.inr heq)
    cases next <;> exact ⟨congrArg ProducerAt.notifying (Function.update_of_ne hq _ _),
      congrArg (fun place => (ProducerAt.notifying place).any NotifyAt.holds) (Function.update_of_ne hq _ _)⟩

theorem resumes_holds (t : Fin n ⊕ π) (next : Option (NotifyAt n)) :
    (s.resumes t next).holds t = next.any NotifyAt.holds := by
  rcases t with w | p
  · cases next with
    | none =>
      show ((Function.update s.worker w .working) w).holds = false
      rw [Function.update_self]
      rfl
    | some place =>
      show ((Function.update s.worker w (.notify place)) w).holds = place.holds
      rw [Function.update_self]
      rfl
  · have hnotifying := resumes_notifying (s := s) (.inr p) next
    unfold notifying at hnotifying
    unfold MpmcSleepyWaiter.holds
    dsimp only at hnotifying ⊢
    rw [hnotifying]

theorem resumes_fits {t : Fin n ⊕ π} {next : Option (NotifyAt n)} {w : Fin n} {st : Stage}
    (h : Fits (s.worker w) (s.slotState w) st) (hfree : t = .inl w → st = .free) :
    Fits ((s.resumes t next).worker w) ((s.resumes t next).slotState w) st := by
  rcases t with v | p
  · by_cases hv : w = v
    · subst hv
      cases next with
      | none =>
        show Fits (Function.update s.worker w .working w) (Function.update s.slotState w .work w) st
        rw [Function.update_self, Function.update_self]
        exact ⟨rfl, hfree rfl⟩
      | some place =>
        show Fits (Function.update s.worker w (.notify place) w) (s.slotState w) st
        rw [Function.update_self]
        exact hfree rfl
    · cases next with
      | none =>
        show Fits (Function.update s.worker v .working w) (Function.update s.slotState v .work w) st
        rwa [Function.update_of_ne hv, Function.update_of_ne hv]
      | some place =>
        show Fits (Function.update s.worker v (.notify place) w) (s.slotState w) st
        rwa [Function.update_of_ne hv]
  · cases next <;> exact h

/-- A thread in `notify` goes on, and moves workers that are asleep. -/
theorem Inv.notified (h : Inv s stage) {t : Fin n ⊕ π} {a : NotifyAt n} (hat : s.notifying t = some a)
    {next : Option (NotifyAt n)} {stage' : Fin n → Stage} {flags : Fin n → Bool} {state : ℤ}
    {mutex : Option (Fin n ⊕ π)} {sleepers : List (Fin n)}
    (hstage : ∀ w, stage' w = stage w ∨ (stage w).asleep = true ∧ (stage' w).dozes = true)
    (hflag : ∀ w, flags w = true ↔ stage' w = .woken) (hlisted : ∀ w, w ∈ sleepers ↔ stage' w = .listed)
    (hnodup : sleepers.Nodup)
    (hstate : state = 2 ^ 16 * tally Stage.parked stage' + tally Stage.counted stage')
    (hmutex : ∀ u, u ≠ t → (mutex = some u ↔ s.sleepersMutex = some u))
    (hholds : mutex = some t ↔ next.any NotifyAt.holds = true)
    (htaken : ∀ v, stage' v = .taken ↔
      next = some (.fetchSub v) ∨ ∃ u, u ≠ t ∧ s.notifying u = some (.fetchSub v))
    (hwaking : ∀ v, stage' v = .waking ↔ next = some (.unpark v) ∨ ∃ u, u ≠ t ∧ s.notifying u = some (.unpark v))
    (hready : next = none → 0 < n → ∃ w, (stage' w).parked = false) :
    Inv (resumes { s with
      state := state
      sleepersMutex := mutex
      sleepers := sleepers
      unparkFlag := flags } t next) stage' := by
  have hfree : ∀ w, t = .inl w → stage' w = .free := by
    rintro w rfl
    have hw := h.notifying_free hat
    rcases hstage w with heq | ⟨hasleep, -⟩
    · exact heq.trans hw
    · rw [hw] at hasleep
      cases hasleep
  generalize hbase : ({ s with
      state := state
      sleepersMutex := mutex
      sleepers := sleepers
      unparkFlag := flags } : MpmcSleepyWaiter n π) = base
  have hkept : (base.resumes t next).state = state ∧ (base.resumes t next).sleepersMutex = mutex ∧
      (base.resumes t next).sleepers = sleepers ∧ (base.resumes t next).unparkFlag = flags := by
    subst hbase
    rcases t with w | p <;> cases next <;> exact ⟨rfl, rfl, rfl, rfl⟩
  obtain ⟨hstate', hmutex', hsleepers', hflags'⟩ := hkept
  have hnotifying : ∀ b, (∃ u, (base.resumes t next).notifying u = some b) ↔
      next = some b ∨ ∃ u, u ≠ t ∧ s.notifying u = some b := by
    intro b
    constructor
    · rintro ⟨u, hu⟩
      by_cases hut : u = t
      · subst hut
        rw [resumes_notifying] at hu
        exact Or.inl hu
      · rw [(resumes_other next hut).1] at hu
        subst hbase
        exact Or.inr ⟨u, hut, by rcases u with v | q <;> exact hu⟩
    · rintro (hb | ⟨u, hut, hu⟩)
      · refine ⟨t, ?_⟩
        rw [resumes_notifying, hb]
      · refine ⟨u, ?_⟩
        rw [(resumes_other next hut).1]
        subst hbase
        rcases u with v | q <;> exact hu
  refine ⟨fun w => resumes_fits ?_ (hfree w), ?_, ?_, ?_, ?_, ?_, ?_, ?_, ?_⟩
  · subst hbase
    rcases hstage w with heq | ⟨hasleep, hdozes⟩
    · rw [heq]
      exact h.fits w
    · exact (h.fits w).asleep hasleep hdozes
  · rw [hflags']
    exact hflag
  · rw [hsleepers']
    exact hlisted
  · rw [hsleepers']
    exact hnodup
  · rw [hstate']
    exact hstate
  · intro u
    rw [hmutex']
    by_cases hut : u = t
    · subst hut
      rw [resumes_holds]
      exact hholds
    · rw [hmutex u hut, (resumes_other next hut).2, h.mutex]
      subst hbase
      rcases u with v | q <;> exact Iff.rfl
  · exact fun v => (htaken v).trans (hnotifying _).symm
  · exact fun v => (hwaking v).trans (hnotifying _).symm
  · intro hn _
    rcases t with w | p
    · refine Or.inl ⟨w, ready_of_awake ?_⟩
      rw [hfree w rfl]
      rfl
    · cases next with
      | none =>
        obtain ⟨w, hw⟩ := hready rfl hn
        exact Or.inl ⟨w, ready_of_awake hw⟩
      | some place =>
        refine Or.inr ⟨p, fun hidle => ?_⟩
        have hplace : ProducerAt.notifying ((base.resumes (.inr p) (some place)).producer p) = some place :=
          resumes_notifying (.inr p) (some place)
        rw [hidle] at hplace
        cases hplace

end TdUtils.MpmcSleepyWaiter
