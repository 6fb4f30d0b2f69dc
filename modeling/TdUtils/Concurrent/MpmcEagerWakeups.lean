import TdUtils.Concurrent.MpmcEagerWaiter

/-!
# Concurrent.MpmcEagerWakeups — no wakeup is lost

The asleep bit, and the id of a worker that has searched since it put its id there, are both signs that no
item is left whose notification is past its exchange: that exchange would have cleared them.
-/

namespace TdUtils.MpmcEagerWaiter

variable {n : ℕ} {π : Type} {s : MpmcEagerWaiter n π}

/-- Every item in the queue is about to be announced. -/
def NoneLeft (s : MpmcEagerWaiter n π) : Prop :=
  ∀ item ∈ s.queue, ∃ p, s.producer p = .notify item ∨ s.producer p = .cold item

/-- Where a worker can be while its id is in the word. -/
def Up : WorkerAt → Prop
  | .search | .wait | .sleep _ | .found | .cold => True
  | _ => False

/-- A registered worker that is here has searched since it registered. -/
def Searched (place : WorkerAt) (yields : ℕ) : Prop :=
  place = .wait ∨ (∃ state, place = .sleep state) ∨ (place = .search ∧ yields ≠ 33)

structure Inv (s : MpmcEagerWaiter n π) : Prop where
  registered : ∀ w : Fin n, s.state >>> 1 = w + 1 → 33 ≤ s.yields w ∧ Up (s.worker w)
  sleeping : ∀ w state, s.worker w = .sleep state →
    state >>> 1 = w + 1 ∧ (s.state >>> 1 = w + 1 → s.state = state)
  registering : ∀ w state, s.worker w = .register state → state >>> 1 = 0 ∧ s.yields w = 32
  quiet : s.state % 2 = 1 → NoneLeft s
  searched : ∀ w : Fin n, s.state >>> 1 = w + 1 → Searched (s.worker w) (s.yields w) → NoneLeft s
  blocked : ∀ w, s.worker w = .blocked → s.state % 2 = 1 ∨ Pending s

/-! ### The word -/

theorem hasWorker_eq_false {state : ℕ} (h : hasWorker state = false) : state >>> 1 = 0 := by
  unfold hasWorker at h
  exact not_not.mp (of_decide_eq_false h)

theorem stillSleepy_iff {state w : ℕ} (hw : w < 2 ^ 31) : stillSleepy state w = true ↔ state >>> 1 = w + 1 := by
  unfold stillSleepy
  rw [decide_eq_true_eq, Nat.mod_eq_of_lt]
  omega

/-- The id is in the word, unless it has no bit there. -/
theorem withWorker_cases {state w : ℕ} (hw : w < 2 ^ 31) (hstate : state >>> 1 = 0) :
    withWorker state w % 2 = state % 2 ∧
      (withWorker state w >>> 1 = w + 1 ∨ withWorker state w >>> 1 = 0) := by
  rw [Nat.shiftRight_eq_div_pow] at hstate
  have hlt : state < 2 ^ 1 := by omega
  have hword : withWorker state w = ((w + 1) * 2 + state) % 2 ^ 32 := by
    unfold withWorker
    rw [Nat.or_comm, ← Nat.shiftLeft_add_eq_or_of_lt hlt, Nat.shiftLeft_eq]
  rw [hword, Nat.shiftRight_eq_div_pow]
  omega

theorem awake_no_worker (w : ℕ) : awake >>> 1 ≠ w + 1 := (Nat.succ_ne_zero w).symm

theorem isAsleep_iff (state : ℕ) : isAsleep state = true ↔ state % 2 = 1 := by
  unfold isAsleep
  rw [decide_eq_true_eq, Nat.and_one_is_mod]
  omega

/-! ### Workers -/

theorem NoneLeft.of_subset {t : MpmcEagerWaiter n π} (h : NoneLeft s) (hqueue : ∀ item ∈ t.queue, item ∈ s.queue)
    (hproducer : t.producer = s.producer) : NoneLeft t := by
  intro item hitem
  rw [hproducer]
  exact h item (hqueue item hitem)

/-- A worker goes to a place: what has to be known about its own place, count and the word. -/
theorem Inv.moved (h : Inv s) (w : Fin n) (place : WorkerAt) (yields state : ℕ) (queue : List ℕ)
    (hwakeAll : s.worker w = .wakeAll → ∀ v, s.worker v ≠ .blocked)
    (hqueue : ∀ item ∈ queue, item ∈ s.queue)
    (hothers : ∀ v : Fin n, v ≠ w → state >>> 1 = v + 1 → state = s.state)
    (hregistered : state >>> 1 = w + 1 → 33 ≤ yields ∧ Up place)
    (hsleeping : ∀ st, place = .sleep st → st >>> 1 = w + 1 ∧ (state >>> 1 = w + 1 → state = st))
    (hregistering : ∀ st, place = .register st → st >>> 1 = 0 ∧ yields = 32)
    (hquiet : state % 2 = 1 → NoneLeft s)
    (hsearched : state >>> 1 = w + 1 → Searched place yields → NoneLeft s)
    (hblocked : place = .blocked → state % 2 = 1)
    (hodd : s.state % 2 = 1 → state % 2 = 1 ∨ place = .wakeAll) :
    Inv { s with
      state := state
      queue := queue
      yields := Function.update s.yields w yields
      worker := Function.update s.worker w place } := by
  have hnone : NoneLeft s → NoneLeft { s with
      state := state
      queue := queue
      yields := Function.update s.yields w yields
      worker := Function.update s.worker w place } := fun hs => hs.of_subset hqueue rfl
  have hother : ∀ v : Fin n, v ≠ w → state >>> 1 = v + 1 → s.state >>> 1 = v + 1 :=
    fun v hvw hv => hothers v hvw hv ▸ hv
  refine ⟨?_, ?_, ?_, fun hs => hnone (hquiet hs), ?_, ?_⟩
  · intro v hv
    dsimp only at hv ⊢
    by_cases hvw : v = w
    · subst hvw
      rw [Function.update_self, Function.update_self]
      exact hregistered hv
    · rw [Function.update_of_ne hvw, Function.update_of_ne hvw]
      exact h.registered v (hother v hvw hv)
  · intro v st hv
    dsimp only at hv ⊢
    by_cases hvw : v = w
    · subst hvw
      rw [Function.update_self] at hv
      exact hsleeping st hv
    · rw [Function.update_of_ne hvw] at hv
      obtain ⟨hst, hsame⟩ := h.sleeping v st hv
      exact ⟨hst, fun hs => (hothers v hvw hs).trans (hsame (hother v hvw hs))⟩
  · intro v st hv
    dsimp only at hv ⊢
    by_cases hvw : v = w
    · subst hvw
      rw [Function.update_self] at hv ⊢
      exact hregistering st hv
    · rw [Function.update_of_ne hvw] at hv ⊢
      exact h.registering v st hv
  · intro v hv hs
    dsimp only at hv hs
    by_cases hvw : v = w
    · subst hvw
      rw [Function.update_self, Function.update_self] at hs
      exact hnone (hsearched hv hs)
    · rw [Function.update_of_ne hvw, Function.update_of_ne hvw] at hs
      exact hnone (h.searched v (hother v hvw hv) hs)
  · intro v hv
    dsimp only at hv ⊢
    by_cases hvw : v = w
    · subst hvw
      rw [Function.update_self] at hv
      exact Or.inl (hblocked hv)
    · rw [Function.update_of_ne hvw] at hv
      rcases h.blocked v hv with hs | ⟨u, hu⟩ | hp
      · rcases hodd hs with hs | hplace
        · exact Or.inl hs
        · refine Or.inr (Or.inl ⟨w, ?_⟩)
          dsimp only
          rw [Function.update_self, hplace]
      · by_cases huw : u = w
        · subst huw
          exact absurd hv (hwakeAll hu v)
        · refine Or.inr (Or.inl ⟨u, ?_⟩)
          dsimp only
          rw [Function.update_of_ne huw, hu]
      · exact Or.inr (Or.inr hp)

/-- The word and the queue stay as they are. -/
theorem Inv.stays (h : Inv s) {w : Fin n} {place : WorkerAt} {yields : ℕ}
    (hwakeAll : s.worker w = .wakeAll → ∀ v, s.worker v ≠ .blocked)
    (hregistered : s.state >>> 1 = w + 1 → 33 ≤ yields ∧ Up place)
    (hsleeping : ∀ st, place = .sleep st → st >>> 1 = w + 1 ∧ (s.state >>> 1 = w + 1 → s.state = st))
    (hregistering : ∀ st, place = .register st → st >>> 1 = 0 ∧ yields = 32)
    (hsearched : s.state >>> 1 = w + 1 → Searched place yields → NoneLeft s) (hblocked : place ≠ .blocked) :
    Inv ((s.count w yields).goes w place) :=
  h.moved w place yields s.state s.queue hwakeAll (fun _ hitem => hitem) (fun _ _ _ => rfl) hregistered hsleeping hregistering h.quiet
    hsearched (fun hp => absurd hp hblocked) Or.inl

theorem goes_eq (w : Fin n) (place : WorkerAt) : s.goes w place = (s.count w (s.yields w)).goes w place := by
  unfold goes count
  rw [Function.update_eq_self]

/-- A worker that is not registered goes on. -/
theorem Inv.resets (h : Inv s) {w : Fin n} {place : WorkerAt} {yields : ℕ}
    (hwakeAll : s.worker w = .wakeAll → ∀ v, s.worker v ≠ .blocked) (hunregistered : s.state >>> 1 ≠ w + 1)
    (hplace : place = .search ∨ place = .working) : Inv ((s.count w yields).goes w place) := by
  refine h.stays hwakeAll (fun hw => absurd hw hunregistered) ?_ ?_ (fun hw => absurd hw hunregistered) ?_
  · rintro st rfl
    rcases hplace with hp | hp <;> cases hp
  · rintro st rfl
    rcases hplace with hp | hp <;> cases hp
  · rintro rfl
    rcases hplace with hp | hp <;> cases hp

/-- Only a thread in its critical section wakes the others. -/
theorem not_waking {w : Fin n} {place : WorkerAt} (hat : s.worker w = place) (hplace : place ≠ .wakeAll) :
    s.worker w = .wakeAll → ∀ v, s.worker v ≠ .blocked :=
  fun hw => absurd (hat.symm.trans hw) hplace

theorem Inv.unregistered (h : Inv s) {w : Fin n} {place : WorkerAt} (hat : s.worker w = place) (hplace : ¬Up place) :
    s.state >>> 1 ≠ w + 1 :=
  fun hw => hplace (hat ▸ (h.registered w hw).2)

theorem Inv.few (h : Inv s) {w : Fin n} (hfew : s.yields w ≤ roundsTillSleepy) : s.state >>> 1 ≠ w + 1 := by
  intro hw
  have hyields := (h.registered w hw).1
  unfold roundsTillSleepy at hfew
  omega

/-! ### The rounds of a worker -/

theorem Inv.search (h : Inv s) {w : Fin n} (pick : ℕ) (hat : s.worker w = .search) : Inv (s.workerStep w pick) := by
  unfold workerStep
  simp only [hat]
  split_ifs with hempty
  · rw [goes_eq]
    refine h.stays (not_waking hat (by simp)) (fun hw => ⟨(h.registered w hw).1, trivial⟩) (fun _ hp => by cases hp)
      (fun _ hp => by cases hp) (fun _ _ => ?_) (fun hp => by cases hp)
    intro item hitem
    rw [hempty] at hitem
    cases hitem
  · have hfound := h.moved w .found (s.yields w) s.state (s.queue.eraseIdx (pick % s.queue.length)) (not_waking hat (by simp))
      (fun item hitem => List.mem_of_mem_eraseIdx hitem) (fun _ _ _ => rfl)
      (fun hw => ⟨(h.registered w hw).1, trivial⟩) (fun _ hp => by cases hp) (fun _ hp => by cases hp) h.quiet
      (fun _ hs => ?_) (fun hp => by cases hp) Or.inl
    · rwa [Function.update_eq_self] at hfound
    · rcases hs with hs | ⟨st, hs⟩ | ⟨hs, -⟩ <;> cases hs

/-- One more round of a worker that is not registered, or has searched. -/
theorem Inv.counts (h : Inv s) {w : Fin n} (hat : s.worker w = .wait) :
    Inv ((s.count w (s.yields w + 1)).goes w .search) := by
  refine h.stays (not_waking hat (by simp)) (fun hw => ?_) (fun _ hp => by cases hp) (fun _ hp => by cases hp)
    (fun hw _ => h.searched w hw (Or.inl hat)) (fun hp => by cases hp)
  exact ⟨Nat.le_succ_of_le (h.registered w hw).1, trivial⟩

theorem Inv.wait (h : Inv s) (hn : n ≤ 2 ^ 31) {w : Fin n} (hat : s.worker w = .wait) : Inv (s.wait w) := by
  have hnot := not_waking hat (by simp)
  have hsleepy : ∀ {state}, stillSleepy state w = true ↔ state >>> 1 = w + 1 :=
    stillSleepy_iff (lt_of_lt_of_le w.isLt hn)
  unfold MpmcEagerWaiter.wait
  split_ifs with hfew heq hfree hmore hstill hstill
  · exact h.counts hat
  · have hzero := hasWorker_eq_false (by simpa using hfree)
    rw [goes_eq]
    refine h.stays hnot (fun hw => absurd hw (h.few heq.le)) (fun _ hp => by cases hp) ?_
      (fun hw => absurd hw (h.few heq.le)) (fun hp => by cases hp)
    intro st hp
    obtain rfl := WorkerAt.register.inj hp
    exact ⟨hzero, heq⟩
  · exact h.resets hnot (h.few heq.le) (Or.inl rfl)
  · exact h.counts hat
  · exact h.resets hnot (fun hw => hstill (hsleepy.mpr hw)) (Or.inl rfl)
  · have hw := hsleepy.mp hstill
    rw [goes_eq]
    refine h.stays hnot (fun hs => ⟨(h.registered w hs).1, trivial⟩) ?_ (fun _ hp => by cases hp)
      (fun hs _ => h.searched w hs (Or.inl hat)) (fun hp => by cases hp)
    intro st hp
    obtain rfl := WorkerAt.sleep.inj hp
    exact ⟨hw, fun _ => rfl⟩
  · exact h.resets hnot (fun hw => hstill (hsleepy.mpr hw)) (Or.inl rfl)

theorem Inv.register (h : Inv s) (hn : n ≤ 2 ^ 31) {w : Fin n} {state : ℕ} (pick : ℕ)
    (hat : s.worker w = .register state) : Inv (s.workerStep w pick) := by
  obtain ⟨hzero, hyields⟩ := h.registering w state hat
  have hnot := not_waking hat (by simp)
  unfold workerStep
  simp only [hat]
  split_ifs with hcas
  · obtain ⟨hmod, hid⟩ := withWorker_cases (lt_of_lt_of_le w.isLt hn) hzero
    have hplace : ¬Searched .search (s.yields w + 1) := by
      rintro (hs | ⟨st, hs⟩ | ⟨-, hs⟩)
      · cases hs
      · cases hs
      · omega
    refine h.moved w .search (s.yields w + 1) (withWorker state w) s.queue hnot (fun _ hitem => hitem) ?_ (fun _ => ⟨by omega, trivial⟩)
      (fun _ hp => by cases hp) (fun _ hp => by cases hp) ?_ (fun _ hs => absurd hs hplace) (fun hp => by cases hp) ?_
    · intro v hvw hv
      have hne : (v : ℕ) ≠ w := fun heq => hvw (Fin.ext heq)
      omega
    · intro hs
      exact h.quiet (by omega)
    · exact fun hs => Or.inl (by omega)
  · exact h.resets hnot (h.few hyields.le) (Or.inl rfl)

theorem Inv.sleep (h : Inv s) {w : Fin n} {state : ℕ} (pick : ℕ) (hat : s.worker w = .sleep state) :
    Inv (s.workerStep w pick) := by
  obtain ⟨hid, hsame⟩ := h.sleeping w state hat
  have hnot := not_waking hat (by simp)
  unfold workerStep
  simp only [hat]
  split_ifs with hcas
  · have hnone : NoneLeft s := h.searched w (hcas ▸ hid) (Or.inr (Or.inl ⟨state, hat⟩))
    have hblocked := h.moved w .blocked (s.yields w) asleep s.queue hnot (fun _ hitem => hitem) (fun _ _ hv => by cases hv) (fun hv => by cases hv)
      (fun _ hp => by cases hp) (fun _ hp => by cases hp) (fun _ => hnone) (fun _ _ => hnone) (fun _ => rfl)
      (fun _ => Or.inl rfl)
    rwa [Function.update_eq_self] at hblocked
  · exact h.resets hnot (fun hw => hcas (hsame hw)) (Or.inl rfl)

/-! ### A worker that has found an item -/

theorem Inv.found (h : Inv s) {w : Fin n} (pick : ℕ) (hat : s.worker w = .found) : Inv (s.workerStep w pick) := by
  have hnot := not_waking hat (by simp)
  unfold workerStep
  simp only [hat]
  split_ifs with hmany
  · rw [goes_eq]
    refine h.stays hnot (fun hw => ⟨(h.registered w hw).1, trivial⟩) (fun _ hp => by cases hp)
      (fun _ hp => by cases hp) (fun _ hs => ?_) (fun hp => by cases hp)
    rcases hs with hs | ⟨st, hs⟩ | ⟨hs, -⟩ <;> cases hs
  · exact h.resets hnot (h.few (not_lt.mp hmany)) (Or.inr rfl)

/-- The exchange clears the word. -/
theorem Inv.cold (h : Inv s) {w : Fin n} (pick : ℕ) (hat : s.worker w = .cold) : Inv (s.workerStep w pick) := by
  have hnot := not_waking hat (by simp)
  unfold workerStep
  simp only [hat]
  split_ifs with hodd
  · have hwakeAll := h.moved w .wakeAll (s.yields w) awake s.queue hnot (fun _ hitem => hitem) (fun _ _ hv => by cases hv) (fun hv => by cases hv)
      (fun _ hp => by cases hp) (fun _ hp => by cases hp) (fun hv => by cases hv) (fun hv => by cases hv)
      (fun hp => by cases hp) (fun _ => Or.inr rfl)
    rwa [Function.update_eq_self] at hwakeAll
  · exact h.moved w .working 0 awake s.queue hnot
      (fun _ hitem => hitem) (fun _ _ hv => by cases hv) (fun hv => by cases hv) (fun _ hp => by cases hp)
      (fun _ hp => by cases hp) (fun hv => by cases hv) (fun hv => by cases hv) (fun hp => by cases hp)
      (fun hs => absurd ((isAsleep_iff _).mpr hs) hodd)

theorem notifyAll_blocked (v : Fin n) : s.notifyAll.worker v ≠ .blocked := by
  unfold notifyAll
  dsimp only
  split_ifs with hv
  · simp
  · exact hv

theorem notifyAll_worker {v : Fin n} (hv : s.worker v ≠ .blocked) :
    s.notifyAll.worker v = s.worker v ∧ s.notifyAll.yields v = s.yields v := by
  unfold notifyAll
  dsimp only
  rw [if_neg hv, if_neg hv]
  exact ⟨rfl, rfl⟩

theorem notifyAll_eq {v : Fin n} {place : WorkerAt} (hv : s.notifyAll.worker v = place) (hplace : place ≠ .search) :
    s.worker v = place ∧ s.notifyAll.yields v = s.yields v := by
  by_cases hb : s.worker v = .blocked
  · unfold notifyAll at hv
    dsimp only at hv
    rw [if_pos hb] at hv
    exact absurd hv.symm hplace
  · obtain ⟨hworker, hyields⟩ := notifyAll_worker hb
    exact ⟨hworker ▸ hv, hyields⟩

theorem Inv.notifyAll (h : Inv s) : Inv s.notifyAll := by
  have hup : ∀ v : Fin n, s.state >>> 1 = v + 1 → s.worker v ≠ .blocked := by
    intro v hv hb
    have hplace := (h.registered v hv).2
    rw [hb] at hplace
    exact hplace
  refine ⟨?_, ?_, ?_, h.quiet, ?_, fun v hv => absurd hv (notifyAll_blocked v)⟩
  · intro v hv
    obtain ⟨hworker, hyields⟩ := notifyAll_worker (hup v hv)
    rw [hworker, hyields]
    exact h.registered v hv
  · intro v st hv
    exact h.sleeping v st (notifyAll_eq hv (by simp)).1
  · intro v st hv
    obtain ⟨hworker, hyields⟩ := notifyAll_eq hv (by simp)
    rw [hyields]
    exact h.registering v st hworker
  · intro v hv hs
    obtain ⟨hworker, hyields⟩ := notifyAll_worker (hup v hv)
    rw [hworker, hyields] at hs
    exact h.searched v hv hs

theorem Inv.wakeAll (h : Inv s) {w : Fin n} (pick : ℕ) (hat : s.worker w = .wakeAll) : Inv (s.workerStep w pick) := by
  unfold workerStep
  simp only [hat]
  exact h.notifyAll.resets (fun _ => notifyAll_blocked) (h.unregistered hat id) (Or.inr rfl)

theorem Inv.worker (h : Inv s) (hn : n ≤ 2 ^ 31) (w : Fin n) (pick : ℕ) : Inv (s.workerStep w pick) := by
  cases hat : s.worker w with
  | search => exact h.search pick hat
  | wait =>
    unfold workerStep
    simp only [hat]
    exact h.wait hn hat
  | register state => exact h.register hn pick hat
  | sleep state => exact h.sleep pick hat
  | blocked =>
    unfold workerStep
    simp only [hat]
    exact h
  | found => exact h.found pick hat
  | cold => exact h.cold pick hat
  | wakeAll => exact h.wakeAll pick hat
  | working =>
    unfold workerStep
    simp only [hat]
    rw [goes_eq]
    exact h.resets (not_waking hat (by simp)) (h.unregistered hat id) (Or.inl rfl)

theorem Inv.wake (h : Inv s) (w : Fin n) : Inv (s.wake w) := by
  unfold MpmcEagerWaiter.wake
  split_ifs with hat
  · exact h.resets (not_waking hat (by simp)) (h.unregistered hat id) (Or.inl rfl)
  · exact h

/-! ### Producers -/

variable [DecidableEq π]

/-- A producer goes to a place; the word stays, or becomes awake. -/
theorem Inv.led (h : Inv s) (p : π) (place : ProducerAt) (state published : ℕ) (queue : List ℕ)
    (hwakeAll : (∃ item, s.producer p = .wakeAll item) → ∀ v, s.worker v ≠ .blocked)
    (hstate : state = awake ∨ state = s.state ∧ (NoneLeft s → NoneLeft { s with
      queue := queue
      producer := Function.update s.producer p place }))
    (hodd : s.state % 2 = 1 → state % 2 = 1 ∨ ∃ item, place = .wakeAll item) :
    Inv { s with
      state := state
      queue := queue
      published := published
      producer := Function.update s.producer p place } := by
  have hblocked : ∀ w, s.worker w = .blocked → state % 2 = 1 ∨ Pending { s with
      state := state
      queue := queue
      published := published
      producer := Function.update s.producer p place } := by
    intro w hw
    rcases h.blocked w hw with hs | hu | ⟨q, item, hq⟩
    · rcases hodd hs with hs | ⟨item, hplace⟩
      · exact Or.inl hs
      · refine Or.inr (Or.inr ⟨p, item, ?_⟩)
        dsimp only
        rw [Function.update_self, hplace]
    · exact Or.inr (Or.inl hu)
    · by_cases hqp : q = p
      · subst hqp
        exact absurd hw (hwakeAll ⟨item, hq⟩ w)
      · refine Or.inr (Or.inr ⟨q, item, ?_⟩)
        dsimp only
        rw [Function.update_of_ne hqp, hq]
  rcases hstate with rfl | ⟨rfl, hnone⟩
  · refine Inv.mk (fun v hv => absurd hv (awake_no_worker v)) ?_ h.registering (fun hv => by cases hv)
      (fun v hv => absurd hv (awake_no_worker v)) hblocked
    exact fun v st hv => ⟨(h.sleeping v st hv).1, fun hs => absurd hs (awake_no_worker v)⟩
  · exact ⟨h.registered, h.sleeping, h.registering, fun hs => hnone (h.quiet hs),
      fun v hv hs => hnone (h.searched v hv hs), hblocked⟩

theorem Inv.publish (h : Inv s) (p : π) : Inv (s.publish p) := by
  unfold MpmcEagerWaiter.publish
  split_ifs with hidle
  · refine h.led p (.notify s.published) s.state (s.published + 1) (s.queue ++ [s.published]) (fun ⟨item, hp⟩ => ?_) (Or.inr ⟨rfl, fun hnone => ?_⟩) Or.inl
    · rw [hidle] at hp
      cases hp
    · intro item hitem
      rcases List.mem_append.mp hitem with hitem | hitem
      · obtain ⟨q, hq⟩ := hnone item hitem
        have hqp : q ≠ p := by
          rintro rfl
          rw [hidle] at hq
          rcases hq with hq | hq <;> cases hq
        refine ⟨q, ?_⟩
        dsimp only
        rwa [Function.update_of_ne hqp]
      · obtain rfl := List.mem_singleton.mp hitem
        exact ⟨p, Or.inl (Function.update_self ..)⟩
  · exact h

/-- What the others announce stays announced. -/
theorem NoneLeft.led (h : NoneLeft s) {p : π} {place : ProducerAt}
    (hplace : ∀ item, s.producer p = .notify item ∨ s.producer p = .cold item → place = .cold item) :
    NoneLeft { s with producer := Function.update s.producer p place } := by
  intro item hitem
  obtain ⟨q, hq⟩ := h item hitem
  refine ⟨q, ?_⟩
  dsimp only
  by_cases hqp : q = p
  · subst hqp
    rw [Function.update_self]
    exact Or.inr (hplace item hq)
  · rwa [Function.update_of_ne hqp]

theorem Inv.producer (h : Inv s) (p : π) : Inv (s.producerStep p) := by
  unfold producerStep
  cases hat : s.producer p with
  | idle => exact h
  | notify item =>
    have hnot : (∃ it, s.producer p = .wakeAll it) → ∀ v, s.worker v ≠ .blocked := by
      rintro ⟨it, hp⟩
      rw [hat] at hp
      cases hp
    dsimp only
    split_ifs with hawake
    · exact h.led p .idle s.state s.published s.queue hnot (Or.inl hawake) Or.inl
    · refine h.led p (.cold item) s.state s.published s.queue hnot (Or.inr ⟨rfl, fun hnone => hnone.led fun it hp => ?_⟩) Or.inl
      rw [hat] at hp
      rcases hp with hp | hp
      · cases hp
        rfl
      · cases hp
  | cold item =>
    have hnot : (∃ it, s.producer p = .wakeAll it) → ∀ v, s.worker v ≠ .blocked := by
      rintro ⟨it, hp⟩
      rw [hat] at hp
      cases hp
    dsimp only
    split_ifs with hodd
    · exact h.led p (.wakeAll item) awake s.published s.queue hnot (Or.inl rfl) fun _ => Or.inr ⟨item, rfl⟩
    · exact h.led p .idle awake s.published s.queue hnot (Or.inl rfl) fun hs => absurd ((isAsleep_iff _).mpr hs) hodd
  | wakeAll item =>
    refine h.notifyAll.led p .idle s.state s.published s.queue (fun _ => notifyAll_blocked) (Or.inr ⟨rfl, fun hnone => hnone.led fun it hp => ?_⟩) Or.inl
    have hp' : s.producer p = .notify it ∨ s.producer p = .cold it := hp
    rw [hat] at hp'
    rcases hp' with hp' | hp' <;> cases hp'

theorem Inv.step (h : Inv s) (hn : n ≤ 2 ^ 31) (event : Event n π) : Inv (s.step event) := by
  cases event with
  | worker w pick => exact h.worker hn w pick
  | wake w => exact h.wake w
  | publish p => exact h.publish p
  | producer p => exact h.producer p

omit [DecidableEq π] in
theorem inv_start : Inv (start n π) where
  registered := fun v hv => absurd hv (awake_no_worker v)
  sleeping := fun _ _ hv => by cases hv
  registering := fun _ _ hv => by cases hv
  quiet := fun hv => by cases hv
  searched := fun v hv => absurd hv (awake_no_worker v)
  blocked := fun _ hv => by cases hv

omit [DecidableEq π] in
theorem Inv.not_lost (h : Inv s) (hn : 0 < n) : ¬Lost s := by
  rintro ⟨⟨item, hitem, hpast⟩, hasleep, hpending⟩
  have hquiet : s.state % 2 = 1 := (h.blocked ⟨0, hn⟩ (hasleep _)).resolve_right hpending
  obtain ⟨p, hp⟩ := h.quiet hquiet item hitem
  exact hp.elim (hpast p).1 (hpast p).2.1

/-- No sequence of atomic operations and critical sections leaves everybody asleep beside an item whose
`notify` has returned. -/
theorem no_lost_wakeup (hn : 0 < n) (hids : n ≤ 2 ^ 31) (events : List (Event n π)) :
    ∃ s answers, (machine n π).run (start n π) events = some (s, answers) ∧ ¬Lost s := by
  obtain ⟨s, answers, hrun, h, -⟩ := (machine n π).run_total (P := Inv) (Q := fun _ => True)
    (fun t event ht => ⟨t.step event, (), rfl, ht.step hids event, trivial⟩) events (start n π) inv_start
  exact ⟨s, answers, hrun, h.not_lost hn⟩

/-- An item is published while one of two workers searches. -/
theorem no_lost_wakeup_two : ∃ s answers, (machine 2 Unit).run (start 2 Unit)
    [.worker 0 0, .publish (), .worker 0 0, .producer (), .worker 1 0] = some (s, answers) ∧ ¬Lost s :=
  no_lost_wakeup (by decide) (by decide) _

end TdUtils.MpmcEagerWaiter
