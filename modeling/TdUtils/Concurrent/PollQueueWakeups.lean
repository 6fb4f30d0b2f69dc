import TdUtils.Concurrent.SpscChainCalls

/-!
# Concurrent.PollQueueWakeups — when a waiting reader is signalled

The writer signals once for each odd wait state.  A reader that takes the event of a flush that has published
nothing, and finds nothing, goes on waiting in the same wait state.
-/

namespace TdUtils.PollQueue

variable {p : ℕ} {α : Type} {s : PollQueue p α} {watch : Watch}

/-! ### The queue between two calls -/

structure Quiet (q : SpscChainQueue p α) : Prop where
  chain : ∃ c log, SpscChainQueue.Inv q c log
  writer : q.writer = .idle
  reader : q.reader = .idle

theorem Quiet.start : Quiet (SpscChainQueue.start p α) := ⟨⟨_, _, SpscChainQueue.inv_start⟩, rfl, rfl⟩

variable {q : SpscChainQueue p α}

theorem Quiet.writerCall (h : Quiet q) (hp : p ≤ 20) (event : SpscChainQueue.Event α)
    (hevent : (∃ value, event = .writerPut value) ∨ event = .writerFlush) :
    ∃ t, writerCall q event = some t ∧ Quiet t := by
  obtain ⟨c, log, hinv⟩ := h.chain
  obtain ⟨t, c', log', hcall, ht, hwriter, hreader⟩ := hinv.writerCall hp event h.writer hevent
  exact ⟨t, hcall, ⟨c', log', ht⟩, hwriter, hreader.trans h.reader⟩

theorem Quiet.update (h : Quiet q) (hp : p ≤ 20) :
    ∃ t size, readerUpdate q = some (t, size) ∧ Quiet t ∧ (hasUnread q = true → size ≠ 0) := by
  obtain ⟨c, log, hinv⟩ := h.chain
  obtain ⟨t, size, c', log', hcall, ht, hreader, hwriter, hzero⟩ := hinv.readerUpdate hp h.reader
  refine ⟨t, size, hcall, ⟨⟨c', log', ht⟩, hwriter.trans h.writer, hreader⟩, fun hun hnone => ?_⟩
  exact hinv.unread h.writer hun (hzero hnone)

theorem Quiet.wait (hp : p ≤ 20) : ∀ (n : ℕ) {q : SpscChainQueue p α}, Quiet q →
    ∃ t size, readerWait q n = some (t, size) ∧ Quiet t ∧ (hasUnread q = true → size ≠ 0) := by
  intro n
  induction n with
  | zero => exact fun h => h.update hp
  | succ n ih =>
    intro q h
    obtain ⟨t, size, hcall, ht, hfound⟩ := h.update hp
    have hstep : readerWait q (n + 1) = if size ≠ 0 then some (t, size) else readerWait t n := by
      rw [readerWait, hcall]
    rw [hstep]
    split_ifs with hsize
    · exact ⟨t, size, rfl, ht, hfound⟩
    · obtain ⟨t', size', hcall', ht', -⟩ := ih ht
      exact ⟨t', size', hcall', ht', fun hun => absurd (hfound hun) hsize⟩

theorem Quiet.get (h : Quiet q) (hp : p ≤ 20) :
    ∃ t answer, q.step .readerGet = some (t, answer) ∧ Quiet t := by
  obtain ⟨c, log, hinv⟩ := h.chain
  obtain ⟨t, answer, c', hstep, ht, -⟩ := hinv.step hp .readerGet
  have hsides : t.writer = q.writer ∧ t.reader = q.reader := by
    dsimp only [SpscChainQueue.step] at hstep
    rw [h.reader] at hstep
    obtain ⟨b, -, hstep⟩ := Option.bind_eq_some_iff.mp hstep
    split_ifs at hstep
    · obtain ⟨value, -, hstep⟩ := Option.bind_eq_some_iff.mp hstep
      obtain ⟨u, hu, hstep⟩ := Option.bind_eq_some_iff.mp hstep
      cases hstep
      exact SpscChainQueue.onNode_sides hu
    · cases hstep
      exact ⟨rfl, rfl⟩
  exact ⟨t, answer, hstep, ⟨c', _, ht⟩, hsides.1.trans h.writer, hsides.2.trans h.reader⟩

theorem Quiet.giveBack (h : Quiet q) (hp : p ≤ 20) :
    ∃ t answer, q.step .readerFlush = some (t, answer) ∧ Quiet t := by
  obtain ⟨c, log, hinv⟩ := h.chain
  obtain ⟨t, answer, c', hstep, ht, -⟩ := hinv.step hp .readerFlush
  have hsides : t.writer = q.writer ∧ t.reader = q.reader := by
    dsimp only [SpscChainQueue.step] at hstep
    rw [h.reader] at hstep
    obtain ⟨u, hu, hstep⟩ := Option.bind_eq_some_iff.mp hstep
    cases hstep
    exact SpscChainQueue.onNode_sides hu
  exact ⟨t, answer, hstep, ⟨c', _, ht⟩, hsides.1.trans h.writer, hsides.2.trans h.reader⟩

/-! ### The wait states -/

/-- In an odd wait state that the writer has answered the event is signalled. -/
structure Inv (s : PollQueue p α) (watch : Watch) : Prop where
  quiet : Quiet s.queue
  bound : s.waitState < 2 ^ 32
  answered : odd s.waitState = true → s.waitState = s.writerWaitState → s.eventFd = true
  waiting : watch.waiting = true → odd s.waitState = true
  signalled : watch.waiting = true → watch.published = true → s.eventFd = true

theorem odd_iff (waitState : ℕ) : odd waitState = true ↔ waitState % 2 = 1 := decide_eq_true_iff

theorem inc_of_odd {waitState : ℕ} (h : odd waitState = true) : odd ((waitState + 1) % 2 ^ 32) = false := by
  rw [odd_iff] at h
  rw [Bool.eq_false_iff, Ne, odd_iff]
  omega

theorem inc_of_even {waitState : ℕ} (hlt : waitState < 2 ^ 32) (h : ¬odd waitState = true) :
    (waitState + 1) % 2 ^ 32 = waitState + 1 ∧ odd (waitState + 1) = true := by
  rw [odd_iff] at h ⊢
  omega

/-- What a `reader_wait_nonblock` leaves behind: it waits in an odd state, which the writer has not answered. -/
def Waited (s t : PollQueue p α) (size : ℤ) : Prop :=
  Quiet t.queue ∧ t.waitState < 2 ^ 32 ∧ t.writerWaitState = s.writerWaitState ∧
    (size = 0 → odd t.waitState = true ∧ t.waitState ≠ s.writerWaitState) ∧
      (size ≠ 0 → odd t.waitState = false)

theorem acquire_spec (hq : Quiet s.queue) (hp : p ≤ 20) (hlt : s.waitState < 2 ^ 32) (hodd : odd s.waitState = true)
    (hfresh : hasUnread s.queue = true ∨ s.waitState ≠ s.writerWaitState) :
    ∃ t size, s.acquire = some (t, .ready size) ∧ Waited s t size := by
  obtain ⟨queue, size, hcall, hqueue, hfound⟩ := hq.update hp
  unfold acquire
  rw [hcall]
  dsimp only
  split_ifs with hsize
  · refine ⟨_, _, rfl, hqueue, Nat.mod_lt _ (by decide), rfl, fun hzero => absurd hzero hsize, fun _ => ?_⟩
    exact inc_of_odd hodd
  · refine ⟨_, _, rfl, hqueue, hlt, rfl, fun hzero => ⟨hodd, ?_⟩, fun hsome => absurd hsome hsize⟩
    exact hfresh.resolve_left fun hun => hfound hun hzero

theorem arm_spec (hq : Quiet s.queue) (hp : p ≤ 20) (hlt : s.waitState < 2 ^ 32) (heven : ¬odd s.waitState = true)
    (hfresh : s.waitState + 1 ≠ s.writerWaitState) : ∃ t size, s.arm = some (t, .ready size) ∧ Waited s t size := by
  obtain ⟨queue, size, hcall, hqueue, -⟩ := hq.update hp
  obtain ⟨hinc, hodd⟩ := inc_of_even hlt heven
  have hstate : s.incWaitState.waitState = s.waitState + 1 := hinc
  have hcall' : readerUpdate s.incWaitState.queue = some (queue, size) := hcall
  have hbound : s.incWaitState.waitState < 2 ^ 32 := Nat.mod_lt _ (by decide)
  have hodd' : odd s.incWaitState.waitState = true := by rw [hstate, hodd]
  unfold arm
  dsimp only
  rw [hcall']
  dsimp only
  split_ifs with hsize
  · refine ⟨_, _, rfl, hqueue, Nat.mod_lt _ (by decide), rfl, fun hzero => absurd hzero hsize, fun _ => ?_⟩
    exact inc_of_odd hodd'
  · refine acquire_spec (s := { s.incWaitState with queue := queue }) hqueue hp hbound hodd' (Or.inr ?_)
    show s.incWaitState.waitState ≠ s.writerWaitState
    rw [hstate]
    exact hfresh

theorem wait_spec (hq : Quiet s.queue) (hp : p ≤ 20) (hlt : s.waitState < 2 ^ 32)
    (hfresh : s.Fresh .readerWaitNonblock) :
    ∃ t size, s.readerWaitNonblock = some (t, .ready size) ∧ Waited s t size := by
  unfold Fresh at hfresh
  unfold readerWaitNonblock
  by_cases hodd : odd s.waitState = true
  · rw [if_pos hodd] at hfresh ⊢
    exact acquire_spec hq hp hlt hodd hfresh
  · rw [if_neg hodd] at hfresh ⊢
    obtain ⟨queue, size, hcall, hqueue, hfound⟩ := Quiet.wait hp 2 hq
    rw [hcall]
    dsimp only
    split_ifs with hsize
    · refine ⟨_, _, rfl, hqueue, hlt, rfl, fun hzero => absurd hzero hsize, fun _ => ?_⟩
      exact Bool.eq_false_iff.mpr hodd
    · refine arm_spec (s := { s with queue := queue }) hqueue hp hlt hodd ?_
      exact hfresh.resolve_left fun hun => hfound hun (not_not.mp hsize)

/-! ### Every call -/

theorem Inv.flush (h : Inv s watch) (hp : p ≤ 20) :
    ∃ t answer, s.writerFlush = some (t, answer) ∧ Inv t (watch.add answer) := by
  obtain ⟨queue, hcall, hqueue⟩ := h.quiet.writerCall hp .writerFlush (Or.inr rfl)
  unfold writerFlush
  rw [hcall]
  dsimp only
  split_ifs with hsignal
  · exact ⟨_, _, rfl, hqueue, h.bound, fun _ _ => rfl, h.waiting, fun _ _ => rfl⟩
  · refine ⟨_, _, rfl, hqueue, h.bound, h.answered, h.waiting, fun hwaiting _ => ?_⟩
    -- the writer has answered this wait state
    have hodd := h.waiting hwaiting
    exact h.answered hodd (not_not.mp fun hne => hsignal ⟨hodd, hne⟩)

theorem Inv.wait (h : Inv s watch) (hp : p ≤ 20) (hfresh : s.Fresh .readerWaitNonblock) :
    ∃ t answer, s.readerWaitNonblock = some (t, answer) ∧ Inv t (watch.add answer) := by
  obtain ⟨t, size, hcall, hqueue, hbound, hwriter, hnone, hsome⟩ := wait_spec h.quiet hp h.bound hfresh
  refine ⟨t, .ready size, hcall, hqueue, hbound, fun hodd heq => ?_, fun hwaiting => ?_, fun _ hp => by cases hp⟩
  · by_cases hsize : size = 0
    · exact absurd (heq.trans hwriter) (hnone hsize).2
    · rw [hsome hsize] at hodd
      cases hodd
  · exact (hnone (of_decide_eq_true hwaiting)).1

theorem Inv.step (h : Inv s watch) (hp : p ≤ 20) {event : Event α} (hfresh : s.Fresh event) :
    ∃ t answer, s.step event = some (t, answer) ∧ Inv t (watch.add answer) := by
  cases event with
  | writerPut value =>
    obtain ⟨queue, hcall, hqueue⟩ := h.quiet.writerCall hp (.writerPut value) (Or.inl ⟨value, rfl⟩)
    refine ⟨{ s with queue := queue }, .nothing, ?_, hqueue, h.bound, h.answered, h.waiting, h.signalled⟩
    dsimp only [PollQueue.step]
    rw [hcall]
    rfl
  | writerFlush => exact h.flush hp
  | readerWaitNonblock => exact h.wait hp hfresh
  | readerGet =>
    obtain ⟨queue, answer, hcall, hqueue⟩ := h.quiet.get hp
    dsimp only [PollQueue.step]
    rw [hcall]
    cases answer with
    | got value => exact ⟨_, _, rfl, hqueue, h.bound, h.answered, h.waiting, h.signalled⟩
    | _ => exact ⟨_, _, rfl, hqueue, h.bound, h.answered, h.waiting, h.signalled⟩
  | readerFlush =>
    obtain ⟨queue, answer, hcall, hqueue⟩ := h.quiet.giveBack hp
    refine ⟨{ s with queue := queue }, .nothing, ?_, hqueue, h.bound, h.answered, h.waiting, h.signalled⟩
    dsimp only [PollQueue.step]
    rw [hcall]
    rfl

/-! ### Whole runs -/

theorem inv_start : Inv (start p α) {} where
  quiet := Quiet.start
  bound := Nat.two_pow_pos 32
  answered := fun hodd => by cases hodd
  waiting := fun hwaiting => by cases hwaiting
  signalled := fun hwaiting => by cases hwaiting

/-- While no reader waits in a wait state that the writer has answered, a flush that publishes something for a
waiting reader leaves the event signalled. -/
theorem signalled_of_fresh (hp : 1 ≤ p ∧ p ≤ 20) (events : List (Event α))
    (hfresh : (machine p α).Along Fresh (start p α) events) :
    ∃ s answers, (machine p α).run (start p α) events = some (s, answers) ∧
      ((watchOf answers).waiting = true → (watchOf answers).published = true → s.eventFd = true) := by
  obtain ⟨s, answers, hrun, h⟩ := (machine p α).run_history (start p α) Fresh (fun _ => True)
    (fun _ answers s => Inv s (watchOf answers)) (fun _ _ _ => trivial) inv_start (by
      rintro - answers s event - hevent h
      obtain ⟨t, answer, hstep, ht⟩ := h.step hp.2 hevent
      rw [← watchOf_concat] at ht
      exact ⟨t, answer, hstep, ht⟩) events trivial hfresh
  exact ⟨s, answers, hrun, h.signalled⟩

/-- The reader waits, something is published, and the reader waits again. -/
theorem signalled_of_fresh_twice : ∃ s answers, (machine 1 ℕ).run (start 1 ℕ)
    [.readerWaitNonblock, .writerPut 7, .writerFlush, .readerWaitNonblock, .readerGet, .readerWaitNonblock]
      = some (s, answers) ∧
    ((watchOf answers).waiting = true → (watchOf answers).published = true → s.eventFd = true) :=
  signalled_of_fresh ⟨by decide, by decide⟩ _ (by decide)

/-- The reader waits, and a flush publishes nothing and signals the event; the reader takes the event and waits on.
The flush that publishes a value then does not signal. -/
theorem not_signalled_after_empty_flush : ∃ s answers, (machine 10 ℕ).run (start 10 ℕ)
    [.readerWaitNonblock, .writerFlush, .readerWaitNonblock, .writerPut 7, .writerFlush] = some (s, answers) ∧
      (watchOf answers).waiting = true ∧ (watchOf answers).published = true ∧ s.eventFd = false := by
  have hrun : ((machine 10 ℕ).run (start 10 ℕ)
      [.readerWaitNonblock, .writerFlush, .readerWaitNonblock, .writerPut 7, .writerFlush]).map
        (fun r => ((watchOf r.2).waiting, (watchOf r.2).published, r.1.eventFd)) = some (true, true, false) := by
    decide
  obtain ⟨⟨s, answers⟩, hrun, heq⟩ := Option.map_eq_some_iff.mp hrun
  rw [Prod.mk.injEq, Prod.mk.injEq] at heq
  exact ⟨s, answers, hrun, heq⟩

end TdUtils.PollQueue
