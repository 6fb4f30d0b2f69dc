import TdUtils.Concurrent.PollQueue
import TdUtils.Concurrent.SpscChainDelivery

/-!
# Concurrent.SpscChainCalls — whole calls of a queue that nobody else uses meanwhile
-/

namespace TdUtils.SpscChainQueue

variable {p : ℕ} {α : Type} {s t : SpscChainQueue p α} {c : Chain p α} {log : Log α} {answer : Answer α}

/-! ### A call of the writer -/

theorem Inv.writer_run (hp : p ≤ 20) : ∀ (n : ℕ) {s : SpscChainQueue p α} {c : Chain p α} {log : Log α},
    Inv s c log → s.writer.left ≤ n → ∃ t answers c' log',
      (machine p α).run s (List.replicate n .writer) = some (t, answers) ∧ Inv t c' log' ∧ t.writer = .idle ∧
        t.reader = s.reader := by
  intro n
  induction n with
  | zero =>
    intro s c log h hleft
    exact ⟨s, [], c, log, rfl, h, WriterAt.left_eq_zero (Nat.le_zero.mp hleft), rfl⟩
  | succ n ih =>
    intro s c log h hleft
    obtain ⟨u, answer, c', hstep, hu, -⟩ := h.writer_step hp
    obtain ⟨hreader, hcases⟩ := writerStep_left hstep
    have hless : u.writer.left ≤ n := by
      rcases hcases with ⟨hidle, rfl, -⟩ | ⟨hlt, -⟩
      · rw [hidle]
        exact Nat.zero_le n
      · omega
    obtain ⟨t, answers, c'', log', hrun, ht, hidle, hsame⟩ := ih hu hless
    exact ⟨t, answer :: answers, c'', log', Lib.Machine.run_cons_of hstep hrun, ht, hidle, hsame.trans hreader⟩

theorem Inv.writerCall (h : Inv s c log) (hp : p ≤ 20) (event : Event α) (hidle : s.writer = .idle)
    (hevent : (∃ value, event = .writerPut value) ∨ event = .writerFlush) :
    ∃ t c' log', PollQueue.writerCall s event = some t ∧ Inv t c' log' ∧ t.writer = .idle ∧ t.reader = s.reader := by
  obtain ⟨u, answer, c', hstep, hu, -⟩ := h.step hp event
  have hsides : u.reader = s.reader := by
    rcases hevent with ⟨value, rfl⟩ | rfl
    · dsimp only [SpscChainQueue.step] at hstep
      rw [hidle] at hstep
      obtain ⟨q, -, hq⟩ := Option.bind_eq_some_iff.mp hstep
      cases hq
      rfl
    · dsimp only [SpscChainQueue.step] at hstep
      rw [hidle] at hstep
      obtain ⟨v, hv, hq⟩ := Option.bind_eq_some_iff.mp hstep
      cases hq
      exact (onNode_sides hv).2
  obtain ⟨t, answers, c'', log', hrun, ht, hdone, hsame⟩ := hu.writer_run hp 7 u.writer.left_le
  refine ⟨t, c'', log', ?_, ht, hdone, hsame.trans hsides⟩
  unfold PollQueue.writerCall
  rw [Lib.Machine.run_cons_of hstep hrun]
  rfl

/-! ### A call of `reader_update` -/

theorem idle_run (hidle : s.reader = .idle) (n : ℕ) : (machine p α).run s (List.replicate n .reader) =
    some (s, List.replicate n .nothing) := by
  induction n with
  | zero => rfl
  | succ n ih =>
    refine Lib.Machine.run_cons_of ?_ ih
    show s.readerStep = _
    unfold readerStep
    rw [hidle]

theorem Inv.reader_run (hp : p ≤ 20) : ∀ (n : ℕ) {s : SpscChainQueue p α} {c : Chain p α}, Inv s c log →
    s.reader ≠ .idle → s.reader.left ≤ n → ∃ t answers c' size,
      (machine p α).run s (List.replicate n .reader) = some (t, answers) ∧
        PollQueue.sizeOf answers = some size ∧ Inv t c' log ∧ t.reader = .idle ∧ t.writer = s.writer ∧
          (size = 0 → log.before ≤ log.got.length) := by
  intro n
  induction n with
  | zero =>
    intro s c h hbusy hleft
    cases hat : s.reader <;> simp_all [ReaderAt.left]
  | succ n ih =>
    intro s c h hbusy hleft
    obtain ⟨u, answer, c', hstep, hu, hok⟩ := h.reader_step hp
    obtain ⟨hwriter, ⟨rfl, hlt, hbusy'⟩ | ⟨size, rfl, hidle⟩⟩ := readerStep_left hstep hbusy
    · obtain ⟨t, answers, c'', size, hrun, hsize, ht, hidle, hsame, hzero⟩ := ih hu hbusy' (by omega)
      exact ⟨t, .nothing :: answers, c'', size, Lib.Machine.run_cons_of hstep hrun, hsize, ht, hidle,
        hsame.trans hwriter, hzero⟩
    · exact ⟨u, .ready size :: List.replicate n .nothing, c', size,
        Lib.Machine.run_cons_of hstep (idle_run hidle n), rfl, hu, hidle, hwriter, hok.1⟩

/-- A call of `reader_update` ends, and finds something unless all that is flushed has been got. -/
theorem Inv.readerUpdate (h : Inv s c log) (hp : p ≤ 20) (hidle : s.reader = .idle) :
    ∃ t size c' log', PollQueue.readerUpdate s = some (t, size) ∧ Inv t c' log' ∧ t.reader = .idle ∧
      t.writer = s.writer ∧ (size = 0 → log.flushed = log.got) := by
  obtain ⟨u, answer, c', hstep, hu, -⟩ := h.step hp .readerUpdate
  have hcall : s.step .readerUpdate = some ({ s with reader := .load }, .updating) := by
    dsimp only [SpscChainQueue.step]
    rw [hidle]
  rw [hcall] at hstep
  cases hstep
  obtain ⟨t, answers, c'', size, hrun, hsize, ht, hdone, hsame, hzero⟩ := hu.reader_run hp 5 (by simp) le_rfl
  refine ⟨t, size, c'', _, ?_, ht, hdone, hsame, fun hnone => ?_⟩
  · unfold PollQueue.readerUpdate
    rw [Lib.Machine.run_cons_of hcall hrun]
    show (PollQueue.sizeOf answers).map _ = _
    rw [hsize]
    rfl
  · have hall : log.flushed.length ≤ log.got.length := hzero hnone
    have hpart : log.got <+: log.flushed := by
      rw [h.got, h.flushed]
      exact c.got_prefix_flushed
    exact (hpart.eq_of_length_le hall).symm

/-! ### What is published and not read -/

theorem Chain.flushed_in {k : ℕ} (hk : k ≤ c.back) :
    (c.before k).length + (c.blocks k).flushed ≤ c.flushed.length := by
  rcases hk.lt_or_eq with hlt | rfl
  · have hnext : c.before (k + 1) <+: c.before c.back := c.before_le hlt
    rw [Chain.before_succ] at hnext
    have hle := hnext.length_le
    rw [List.length_append] at hle
    have hflushed : (c.blocks k).flushed ≤ _ := (c.blocks k).flushed_le
    unfold Chain.flushed
    rw [List.length_append]
    omega
  · unfold Chain.flushed
    rw [List.length_append, List.length_take, Nat.min_eq_left (c.blocks c.back).flushed_le]

theorem Chain.got_length : c.got.length = (c.before c.front).length + (c.blocks c.front).read := by
  unfold Chain.got
  rw [List.length_append, List.length_take, Nat.min_eq_left SpscBlockQueue.Block.read_le_length]

theorem unread_of_ne {q : SpscBlockQueue p α} {b : SpscBlockQueue.Block p α} (hq : SpscBlockQueue.Rep q b)
    (hne : q.writer.i ≠ q.reader.localReaderI) : b.read < b.flushed := by
  refine lt_of_le_of_ne (b.read_le.trans b.seenFlushed_le) fun heq => hne ?_
  rw [hq.flushed, hq.read, heq]

/-- What `hasUnread` sees is flushed and not got. -/
theorem Inv.unread (h : Inv s c log) (hidle : s.writer = .idle) (hun : PollQueue.hasUnread s = true) :
    log.flushed ≠ log.got := by
  have hlt : c.got.length < c.flushed.length := by
    obtain ⟨node, hnode, hq, -, hnext⟩ := h.holds.first
    unfold PollQueue.hasUnread at hun
    rw [h.head, hnode] at hun
    dsimp only at hun
    rw [Chain.got_length]
    rcases Bool.or_eq_true_iff.mp hun with hhere | hthere
    · have hread := unread_of_ne hq (of_decide_eq_true hhere)
      have hin := c.flushed_in c.front_le
      omega
    · rcases c.front_le.lt_or_eq with hlt | heq
      · rw [hnext hlt, Option.bind_some] at hthere
        have hread := (c.ahead _ (Nat.lt_succ_self c.front)).1
        have hin := c.flushed_in (show c.front + 1 ≤ c.back from hlt)
        rw [Chain.before_succ, List.length_append] at hin
        have hlength : (c.blocks c.front).read ≤ _ := SpscBlockQueue.Block.read_le_length
        have hrep : ∃ node, s.nodes (c.front + 1) = some node ∧
            SpscBlockQueue.Rep node.q (c.blocks (c.front + 1)) := by
          rcases (show c.front + 1 ≤ c.back from hlt).lt_or_eq with hlt' | heq'
          · obtain ⟨q, hnode', hq'⟩ := h.holds.node _ (Nat.le_succ _) hlt'
            exact ⟨_, hnode', hq'⟩
          · obtain ⟨q, hnode', hq'⟩ := h.holds.last
            rw [heq']
            exact ⟨_, hnode', hq'⟩
        obtain ⟨node', hnode', hq'⟩ := hrep
        rw [hnode'] at hthere
        have hflushed := unread_of_ne hq' (of_decide_eq_true hthere)
        omega
      · obtain ⟨q, hlast, -⟩ := h.holds.last
        rw [← heq, hnode, hidle] at hlast
        obtain rfl := Option.some.inj hlast
        cases hthere
  intro heq
  rw [h.flushed, h.got] at heq
  rw [heq] at hlt
  exact absurd hlt (lt_irrefl _)

end TdUtils.SpscChainQueue
