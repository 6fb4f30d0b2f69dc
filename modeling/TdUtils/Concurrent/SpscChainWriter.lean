import TdUtils.Concurrent.SpscChainMemory

/-!
# Concurrent.SpscChainWriter — the writer's steps keep the chain

`Inv` ties the nodes, the places of both sides and the log to a chain.  The writer flushes a full block before
it closes it.
-/

namespace TdUtils.SpscChainQueue

open SpscBlockQueue (Block)

variable {p : ℕ} {α : Type} {s : SpscChainQueue p α} {c : Chain p α} {log : Log α}

/-- The link that the writer has set and not yet announced. -/
def link : WriterAt α → Option ℕ
  | .close _ newTail => some newTail
  | _ => none

/-- What a writer at its place knows of its node, of its block, and of the new node. -/
def WriterOk (s : SpscChainQueue p α) (back : ℕ) (b : Block p α) : Prop :=
  match s.writer with
  | .idle | .load _ => s.tail = back ∧ s.fresh = back + 1
  | .flush _ => s.tail = back ∧ s.fresh = back + 1 ∧ b.items.length = b.seenRead + 2 ^ p
  | .link _ => s.tail = back ∧ s.fresh = back + 1 ∧ b.flushed = b.items.length ∧ 0 < b.items.length
  | .close _ newTail =>
    s.tail = back ∧ newTail = back + 1 ∧ s.fresh = back + 2 ∧ s.nodes newTail = some {} ∧
      b.flushed = b.items.length ∧ 0 < b.items.length
  | .advance _ newTail => newTail = back ∧ s.fresh = back + 1 ∧ b.items = []
  | .reload _ => s.tail = back ∧ s.fresh = back + 1 ∧ b.items = []
  | .store _ => s.tail = back ∧ s.fresh = back + 1 ∧ b.items.length < b.seenRead + 2 ^ p

def ReaderOk (reader : ReaderAt) (c : Chain p α) : Prop :=
  match reader with
  | .idle | .load | .closed => True
  | .reload => c.front < c.back
  | .advance => c.front < c.back ∧ (c.blocks c.front).read = (c.blocks c.front).items.length
  | .last => (c.blocks c.front).read = 0

structure Inv (s : SpscChainQueue p α) (c : Chain p α) (log : Log α) : Prop where
  head : s.head = c.front
  holds : Holds s.nodes c (link s.writer)
  writer : WriterOk s c.back (c.blocks c.back)
  reader : ReaderOk s.reader c
  puts : log.puts = c.puts
  flushed : log.flushed = c.flushed
  got : log.got = c.got
  before : log.before ≤ log.flushed.length
  looked : s.reader = .closed → c.front = c.back → log.before ≤ log.got.length

/-- A put overwrites nothing; a `reader_update` that finds nothing has got all that was flushed before it, and
after one that finds something there is a value to get. -/
def Answer.Ok (s : SpscChainQueue p α) (log : Log α) : Answer α → Prop
  | .put _ overwritten => overwritten = none
  | .ready size =>
    (size = 0 → log.before ≤ log.got.length) ∧ (size ≠ 0 → ∃ t value, s.step .readerGet = some (t, .got value))
  | _ => True

/-- One step of a side goes through. -/
def Goes (step : Option (SpscChainQueue p α × Answer α)) (log : Log α) : Prop :=
  ∃ s' answer c', step = some (s', answer) ∧ Inv s' c' (log.add answer) ∧ answer.Ok s' (log.add answer)

/-! ### The writer -/

theorem ReaderOk.setBack {reader : ReaderAt} (h : ReaderOk reader c) {b : Block p α}
    {hread : b.read = (c.blocks c.back).read} {hseen : b.seenFlushed = (c.blocks c.back).seenFlushed} :
    ReaderOk reader (c.setBack b hread hseen) := by
  cases reader with
  | idle => trivial
  | load => trivial
  | closed => trivial
  | reload => exact h
  | advance =>
    refine ⟨h.1, ?_⟩
    show (Function.update c.blocks c.back b c.front).read = (Function.update c.blocks c.back b c.front).items.length
    rw [Function.update_of_ne h.1.ne]
    exact h.2
  | last =>
    show (Function.update c.blocks c.back b c.front).read = 0
    by_cases heq : c.front = c.back
    · rw [heq, Function.update_self, hread, ← heq]
      exact h
    · rw [Function.update_of_ne heq]
      exact h

/-- The writer changes its block. -/
theorem Inv.wrote (h : Inv s c log) (writer : WriterAt α) (b : Block p α) {q : SpscBlockQueue p α} {log' : Log α}
    (hread : b.read = (c.blocks c.back).read) (hseen : b.seenFlushed = (c.blocks c.back).seenFlushed)
    (hq : SpscBlockQueue.Rep q b) (hitems : (c.blocks c.back).items <+: b.items)
    (hok : WriterOk { s with
      nodes := Function.update s.nodes c.back (some ⟨q, false, link writer⟩)
      writer := writer } c.back b)
    (hputs : log'.puts = c.before c.back ++ b.items)
    (hflushed : log'.flushed = c.before c.back ++ b.items.take b.flushed)
    (hgot : log'.got = log.got) (hbefore : log'.before = log.before)
    (hmore : log.flushed.length ≤ log'.flushed.length) :
    Inv { s with
      nodes := Function.update s.nodes c.back (some ⟨q, false, link writer⟩)
      writer := writer } (c.setBack b hread hseen) log' where
  head := h.head
  holds := h.holds.setBack hq
  writer := by
    show WriterOk _ c.back (Function.update c.blocks c.back b c.back)
    rwa [Function.update_self]
  reader := h.reader.setBack
  puts := hputs.trans Chain.puts_setBack.symm
  flushed := hflushed.trans Chain.flushed_setBack.symm
  got := hgot.trans (h.got.trans (Chain.got_setBack hitems).symm)
  before := by
    rw [hbefore]
    exact h.before.trans hmore
  looked := fun hat hlast => by
    rw [hbefore, hgot]
    exact h.looked hat hlast

/-- The writer looks at the reader's counter, or only goes to another place. -/
theorem Inv.wrote_same (h : Inv s c log) (writer : WriterAt α) (b : Block p α) {q : SpscBlockQueue p α}
    (hread : b.read = (c.blocks c.back).read) (hseen : b.seenFlushed = (c.blocks c.back).seenFlushed)
    (hq : SpscBlockQueue.Rep q b) (hitems : b.items = (c.blocks c.back).items)
    (hflushed : b.flushed = (c.blocks c.back).flushed)
    (hok : WriterOk { s with
      nodes := Function.update s.nodes c.back (some ⟨q, false, link writer⟩)
      writer := writer } c.back b) :
    Inv { s with
      nodes := Function.update s.nodes c.back (some ⟨q, false, link writer⟩)
      writer := writer } (c.setBack b hread hseen) log := by
  refine h.wrote writer b hread hseen hq ?_ hok ?_ ?_ rfl rfl le_rfl
  · rw [hitems]
  · rw [hitems]
    exact h.puts
  · rw [hitems, hflushed]
    exact h.flushed

theorem onNode_eq {k : ℕ} {node : Node p α} (hnode : s.nodes k = some node) (f : Node p α → Node p α) :
    s.onNode k f = some { s with nodes := Function.update s.nodes k (some (f node)) } := by
  unfold onNode
  rw [hnode]
  rfl

/-- `writer_update` has found room. -/
theorem updated_cases {size : ℤ} (hsize : size ≠ 0) (value : Option α) :
    ∃ writer answer, s.writerUpdated size value = some ({ s with writer := writer }, answer) ∧
      (answer = .writable size ∧ writer = .idle ∨ answer = .nothing ∧ ∃ v, writer = .store v) := by
  cases value with
  | none => exact ⟨.idle, .writable size, rfl, Or.inl ⟨rfl, rfl⟩⟩
  | some v =>
    refine ⟨.store v, .nothing, ?_, Or.inr ⟨rfl, v, rfl⟩⟩
    unfold writerUpdated
    exact if_neg hsize

theorem Inv.updated (h : Inv s c log) (hp : p ≤ 20) {q : SpscBlockQueue p α} (value : Option α)
    (htail : s.tail = c.back) (hfresh : s.fresh = c.back + 1)
    (hq : SpscBlockQueue.Rep q (c.blocks c.back).writerUpdate) (hsize : q.writerSize ≠ 0) :
    Goes (writerUpdated { s with nodes := Function.update s.nodes c.back (some ⟨q, false, none⟩) } q.writerSize value)
      log := by
  obtain ⟨writer, answer, hstep, hcases⟩ := updated_cases
    (s := { s with nodes := Function.update s.nodes c.back (some ⟨q, false, none⟩) }) hsize value
  have hroom : (c.blocks c.back).items.length < (c.blocks c.back).writerUpdate.seenRead + 2 ^ p := by
    have hle := (c.blocks c.back).writerUpdate.length_le
    have heq := hq.writerSize_eq hp
    have hitems : (c.blocks c.back).writerUpdate.items = (c.blocks c.back).items := rfl
    rw [hitems] at hle heq
    rcases hle.lt_or_eq with hlt | heq'
    · exact hlt
    · rw [heq', sub_self] at heq
      exact absurd heq hsize
  rcases hcases with ⟨rfl, rfl⟩ | ⟨rfl, v, rfl⟩
  · exact ⟨_, _, _, hstep, h.wrote_same .idle (c.blocks c.back).writerUpdate rfl rfl hq rfl rfl
      ⟨htail, hfresh⟩, trivial⟩
  · exact ⟨_, _, _, hstep, h.wrote_same (.store v) (c.blocks c.back).writerUpdate rfl rfl hq rfl rfl
      ⟨htail, hfresh, hroom⟩, trivial⟩

theorem tail_bind {β : Type} (htail : s.tail = c.back) {node : Node p α} (hnode : s.nodes c.back = some node)
    (f : SpscBlockQueue p α → SpscBlockQueue p α) (k : SpscChainQueue p α → SpscBlockQueue p α → Option β) :
    ((s.onTail f).bind fun t => t.tailQ.bind (k t)) =
      k { s with nodes := Function.update s.nodes c.back (some { node with q := f node.q }) } (f node.q) := by
  unfold onTail
  rw [htail, onNode_eq hnode]
  unfold tailQ
  dsimp only [Option.bind_some]
  rw [htail, Function.update_self]
  rfl

theorem Inv.step_load (h : Inv s c log) (hp : p ≤ 20) {value : Option α} (hat : s.writer = .load value) :
    Goes s.writerStep log := by
  have hok := h.writer
  unfold WriterOk at hok
  rw [hat] at hok
  obtain ⟨htail, hfresh⟩ := hok
  obtain ⟨q, hnode, hq⟩ := h.holds.last
  rw [hat] at hnode
  have hstep : s.writerStep = writerLoaded { s with
      nodes := Function.update s.nodes c.back (some ⟨q.writerUpdate, false, none⟩) }
      q.writerUpdate.writerSize value := by
    unfold writerStep
    rw [hat]
    exact tail_bind htail hnode SpscBlockQueue.writerUpdate fun t q => t.writerLoaded q.writerSize value
  rw [hstep]
  unfold writerLoaded
  split_ifs with hsize
  · exact h.updated hp value htail hfresh hq.writerUpdate hsize
  · have hfull : (c.blocks c.back).items.length = (c.blocks c.back).returned + 2 ^ p := by
      have heq := hq.writerUpdate.writerSize_eq hp
      rw [not_not.mp hsize] at heq
      have hitems : (c.blocks c.back).writerUpdate.items = (c.blocks c.back).items := rfl
      have hseen : (c.blocks c.back).writerUpdate.seenRead = (c.blocks c.back).returned := rfl
      rw [hitems, hseen] at heq
      omega
    exact ⟨_, _, _, rfl, h.wrote_same (.flush value) (c.blocks c.back).writerUpdate rfl rfl hq.writerUpdate rfl rfl
      ⟨htail, hfresh, hfull⟩, trivial⟩

theorem Inv.step_flush (h : Inv s c log) {value : Option α} (hat : s.writer = .flush value) :
    Goes s.writerStep log := by
  have hok := h.writer
  unfold WriterOk at hok
  rw [hat] at hok
  obtain ⟨htail, hfresh, hfull⟩ := hok
  obtain ⟨q, hnode, hq⟩ := h.holds.last
  rw [hat] at hnode
  have hpos : 0 < (c.blocks c.back).items.length := by
    have htwo := Nat.two_pow_pos p
    omega
  have hstep : s.writerStep = some ({ s with
      nodes := Function.update s.nodes c.back (some ⟨q.writerFlush, false, none⟩)
      writer := .link value }, .flushed) := by
    unfold writerStep onTail
    simp only [hat, htail, onNode_eq hnode, link, Option.bind_eq_bind, Option.bind_some]
  refine ⟨_, _, _, hstep, h.wrote (.link value) (c.blocks c.back).writerFlush rfl rfl hq.writerFlush
    List.prefix_rfl ⟨htail, hfresh, rfl, hpos⟩ h.puts ?_ rfl rfl ?_, trivial⟩
  · show log.puts = c.before c.back ++ (c.blocks c.back).items.take (c.blocks c.back).items.length
    rw [List.take_length]
    exact h.puts
  · show log.flushed.length ≤ log.puts.length
    rw [h.flushed, h.puts]
    exact c.flushed_prefix_puts.length_le

theorem Inv.step_link (h : Inv s c log) {value : Option α} (hat : s.writer = .link value) :
    Goes s.writerStep log := by
  have hok := h.writer
  unfold WriterOk at hok
  rw [hat] at hok
  obtain ⟨htail, hfresh, hflushed, hpos⟩ := hok
  obtain ⟨q, hnode, hq⟩ := h.holds.last
  rw [hat] at hnode
  have hnew : Function.update s.nodes s.fresh (some {}) c.back = some ⟨q, false, none⟩ := by
    rw [hfresh, Function.update_of_ne (by omega), hnode]
    rfl
  have hstep : s.writerStep = some ({ s with
      nodes := Function.update (Function.update s.nodes s.fresh (some {})) c.back (some ⟨q, false, some s.fresh⟩)
      fresh := s.fresh + 1
      writer := .close value s.fresh }, .nothing) := by
    unfold writerStep onNode
    simp only [hat, htail, hnew, Option.map_some, Option.bind_eq_bind, Option.bind_some]
  refine ⟨_, _, c, hstep, ⟨h.head, ?_, ?_, h.reader, h.puts, h.flushed, h.got, h.before, h.looked⟩, trivial⟩
  · exact (h.holds.outside (by omega) _).relink hq
  · refine ⟨htail, hfresh, congrArg (· + 1) hfresh, ?_, hflushed, hpos⟩
    show Function.update (Function.update s.nodes s.fresh (some {})) c.back _ s.fresh = some {}
    rw [Function.update_of_ne (by omega), Function.update_self]

theorem ReaderOk.extend {reader : ReaderAt} (h : ReaderOk reader c)
    {hflushed : (c.blocks c.back).flushed = (c.blocks c.back).items.length}
    {hpos : 0 < (c.blocks c.back).items.length} : ReaderOk reader (c.extend hflushed hpos) := by
  cases reader with
  | idle => trivial
  | load => trivial
  | closed => trivial
  | reload => exact Nat.lt_succ_of_lt h
  | advance => exact ⟨Nat.lt_succ_of_lt h.1, h.2⟩
  | last => exact h

theorem Inv.step_close (h : Inv s c log) {value : Option α} {newTail : ℕ} (hat : s.writer = .close value newTail) :
    Goes s.writerStep log := by
  have hok := h.writer
  unfold WriterOk at hok
  rw [hat] at hok
  obtain ⟨htail, hnewTail, hfresh, hnew, hflushed, hpos⟩ := hok
  subst hnewTail
  obtain ⟨q, hnode, hq⟩ := h.holds.last
  rw [hat] at hnode
  have hstep : s.writerStep = some ({ s with
      nodes := Function.update s.nodes c.back (some ⟨q, true, some (c.back + 1)⟩)
      writer := .advance value (c.back + 1) }, .nothing) := by
    unfold writerStep
    simp only [hat, htail, onNode_eq hnode, link, Option.bind_eq_bind, Option.bind_some]
  refine ⟨_, _, c.extend hflushed hpos, hstep, ⟨h.head, h.holds.extend hq hnew, ?_, h.reader.extend, ?_, ?_, h.got,
    h.before, ?_⟩, trivial⟩
  · refine ⟨rfl, hfresh, ?_⟩
    show (c.blocks (c.back + 1)).items = []
    rw [c.fresh _ (Nat.lt_succ_self _)]
    rfl
  · exact h.puts.trans Chain.puts_extend.symm
  · exact h.flushed.trans Chain.flushed_extend.symm
  · intro _ hlast
    have hle := c.front_le
    have hlast' : c.front = c.back + 1 := hlast
    omega

theorem Inv.step_advance (h : Inv s c log) {value : Option α} {newTail : ℕ}
    (hat : s.writer = .advance value newTail) : Goes s.writerStep log := by
  have hok := h.writer
  unfold WriterOk at hok
  rw [hat] at hok
  obtain ⟨hnewTail, hfresh, hitems⟩ := hok
  have hstep : s.writerStep = some ({ s with tail := newTail, writer := .reload value }, .nothing) := by
    unfold writerStep
    simp only [hat]
  have hholds := h.holds
  rw [hat] at hholds
  exact ⟨_, _, c, hstep, ⟨h.head, hholds, ⟨hnewTail, hfresh, hitems⟩, h.reader, h.puts, h.flushed, h.got, h.before,
    h.looked⟩, trivial⟩

theorem Inv.step_reload (h : Inv s c log) (hp : p ≤ 20) {value : Option α} (hat : s.writer = .reload value) :
    Goes s.writerStep log := by
  have hok := h.writer
  unfold WriterOk at hok
  rw [hat] at hok
  obtain ⟨htail, hfresh, hitems⟩ := hok
  obtain ⟨q, hnode, hq⟩ := h.holds.last
  rw [hat] at hnode
  have hstep : s.writerStep = writerUpdated { s with
      nodes := Function.update s.nodes c.back (some ⟨q.writerUpdate, false, none⟩) }
      q.writerUpdate.writerSize value := by
    unfold writerStep
    rw [hat]
    exact tail_bind htail hnode SpscBlockQueue.writerUpdate fun t q => t.writerUpdated q.writerSize value
  have hsize : q.writerUpdate.writerSize ≠ 0 := by
    rw [hq.writerUpdate.writerSize_eq hp, show (c.blocks c.back).writerUpdate.items = [] from hitems]
    have htwo := Nat.two_pow_pos p
    rw [List.length_nil]
    omega
  rw [hstep]
  exact h.updated hp value htail hfresh hq.writerUpdate hsize

theorem Inv.step_store (h : Inv s c log) (hp : p ≤ 20) {value : α} (hat : s.writer = .store value) :
    Goes s.writerStep log := by
  have hok := h.writer
  unfold WriterOk at hok
  rw [hat] at hok
  obtain ⟨htail, hfresh, hroom⟩ := hok
  obtain ⟨q, hnode, hq⟩ := h.holds.last
  rw [hat] at hnode
  have hstep : s.writerStep = some ({ s with
      nodes := Function.update s.nodes c.back (some ⟨q.writerPutUnsafe value, false, none⟩)
      writer := .idle }, .put value (q.data (SpscBlockQueue.fixI p q.writer.localWriterI))) := by
    unfold writerStep onTail tailQ
    simp only [hat, htail, hnode, onNode_eq hnode, link, Option.bind_eq_bind, Option.bind_some, Option.map_some]
  refine ⟨_, _, _, hstep, h.wrote .idle ((c.blocks c.back).put value hroom) rfl rfl (hq.put hp value hroom)
    (List.prefix_append _ _) ⟨htail, hfresh⟩ ?_ ?_ rfl rfl le_rfl, hq.put_vacant hp hroom⟩
  · show log.puts ++ [value] = c.before c.back ++ ((c.blocks c.back).items ++ [value])
    rw [h.puts, ← List.append_assoc]
    rfl
  · show log.flushed = c.before c.back ++ ((c.blocks c.back).items ++ [value]).take (c.blocks c.back).flushed
    rw [List.take_append_of_le_length (c.blocks c.back).flushed_le]
    exact h.flushed

theorem Inv.writer_step (h : Inv s c log) (hp : p ≤ 20) : Goes s.writerStep log := by
  cases hat : s.writer with
  | idle =>
    refine ⟨s, .nothing, c, ?_, h, trivial⟩
    unfold writerStep
    simp only [hat]
  | load value => exact h.step_load hp hat
  | flush value => exact h.step_flush hat
  | link value => exact h.step_link hat
  | close value newTail => exact h.step_close hat
  | advance value newTail => exact h.step_advance hat
  | reload value => exact h.step_reload hp hat
  | store value => exact h.step_store hp hat

end TdUtils.SpscChainQueue
