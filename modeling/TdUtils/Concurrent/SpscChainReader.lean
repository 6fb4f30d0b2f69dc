import TdUtils.Concurrent.SpscChainWriter

/-!
# Concurrent.SpscChainReader — the reader's steps keep the chain

The reader leaves a block when it has seen the closed flag and then nothing more to read: what the writer flushed
before it closed the block is seen by the second look.
-/

namespace TdUtils.SpscChainQueue

open SpscBlockQueue (Block)

variable {p : ℕ} {α : Type} {s : SpscChainQueue p α} {c : Chain p α} {log : Log α}

/-- What the writer knows does not depend on what the reader does. -/
theorem WriterOk.frame {t : SpscChainQueue p α} {back : ℕ} {b b' : Block p α} (h : WriterOk s back b)
    (hwriter : t.writer = s.writer) (htail : t.tail = s.tail) (hfresh : t.fresh = s.fresh)
    (hnodes : ∀ k, back < k → t.nodes k = s.nodes k) (hitems : b'.items = b.items)
    (hflushed : b'.flushed = b.flushed) (hseen : b'.seenRead = b.seenRead) : WriterOk t back b' := by
  unfold WriterOk at h ⊢
  rw [hwriter, htail, hfresh, hitems, hflushed, hseen]
  cases hat : s.writer with
  | close value newTail =>
    rw [hat] at h
    obtain ⟨htail, hnewTail, hfresh, hnew, hfull⟩ := h
    refine ⟨htail, hnewTail, hfresh, ?_, hfull⟩
    rw [hnodes _ (by omega), hnew]
  | _ =>
    rw [hat] at h
    exact h

theorem WriterOk.setFront {b : Block p α} {node : Option (Node p α)} {reader : ReaderAt}
    (h : WriterOk s c.back (c.blocks c.back)) {hitems : b.items = (c.blocks c.front).items}
    {hflushed : b.flushed = (c.blocks c.front).flushed} (hseen : b.seenRead = (c.blocks c.front).seenRead) :
    WriterOk { s with nodes := Function.update s.nodes c.front node, reader := reader } c.back
      ((c.setFront b hitems hflushed).blocks c.back) := by
  have hle := c.front_le
  have hnodes : ∀ k, c.back < k → Function.update s.nodes c.front node k = s.nodes k :=
    fun k hk => Function.update_of_ne (by omega) _ _
  by_cases heq : c.back = c.front
  · have hblock : (c.setFront b hitems hflushed).blocks c.back = b := by
      show Function.update c.blocks c.front b c.back = b
      rw [heq, Function.update_self]
    rw [hblock]
    rw [← heq] at hitems hflushed hseen
    exact h.frame rfl rfl rfl hnodes hitems hflushed hseen
  · have hblock : (c.setFront b hitems hflushed).blocks c.back = c.blocks c.back := by
      show Function.update c.blocks c.front b c.back = _
      rw [Function.update_of_ne heq]
    rw [hblock]
    exact h.frame rfl rfl rfl hnodes rfl rfl rfl

/-- The reader changes its block. -/
theorem Inv.looks (h : Inv s c log) (reader : ReaderAt) (b : Block p α) (log' : Log α)
    {q : SpscBlockQueue p α} {node : Node p α} (hnode : s.nodes c.front = some node) (hitems : b.items = (c.blocks c.front).items)
    (hflushed : b.flushed = (c.blocks c.front).flushed) (hseen : b.seenRead = (c.blocks c.front).seenRead)
    (hq : SpscBlockQueue.Rep q b) (hok : ReaderOk reader (c.setFront b hitems hflushed))
    (hputs : log'.puts = log.puts) (hlog : log'.flushed = log.flushed) (hbefore : log'.before = log.before)
    (hgot : log'.got = c.before c.front ++ (c.blocks c.front).items.take b.read)
    (hlooked : reader = .closed → c.front = c.back → log'.before ≤ log'.got.length) :
    Inv { s with
      nodes := Function.update s.nodes c.front (some { node with q := q })
      reader := reader } (c.setFront b hitems hflushed) log' where
  head := h.head
  holds := h.holds.setFront hnode hq
  writer := h.writer.setFront hseen
  reader := hok
  puts := hputs.trans (h.puts.trans Chain.puts_setFront.symm)
  flushed := hlog.trans (h.flushed.trans Chain.flushed_setFront.symm)
  got := hgot.trans Chain.got_setFront.symm
  before := by
    rw [hbefore, hlog]
    exact h.before
  looked := hlooked

theorem head_bind {β : Type} {k : ℕ} (hhead : s.head = k) {node : Node p α} (hnode : s.nodes k = some node)
    (f : SpscBlockQueue p α → SpscBlockQueue p α) (g : SpscChainQueue p α → SpscBlockQueue p α → Option β) :
    ((s.onHead f).bind fun t => t.headQ.bind (g t)) =
      g { s with nodes := Function.update s.nodes k (some { node with q := f node.q }) } (f node.q) := by
  unfold onHead
  rw [hhead, onNode_eq hnode]
  unfold headQ
  dsimp only [Option.bind_some]
  rw [hhead, Function.update_self]
  rfl

theorem readerGet_more {q : SpscBlockQueue p α} (hq : s.headQ = some q) (hmore : 0 < q.readerSize) :
    s.readerGet = (q.data (SpscBlockQueue.fixI p q.reader.localReaderI)).bind fun value =>
      (s.onHead SpscBlockQueue.readerGetUnsafe).bind fun t => some (t, .got value) := by
  unfold readerGet
  rw [hq]
  exact if_pos hmore

theorem readerGet_nothing {q : SpscBlockQueue p α} (hq : s.headQ = some q) (hmore : ¬0 < q.readerSize) :
    s.readerGet = some (s, .nothing) := by
  unfold readerGet
  rw [hq]
  exact if_neg hmore

/-- There is a value to get when the reader has seen one. -/
theorem Inv.get_some (h : Inv s c log) (hp : p ≤ 20) (hat : s.reader = .idle) {q : SpscBlockQueue p α}
    (hheadQ : s.headQ = some q) (hmore : 0 < q.readerSize) :
    ∃ t value c', s.readerGet = some (t, .got value) ∧ Inv t c' (log.add (.got value)) := by
  obtain ⟨node, hnode, hq, -, -⟩ := h.holds.first
  have hsame : s.headQ = some node.q := by
    unfold headQ
    rw [h.head, hnode]
    rfl
  obtain rfl : q = node.q := Option.some.inj (hheadQ.symm.trans hsame)
  have hlt : (c.blocks c.front).read < (c.blocks c.front).seenFlushed := by
    rw [hq.readerSize_eq hp] at hmore
    omega
  have hlength : (c.blocks c.front).read < (c.blocks c.front).items.length :=
    lt_of_lt_of_le hlt ((c.blocks c.front).seenFlushed_le.trans (c.blocks c.front).flushed_le)
  rw [readerGet_more hheadQ hmore, hq.get_value hp hlt, List.getElem?_eq_getElem hlength, Option.bind_some]
  unfold onHead
  rw [h.head, onNode_eq hnode, Option.bind_some]
  have hgot : (log.add (.got (c.blocks c.front).items[(c.blocks c.front).read])).got =
      c.before c.front ++ (c.blocks c.front).items.take ((c.blocks c.front).read + 1) := by
    show log.got ++ _ = _
    rw [h.got, List.take_succ_eq_append_getElem hlength, ← List.append_assoc]
    rfl
  have hinv := h.looks .idle ((c.blocks c.front).get hlt)
    (log.add (.got (c.blocks c.front).items[(c.blocks c.front).read])) hnode rfl rfl rfl (hq.get hp hlt) trivial
    rfl rfl rfl hgot (fun hc => by cases hc)
  rw [show ({ s with
      nodes := Function.update s.nodes c.front (some { node with q := node.q.readerGetUnsafe })
      reader := .idle } : SpscChainQueue p α) = { s with
      nodes := Function.update s.nodes c.front (some { node with q := node.q.readerGetUnsafe }) } by
    rw [← hat]] at hinv
  exact ⟨_, _, _, rfl, hinv⟩

/-- After a load has found something. -/
theorem Inv.get_loaded (hp : p ≤ 20) {b : Block p α} {q : SpscBlockQueue p α}
    (hq : SpscBlockQueue.Rep q b) {node : Node p α} {k : ℕ} (hhead : s.head = k)
    (h : Inv { s with
      nodes := Function.update s.nodes k (some { node with q := q })
      reader := .idle } c log) (hsize : q.readerSize ≠ 0) :
    ∃ t value, ({ s with
      nodes := Function.update s.nodes k (some { node with q := q })
      reader := .idle } : SpscChainQueue p α).step .readerGet = some (t, .got value) := by
  have hheadQ : ({ s with
      nodes := Function.update s.nodes k (some { node with q := q })
      reader := .idle } : SpscChainQueue p α).headQ = some q := by
    unfold headQ
    dsimp only
    rw [hhead, Function.update_self]
    rfl
  have hpos : 0 < q.readerSize := by
    have heq := hq.readerSize_eq hp
    have hle := b.read_le
    omega
  obtain ⟨t, value, -, hget, -⟩ := h.get_some hp rfl hheadQ hpos
  exact ⟨t, value, hget⟩

/-- A load has found nothing: the reader has read all that is flushed in its block. -/
theorem read_eq_flushed {q : SpscBlockQueue p α} {b : Block p α} (hp : p ≤ 20)
    (hq : SpscBlockQueue.Rep q b.readerUpdate) (hsize : q.readerSize = 0) : b.read = b.flushed := by
  have heq := hq.readerSize_eq hp
  rw [hsize] at heq
  have hseen : b.readerUpdate.seenFlushed = b.flushed := rfl
  have hread : b.readerUpdate.read = b.read := rfl
  rw [hseen, hread] at heq
  omega

/-- A load of the reader's counter, and where the reader is then. -/
theorem Inv.loaded (h : Inv s c log) (reader : ReaderAt) {node : Node p α} (hnode : s.nodes c.front = some node)
    (hq : SpscBlockQueue.Rep node.q (c.blocks c.front))
    (hok : ReaderOk reader (c.setFront (c.blocks c.front).readerUpdate rfl rfl))
    (hlooked : reader = .closed → c.front = c.back → log.before ≤ log.got.length) :
    Inv { s with
      nodes := Function.update s.nodes c.front (some { node with q := node.q.readerUpdate })
      reader := reader } (c.setFront (c.blocks c.front).readerUpdate rfl rfl) log :=
  h.looks reader (c.blocks c.front).readerUpdate log hnode rfl rfl rfl hq.readerUpdate hok rfl rfl rfl h.got hlooked

theorem Inv.got_all (h : Inv s c log) (hfront : c.front = c.back)
    (hread : (c.blocks c.front).read = (c.blocks c.front).flushed) : log.before ≤ log.got.length := by
  rw [h.got, ← c.flushed_eq_got hfront hread, ← h.flushed]
  exact h.before

theorem Inv.step_read_load (h : Inv s c log) (hp : p ≤ 20) (hat : s.reader = .load) : Goes s.readerStep log := by
  obtain ⟨node, hnode, hq, -, -⟩ := h.holds.first
  have hstep : s.readerStep = some (readerLoaded { s with
      nodes := Function.update s.nodes c.front (some { node with q := node.q.readerUpdate }) }
      node.q.readerUpdate.readerSize .closed) := by
    unfold readerStep
    rw [hat]
    exact head_bind h.head hnode SpscBlockQueue.readerUpdate fun t q => some (t.readerLoaded q.readerSize .closed)
  rw [hstep]
  unfold readerLoaded
  split_ifs with hsize
  · have hinv := h.loaded .idle hnode hq trivial (fun hc => by cases hc)
    exact ⟨_, _, _, rfl, hinv, fun hzero => absurd hzero hsize, fun _ => hinv.get_loaded hp hq.readerUpdate h.head hsize⟩
  · refine ⟨_, _, _, rfl, h.loaded .closed hnode hq trivial fun _ hlast => ?_, trivial⟩
    exact h.got_all hlast (read_eq_flushed hp hq.readerUpdate (not_not.mp hsize))

theorem Inv.step_closed (h : Inv s c log) (hat : s.reader = .closed) : Goes s.readerStep log := by
  obtain ⟨node, hnode, -, hclosed, -⟩ := h.holds.first
  have hstep : s.readerStep = if node.isClosed then some ({ s with reader := .reload }, .nothing)
      else some ({ s with reader := .idle }, .ready 0) := by
    unfold readerStep
    simp only [hat, h.head, hnode, Option.bind_eq_bind, Option.bind_some]
  rw [hstep]
  split_ifs with hflag
  · refine ⟨_, _, c, rfl, ⟨h.head, h.holds, h.writer, hclosed.mp hflag, h.puts, h.flushed, h.got, h.before, ?_⟩,
      trivial⟩
    exact fun hc => by cases hc
  · have hlast : c.front = c.back := by
      have hle := c.front_le
      have hnot : ¬c.front < c.back := fun hlt => hflag (hclosed.mpr hlt)
      omega
    refine ⟨_, _, c, rfl, ⟨h.head, h.holds, h.writer, trivial, h.puts, h.flushed, h.got, h.before, ?_⟩,
      fun _ => h.looked hat hlast, fun hsize => absurd rfl hsize⟩
    exact fun hc => by cases hc

theorem Inv.step_read_reload (h : Inv s c log) (hp : p ≤ 20) (hat : s.reader = .reload) :
    Goes s.readerStep log := by
  obtain ⟨node, hnode, hq, -, -⟩ := h.holds.first
  have hlt := h.reader
  rw [hat] at hlt
  have hlt' : c.front < c.back := hlt
  have hstep : s.readerStep = some (readerLoaded { s with
      nodes := Function.update s.nodes c.front (some { node with q := node.q.readerUpdate }) }
      node.q.readerUpdate.readerSize .advance) := by
    unfold readerStep
    rw [hat]
    exact head_bind h.head hnode SpscBlockQueue.readerUpdate fun t q => some (t.readerLoaded q.readerSize .advance)
  rw [hstep]
  unfold readerLoaded
  split_ifs with hsize
  · have hinv := h.loaded .idle hnode hq trivial (fun hc => by cases hc)
    exact ⟨_, _, _, rfl, hinv, fun hzero => absurd hzero hsize, fun _ => hinv.get_loaded hp hq.readerUpdate h.head hsize⟩
  · refine ⟨_, _, _, rfl, h.loaded .advance hnode hq ⟨hlt', ?_⟩ (fun hc => by cases hc), trivial⟩
    -- the block is closed, so it is flushed whole
    show (Function.update c.blocks c.front _ c.front).read = (Function.update c.blocks c.front _ c.front).items.length
    rw [Function.update_self]
    exact (read_eq_flushed hp hq.readerUpdate (not_not.mp hsize)).trans (c.closed _ hlt').1

theorem Inv.step_read_advance (h : Inv s c log) (hat : s.reader = .advance) : Goes s.readerStep log := by
  obtain ⟨node, hnode, -, -, hnext⟩ := h.holds.first
  have hok := h.reader
  rw [hat] at hok
  obtain ⟨hlt, hread⟩ := hok
  have hstep : s.readerStep = some ({ s with
      nodes := Function.update s.nodes c.front none
      head := c.front + 1
      reader := .last }, .nothing) := by
    unfold readerStep
    simp only [hat, h.head, hnode, hnext hlt, Option.bind_eq_bind, Option.bind_some]
  refine ⟨_, _, c.advance hlt hread, hstep, ⟨rfl, h.holds.advance, ?_, ?_, h.puts, h.flushed, ?_, h.before, ?_⟩,
    trivial⟩
  · have hnodes : ∀ k, c.back < k → Function.update s.nodes c.front none k = s.nodes k :=
      fun k hk => Function.update_of_ne (by omega) _ _
    exact h.writer.frame rfl rfl rfl hnodes rfl rfl rfl
  · exact (c.ahead _ (Nat.lt_succ_self _)).1
  · exact h.got.trans Chain.got_advance.symm
  · exact fun hc => by cases hc

theorem Inv.step_last (h : Inv s c log) (hp : p ≤ 20) (hat : s.reader = .last) : Goes s.readerStep log := by
  obtain ⟨node, hnode, hq, -, -⟩ := h.holds.first
  have hok := h.reader
  rw [hat] at hok
  have hread : (c.blocks c.front).read = 0 := hok
  have hstep : s.readerStep = some ({ s with
      nodes := Function.update s.nodes c.front (some { node with q := node.q.readerUpdate })
      reader := .idle }, .ready node.q.readerUpdate.readerSize) := by
    unfold readerStep
    rw [hat]
    exact head_bind h.head hnode SpscBlockQueue.readerUpdate fun t q =>
      some (({ t with reader := .idle } : SpscChainQueue p α), Answer.ready q.readerSize)
  have hinv := h.loaded .idle hnode hq trivial (fun hc => by cases hc)
  refine ⟨_, _, _, hstep, hinv, fun hzero => ?_, fun hsize => hinv.get_loaded hp hq.readerUpdate h.head hsize⟩
  have hflushed := read_eq_flushed hp hq.readerUpdate hzero
  refine h.got_all ?_ hflushed
  -- a closed block would have something to read
  have hle := c.front_le
  by_contra hne
  obtain ⟨hfull, hpos⟩ := c.closed c.front (by omega)
  omega

theorem Inv.reader_step (h : Inv s c log) (hp : p ≤ 20) : Goes s.readerStep log := by
  cases hat : s.reader with
  | idle =>
    refine ⟨s, .nothing, c, ?_, h, trivial⟩
    unfold readerStep
    simp only [hat]
  | load => exact h.step_read_load hp hat
  | closed => exact h.step_closed hat
  | reload => exact h.step_read_reload hp hat
  | advance => exact h.step_read_advance hat
  | last => exact h.step_last hp hat

end TdUtils.SpscChainQueue
