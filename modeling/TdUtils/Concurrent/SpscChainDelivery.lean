import TdUtils.Concurrent.SpscChainReader

/-!
# Concurrent.SpscChainDelivery — the reader gets what was flushed
-/

namespace TdUtils.SpscChainQueue

open SpscBlockQueue (Block)

variable {p : ℕ} {α : Type} {s t : SpscChainQueue p α} {c : Chain p α} {log : Log α} {answer : Answer α}
  {k : Calls α}

/-! ### Calls -/

/-- The writer only goes to another place. -/
theorem Inv.writer_goes (h : Inv s c log) (writer : WriterAt α) (hlink : link writer = link s.writer)
    (hok : WriterOk { s with writer := writer } c.back (c.blocks c.back)) : Inv { s with writer := writer } c log where
  head := h.head
  holds := hlink ▸ h.holds
  writer := hok
  reader := h.reader
  puts := h.puts
  flushed := h.flushed
  got := h.got
  before := h.before
  looked := h.looked

theorem Inv.writer_idle (h : Inv s c log) (hat : s.writer = .idle) : s.tail = c.back ∧ s.fresh = c.back + 1 ∧
    ∃ q, s.nodes c.back = some ⟨q, false, none⟩ ∧ SpscBlockQueue.Rep q (c.blocks c.back) := by
  have hok := h.writer
  unfold WriterOk at hok
  rw [hat] at hok
  obtain ⟨q, hnode, hq⟩ := h.holds.last
  rw [hat] at hnode
  exact ⟨hok.1, hok.2, q, hnode, hq⟩

theorem Inv.put (h : Inv s c log) (hp : p ≤ 20) (hat : s.writer = .idle) (value : α) : Goes (s.writerPut value) log := by
  obtain ⟨htail, hfresh, q, hnode, hq⟩ := h.writer_idle hat
  have hstep : s.writerPut value =
      some ({ s with writer := if q.writerEmpty then .load (some value) else .store value }, .nothing) := by
    unfold writerPut tailQ
    rw [htail, hnode]
    rfl
  rw [hstep]
  split_ifs with hempty
  · exact ⟨_, _, c, rfl, h.writer_goes (.load (some value)) (by rw [hat]; rfl) ⟨htail, hfresh⟩, trivial⟩
  · refine ⟨_, _, c, rfl, h.writer_goes (.store value) (by rw [hat]; rfl) ⟨htail, hfresh, ?_⟩, trivial⟩
    have hfull := mt (hq.writerEmpty_iff hp).mpr hempty
    exact lt_of_le_of_ne (c.blocks c.back).length_le hfull

theorem Inv.flush (h : Inv s c log) (hat : s.writer = .idle) : Goes (s.step .writerFlush) log := by
  obtain ⟨htail, hfresh, q, hnode, hq⟩ := h.writer_idle hat
  have hstep : s.step .writerFlush = some ({ s with
      nodes := Function.update s.nodes c.back (some ⟨q.writerFlush, false, link (.idle : WriterAt α)⟩)
      writer := .idle }, .flushed) := by
    dsimp only [step]
    rw [hat]
    unfold onTail
    simp only [htail, onNode_eq hnode, hat, link, Option.bind_eq_bind, Option.bind_some]
  refine ⟨_, _, _, hstep, h.wrote .idle (c.blocks c.back).writerFlush rfl rfl hq.writerFlush List.prefix_rfl
    ⟨htail, hfresh⟩ h.puts ?_ rfl rfl ?_, trivial⟩
  · show log.puts = c.before c.back ++ (c.blocks c.back).items.take (c.blocks c.back).items.length
    rw [List.take_length]
    exact h.puts
  · show log.flushed.length ≤ log.puts.length
    rw [h.flushed, h.puts]
    exact c.flushed_prefix_puts.length_le

theorem Inv.get (h : Inv s c log) (hp : p ≤ 20) (hat : s.reader = .idle) : Goes s.readerGet log := by
  obtain ⟨node, hnode, -, -, -⟩ := h.holds.first
  have hheadQ : s.headQ = some node.q := by
    unfold headQ
    rw [h.head, hnode]
    rfl
  by_cases hmore : 0 < node.q.readerSize
  · obtain ⟨t, value, c', hget, h'⟩ := h.get_some hp hat hheadQ hmore
    exact ⟨t, .got value, c', hget, h', trivial⟩
  · exact ⟨s, .nothing, c, readerGet_nothing hheadQ hmore, h, trivial⟩

theorem Inv.give_back (h : Inv s c log) (hat : s.reader = .idle) : Goes (s.step .readerFlush) log := by
  obtain ⟨node, hnode, hq, -, -⟩ := h.holds.first
  have hstep : s.step .readerFlush = some ({ s with
      nodes := Function.update s.nodes c.front (some { node with q := node.q.readerFlush })
      reader := .idle }, .nothing) := by
    dsimp only [step]
    rw [hat]
    unfold onHead
    simp only [h.head, onNode_eq hnode, hat, Option.bind_eq_bind, Option.bind_some]
  exact ⟨_, _, _, hstep, h.looks .idle (c.blocks c.front).readerFlush log hnode rfl rfl rfl hq.readerFlush trivial rfl rfl
    rfl h.got (fun hc => by cases hc), trivial⟩

theorem Inv.step (h : Inv s c log) (hp : p ≤ 20) (event : Event α) : Goes (s.step event) log := by
  have hsame : Goes (some (s, .nothing)) log := ⟨s, .nothing, c, rfl, h, trivial⟩
  cases event with
  | writerPut value =>
    dsimp only [SpscChainQueue.step]
    cases hat : s.writer with
    | idle => exact h.put hp hat value
    | _ => exact hsame
  | writerUpdate =>
    dsimp only [SpscChainQueue.step]
    cases hat : s.writer with
    | idle =>
      obtain ⟨htail, hfresh, -⟩ := h.writer_idle hat
      exact ⟨_, _, c, rfl, h.writer_goes (.load none) (by rw [hat]; rfl) ⟨htail, hfresh⟩, trivial⟩
    | _ => exact hsame
  | writerFlush =>
    cases hat : s.writer with
    | idle => exact h.flush hat
    | _ =>
      dsimp only [SpscChainQueue.step]
      rw [hat]
      exact hsame
  | writer => exact h.writer_step hp
  | readerUpdate =>
    dsimp only [SpscChainQueue.step]
    cases hat : s.reader with
    | idle =>
      refine ⟨_, _, c, rfl, ⟨h.head, h.holds, h.writer, trivial, h.puts, h.flushed, h.got, le_rfl, ?_⟩, trivial⟩
      exact fun hc => by cases hc
    | _ => exact hsame
  | readerGet =>
    dsimp only [SpscChainQueue.step]
    cases hat : s.reader with
    | idle => exact h.get hp hat
    | _ => exact hsame
  | readerFlush =>
    cases hat : s.reader with
    | idle => exact h.give_back hat
    | _ =>
      dsimp only [SpscChainQueue.step]
      rw [hat]
      exact hsame
  | reader => exact h.reader_step hp

/-! ### The steps that are left of a call -/

/-- How many steps a call can still take. -/
def WriterAt.left : WriterAt α → ℕ
  | .idle => 0
  | .store _ => 1
  | .reload _ => 2
  | .advance _ _ => 3
  | .close _ _ => 4
  | .link _ => 5
  | .flush _ => 6
  | .load _ => 7

def ReaderAt.left : ReaderAt → ℕ
  | .idle => 0
  | .last => 1
  | .advance => 2
  | .reload => 3
  | .closed => 4
  | .load => 5

/-- The call that the writer is in. -/
def WriterAt.call : WriterAt α → Option (Option α)
  | .idle => none
  | .load value => some value
  | .flush value => some value
  | .link value => some value
  | .close value _ => some value
  | .advance value _ => some value
  | .reload value => some value
  | .store value => some (some value)

/-- A step of the writer stays in the call, or ends it with its own answer. -/
def WriterAt.Moves (writer writer' : WriterAt α) : Answer α → Prop
  | .nothing | .flushed => writer'.call = writer.call
  | .put value _ => writer.call = some (some value) ∧ writer' = .idle
  | .writable _ => writer.call = some none ∧ writer' = .idle
  | .updating | .ready _ | .got _ => False

theorem onNode_sides {k : ℕ} {f : Node p α → Node p α} (h : s.onNode k f = some t) :
    t.writer = s.writer ∧ t.reader = s.reader := by
  obtain ⟨node, -, rfl⟩ := Option.map_eq_some_iff.mp h
  exact ⟨rfl, rfl⟩

theorem writerUpdated_left {size : ℤ} {value : Option α} (writer : WriterAt α) (hcall : writer.call = some value)
    (h : s.writerUpdated size value = some (t, answer)) :
    t.reader = s.reader ∧ t.writer.left < 2 ∧ writer.Moves t.writer answer := by
  cases value with
  | none =>
    cases h
    exact ⟨rfl, Nat.zero_lt_two, hcall, rfl⟩
  | some v =>
    unfold writerUpdated at h
    dsimp only at h
    split_ifs at h
    cases h
    exact ⟨rfl, by simp [WriterAt.left], hcall.symm⟩

theorem writerStep_left (h : s.writerStep = some (t, answer)) : t.reader = s.reader ∧
    (s.writer = .idle ∧ t = s ∧ answer = .nothing ∨
      t.writer.left < s.writer.left ∧ s.writer.Moves t.writer answer) := by
  unfold writerStep at h
  cases hat : s.writer with
  | idle =>
    rw [hat] at h
    cases h
    exact ⟨rfl, Or.inl ⟨rfl, rfl, rfl⟩⟩
  | load value =>
    rw [hat] at h
    obtain ⟨u, hu, h⟩ := Option.bind_eq_some_iff.mp h
    obtain ⟨q, -, h⟩ := Option.bind_eq_some_iff.mp h
    unfold writerLoaded at h
    split_ifs at h
    · obtain ⟨hreader, hlt, hmoves⟩ := writerUpdated_left (.load value) rfl h
      exact ⟨hreader.trans (onNode_sides hu).2, Or.inr ⟨hlt.trans (show 2 < 7 by decide), hmoves⟩⟩
    · cases h
      exact ⟨(onNode_sides hu).2, Or.inr ⟨Nat.lt_succ_self _, rfl⟩⟩
  | flush value =>
    rw [hat] at h
    obtain ⟨u, hu, h⟩ := Option.bind_eq_some_iff.mp h
    cases h
    exact ⟨(onNode_sides hu).2, Or.inr ⟨Nat.lt_succ_self _, rfl⟩⟩
  | link value =>
    rw [hat] at h
    obtain ⟨u, hu, h⟩ := Option.bind_eq_some_iff.mp h
    cases h
    exact ⟨(onNode_sides hu).2, Or.inr ⟨Nat.lt_succ_self _, rfl⟩⟩
  | close value newTail =>
    rw [hat] at h
    obtain ⟨u, hu, h⟩ := Option.bind_eq_some_iff.mp h
    cases h
    exact ⟨(onNode_sides hu).2, Or.inr ⟨Nat.lt_succ_self _, rfl⟩⟩
  | advance value newTail =>
    rw [hat] at h
    cases h
    exact ⟨rfl, Or.inr ⟨Nat.lt_succ_self _, rfl⟩⟩
  | reload value =>
    rw [hat] at h
    obtain ⟨u, hu, h⟩ := Option.bind_eq_some_iff.mp h
    obtain ⟨q, -, h⟩ := Option.bind_eq_some_iff.mp h
    obtain ⟨hreader, hlt, hmoves⟩ := writerUpdated_left (.reload value) rfl h
    exact ⟨hreader.trans (onNode_sides hu).2, Or.inr ⟨hlt, hmoves⟩⟩
  | store value =>
    rw [hat] at h
    obtain ⟨q, -, h⟩ := Option.bind_eq_some_iff.mp h
    obtain ⟨u, hu, h⟩ := Option.bind_eq_some_iff.mp h
    cases h
    exact ⟨(onNode_sides hu).2, Or.inr ⟨Nat.lt_succ_self _, rfl, rfl⟩⟩

theorem readerLoaded_left {size : ℤ} {next : ReaderAt} (hnext : next ≠ .idle)
    (h : s.readerLoaded size next = (t, answer)) : t.writer = s.writer ∧
      (answer = .nothing ∧ t.reader = next ∧ t.reader ≠ .idle ∨ ∃ size, answer = .ready size ∧ t.reader = .idle) := by
  unfold readerLoaded at h
  split_ifs at h
  · cases h
    exact ⟨rfl, Or.inr ⟨size, rfl, rfl⟩⟩
  · cases h
    exact ⟨rfl, Or.inl ⟨rfl, rfl, hnext⟩⟩

theorem readerStep_left (h : s.readerStep = some (t, answer)) (hbusy : s.reader ≠ .idle) : t.writer = s.writer ∧
    (answer = .nothing ∧ t.reader.left < s.reader.left ∧ t.reader ≠ .idle ∨
      ∃ size, answer = .ready size ∧ t.reader = .idle) := by
  unfold readerStep at h
  cases hat : s.reader with
  | idle => exact absurd hat hbusy
  | load =>
    rw [hat] at h
    obtain ⟨u, hu, h⟩ := Option.bind_eq_some_iff.mp h
    obtain ⟨q, -, h⟩ := Option.bind_eq_some_iff.mp h
    obtain ⟨hwriter, hcases⟩ := readerLoaded_left (by simp) (Option.some.inj h)
    refine ⟨hwriter.trans (onNode_sides hu).1, hcases.imp_left fun hnext => ?_⟩
    rw [hnext.2.1]
    exact ⟨hnext.1, by decide, by simp⟩
  | closed =>
    rw [hat] at h
    obtain ⟨node, -, h⟩ := Option.bind_eq_some_iff.mp h
    split_ifs at h
    · cases h
      exact ⟨rfl, Or.inl ⟨rfl, Nat.lt_succ_self 3, by simp⟩⟩
    · cases h
      exact ⟨rfl, Or.inr ⟨0, rfl, rfl⟩⟩
  | reload =>
    rw [hat] at h
    obtain ⟨u, hu, h⟩ := Option.bind_eq_some_iff.mp h
    obtain ⟨q, -, h⟩ := Option.bind_eq_some_iff.mp h
    obtain ⟨hwriter, hcases⟩ := readerLoaded_left (by simp) (Option.some.inj h)
    refine ⟨hwriter.trans (onNode_sides hu).1, hcases.imp_left fun hnext => ?_⟩
    rw [hnext.2.1]
    exact ⟨hnext.1, by decide, by simp⟩
  | advance =>
    rw [hat] at h
    obtain ⟨node, -, h⟩ := Option.bind_eq_some_iff.mp h
    obtain ⟨next, -, h⟩ := Option.bind_eq_some_iff.mp h
    cases h
    exact ⟨rfl, Or.inl ⟨rfl, Nat.lt_succ_self 1, by simp⟩⟩
  | last =>
    rw [hat] at h
    obtain ⟨u, hu, h⟩ := Option.bind_eq_some_iff.mp h
    obtain ⟨q, -, h⟩ := Option.bind_eq_some_iff.mp h
    cases h
    exact ⟨(onNode_sides hu).1, Or.inr ⟨_, rfl, rfl⟩⟩

/-- The callers know where the two sides are, and the steps of a call are bounded by those that are left. -/
structure Tied (s : SpscChainQueue p α) (log : Log α) (k : Calls α) : Prop where
  log : k.log = log
  writer : k.writer.map Prod.fst = s.writer.call
  reader : k.reader = none ↔ s.reader = .idle
  writes : ∀ call ∈ k.writer, call.2 + s.writer.left ≤ 7
  reads : ∀ steps ∈ k.reader, steps + s.reader.left ≤ 5

theorem WriterAt.call_eq_none {writer : WriterAt α} : writer.call = none ↔ writer = .idle := by
  cases writer <;> simp [WriterAt.call]

theorem WriterAt.left_eq_zero {writer : WriterAt α} (h : writer.left = 0) : writer = .idle := by
  cases writer <;> first | rfl | cases h

theorem WriterAt.left_le (writer : WriterAt α) : writer.left ≤ 7 := by
  cases writer <;> simp [WriterAt.left]

theorem Tied.writer_none (h : Tied s log k) : k.writer = none ↔ s.writer = .idle := by
  rw [← WriterAt.call_eq_none, ← h.writer, Option.map_eq_none_iff]

/-- The writer begins a call. -/
theorem Tied.writer_begins (h : Tied s log k) (value : Option α) (hreader : t.reader = s.reader)
    (hcall : t.writer.call = some value) : Tied t log { k with writer := some (value, 0) } where
  log := h.log
  writer := hcall.symm
  reader := hreader ▸ h.reader
  writes := by
    rintro call ⟨⟩
    exact (Nat.zero_add _).trans_le t.writer.left_le
  reads := hreader ▸ h.reads

/-- A step of the writer's call. -/
theorem Tied.write (h : Tied s log k) {value : Option α} {steps : ℕ} (hk : k.writer = some (value, steps))
    (hreader : t.reader = s.reader) (hleft : t.writer.left < s.writer.left) (hmoves : s.writer.Moves t.writer answer) :
    Tied t (log.add answer) (k.write value steps answer) := by
  have hcall : s.writer.call = some value := by rw [← h.writer, hk, Option.map_some]
  have hwrites := h.writes _ hk
  have hgoes : ∀ log', t.writer.call = s.writer.call →
      Tied t log' { k with writer := some (value, steps + 1), log := log' } := by
    intro log' hsame
    refine ⟨rfl, ?_, hreader ▸ h.reader, ?_, hreader ▸ h.reads⟩
    · rw [hsame, hcall, Option.map_some]
    · rintro call ⟨⟩
      dsimp only at hwrites ⊢
      omega
  have hends : ∀ log', t.writer = .idle → Tied t log' { k with writer := none, log := log' } := by
    intro log' hidle
    exact ⟨rfl, by rw [hidle]; rfl, hreader ▸ h.reader, by simp, hreader ▸ h.reads⟩
  cases answer with
  | nothing =>
    have hgo := hgoes log hmoves
    rw [← h.log] at hgo ⊢
    cases value <;> exact hgo
  | flushed =>
    have hgo := hgoes { log with flushed := log.puts } hmoves
    rw [← h.log] at hgo ⊢
    cases value <;> exact hgo
  | put v overwritten =>
    obtain ⟨hput, hidle⟩ := hmoves
    cases hcall.symm.trans hput
    have hend := hends { log with puts := log.puts ++ [v] } hidle
    rw [← h.log] at hend ⊢
    exact hend
  | writable size =>
    obtain ⟨hupdate, hidle⟩ := hmoves
    cases hcall.symm.trans hupdate
    have hend := hends log hidle
    rw [← h.log] at hend ⊢
    exact hend
  | updating => exact hmoves.elim
  | ready size => exact hmoves.elim
  | got v => exact hmoves.elim

/-- A step of the reader's call. -/
theorem Tied.read (h : Tied s log k) {steps : ℕ} (hk : k.reader = some steps) (hwriter : t.writer = s.writer)
    (hmoves : answer = .nothing ∧ t.reader.left < s.reader.left ∧ t.reader ≠ .idle ∨
      ∃ size, answer = .ready size ∧ t.reader = .idle) :
    Tied t (log.add answer) (k.read steps answer) := by
  have hreads := h.reads _ hk
  rcases hmoves with ⟨rfl, hleft, hbusy⟩ | ⟨size, rfl, hidle⟩
  · refine ⟨h.log, hwriter ▸ h.writer, ?_, hwriter ▸ h.writes, ?_⟩
    · exact ⟨fun hnone => absurd hnone (Option.some_ne_none _), fun hidle => absurd hidle hbusy⟩
    · rintro _ ⟨⟩
      omega
  · exact ⟨h.log, hwriter ▸ h.writer, ⟨fun _ => hidle, fun _ => rfl⟩, hwriter ▸ h.writes, fun _ hc => nomatch hc⟩

/-- An operation that leaves the two sides where they are. -/
theorem Tied.keeps (h : Tied s log k) (hwriter : t.writer = s.writer) (hreader : t.reader = s.reader) (log' : Log α) :
    Tied t log' { k with log := log' } :=
  ⟨rfl, hwriter ▸ h.writer, hreader ▸ h.reader, hwriter ▸ h.writes, hreader ▸ h.reads⟩

/-- A side that is in a call is asked for nothing else. -/
theorem Tied.waits (h : Tied s log k) {event : Event α} (hadd : k.add (event, .nothing) = k)
    (hsame : some (s, .nothing) = some (t, answer)) : Tied t (log.add answer) (k.add (event, answer)) := by
  cases hsame
  rw [hadd]
  exact h

theorem Tied.writer_busy (h : Tied s log k) (hbusy : s.writer ≠ .idle) : k.writer.isSome :=
  Option.isSome_iff_ne_none.mpr (mt h.writer_none.mp hbusy)

theorem Tied.reader_busy (h : Tied s log k) (hbusy : s.reader ≠ .idle) : k.reader.isSome :=
  Option.isSome_iff_ne_none.mpr (mt h.reader.mp hbusy)

/-- What the callers know goes with every step. -/
theorem Tied.step (h : Tied s log k) {event : Event α} (hstep : s.step event = some (t, answer)) :
    Tied t (log.add answer) (k.add (event, answer)) := by
  obtain ⟨rfl⟩ := h.log
  cases event with
  | writerPut value =>
    dsimp only [SpscChainQueue.step] at hstep
    split at hstep
    case h_1 hidle =>
      obtain ⟨q, -, hq⟩ := Option.bind_eq_some_iff.mp hstep
      cases hq
      unfold Calls.add
      rw [h.writer_none.mpr hidle]
      exact h.writer_begins (some value) rfl (by dsimp only; split_ifs <;> rfl)
    case h_2 hbusy => exact h.waits (if_pos (h.writer_busy hbusy)) hstep
  | writerUpdate =>
    dsimp only [SpscChainQueue.step] at hstep
    split at hstep
    case h_1 hidle =>
      cases hstep
      unfold Calls.add
      rw [h.writer_none.mpr hidle]
      exact h.writer_begins none rfl rfl
    case h_2 hbusy => exact h.waits (if_pos (h.writer_busy hbusy)) hstep
  | writerFlush =>
    dsimp only [SpscChainQueue.step] at hstep
    split at hstep
    case h_1 hidle =>
      obtain ⟨u, hu, hstep⟩ := Option.bind_eq_some_iff.mp hstep
      cases hstep
      have hsides := onNode_sides hu
      have hadd : k.add (.writerFlush, .flushed) = { k with log := k.log.add .flushed } :=
        if_neg (by simp [h.writer_none.mpr hidle])
      rw [hadd]
      exact h.keeps hsides.1 hsides.2 _
    case h_2 hbusy => exact h.waits (if_pos (h.writer_busy hbusy)) hstep
  | writer =>
    obtain ⟨hreader, ⟨hidle, rfl, rfl⟩ | ⟨hleft, hmoves⟩⟩ := writerStep_left hstep
    · unfold Calls.add
      rw [h.writer_none.mpr hidle]
      exact h
    · cases hk : k.writer with
      | none =>
        rw [h.writer_none.mp hk] at hleft
        exact absurd hleft (Nat.not_lt_zero _)
      | some call =>
        unfold Calls.add
        rw [hk]
        exact h.write hk hreader hleft hmoves
  | readerUpdate =>
    dsimp only [SpscChainQueue.step] at hstep
    split at hstep
    case h_1 hidle =>
      cases hstep
      unfold Calls.add
      rw [h.reader.mpr hidle]
      refine ⟨rfl, h.writer, by simp, h.writes, ?_⟩
      rintro steps ⟨⟩
      exact le_rfl
    case h_2 hbusy => exact h.waits (if_pos (h.reader_busy hbusy)) hstep
  | readerGet =>
    dsimp only [SpscChainQueue.step] at hstep
    split at hstep
    case h_1 hidle =>
      obtain ⟨q, -, hget⟩ := Option.bind_eq_some_iff.mp hstep
      split_ifs at hget
      · obtain ⟨value, -, hget⟩ := Option.bind_eq_some_iff.mp hget
        obtain ⟨u, hu, hget⟩ := Option.bind_eq_some_iff.mp hget
        cases hget
        have hsides := onNode_sides hu
        have hadd : k.add (.readerGet, .got value) = { k with log := k.log.add (.got value) } :=
          if_neg (by simp [h.reader.mpr hidle])
        rw [hadd]
        exact h.keeps hsides.1 hsides.2 _
      · exact h.waits rfl hget
    case h_2 hbusy => exact h.waits rfl hstep
  | readerFlush =>
    dsimp only [SpscChainQueue.step] at hstep
    split at hstep
    case h_1 hidle =>
      obtain ⟨u, hu, hstep⟩ := Option.bind_eq_some_iff.mp hstep
      cases hstep
      have hsides := onNode_sides hu
      exact h.keeps hsides.1 hsides.2 _
    case h_2 hbusy => exact h.waits rfl hstep
  | reader =>
    cases hk : k.reader with
    | none =>
      have hidle := h.reader.mp hk
      dsimp only [SpscChainQueue.step, readerStep] at hstep
      rw [hidle] at hstep
      refine h.waits ?_ hstep
      unfold Calls.add
      rw [hk]
    | some steps =>
      have hbusy : s.reader ≠ .idle := fun hidle => by
        rw [h.reader.mpr hidle] at hk
        cases hk
      obtain ⟨hwriter, hmoves⟩ := readerStep_left hstep hbusy
      unfold Calls.add
      rw [hk]
      exact h.read hk hwriter hmoves

/-! ### Whole runs -/

theorem zero_le_zero : 0 ≤ 0 := le_rfl

def Chain.start (p : ℕ) (α : Type) : Chain p α where
  blocks := fun _ => Block.empty
  front := 0
  back := 0
  front_le := zero_le_zero
  closed := fun _ hk => absurd hk (Nat.not_lt_zero _)
  gone := fun _ hk => absurd hk (Nat.not_lt_zero _)
  ahead := fun _ _ => ⟨rfl, rfl⟩
  fresh := fun _ _ => rfl

theorem inv_start : Inv (start p α) (Chain.start p α) {} where
  head := rfl
  holds := ⟨fun _ _ hk => absurd hk (Nat.not_lt_zero _), {}, rfl, SpscBlockQueue.Rep.empty⟩
  writer := ⟨rfl, rfl⟩
  reader := trivial
  puts := rfl
  flushed := rfl
  got := rfl
  before := le_rfl
  looked := fun hc => by cases hc

/-- The callers' knowledge after a run is tied to the state. -/
theorem tied_run : ∀ (events : List (Event α)) {s t : SpscChainQueue p α} {answers : List (Answer α)} {log : Log α}
    {k : Calls α}, Tied s log k → (machine p α).run s events = some (t, answers) →
      Tied t (answers.foldl Log.add log) ((events.zip answers).foldl Calls.add k)
  | [], _, _, _, _, _, h, hrun => by
    cases hrun
    exact h
  | _ :: events, _, _, _, _, _, h, hrun => by
    obtain ⟨u, answer, answers, hstep, hrest, rfl⟩ := Lib.Machine.run_cons_inv hrun
    exact tied_run events (h.step hstep) hrest

theorem tied_start : Tied (start p α) {} {} := ⟨rfl, rfl, ⟨fun _ => rfl, fun _ => rfl⟩, by simp, by simp⟩

/-- A call that has not ended has steps left. -/
theorem Tied.running (h : Tied s log k) :
    (∀ call ∈ k.writer, call.2 < 7) ∧ ∀ steps ∈ k.reader, steps < 5 := by
  constructor
  · intro call hcall
    have hbusy : s.writer ≠ .idle := fun hidle => by
      rw [h.writer_none.mpr hidle] at hcall
      cases hcall
    have hpos : 0 < s.writer.left := Nat.pos_of_ne_zero (mt WriterAt.left_eq_zero hbusy)
    have hle := h.writes call hcall
    omega
  · intro steps hsteps
    have hbusy : s.reader ≠ .idle := fun hidle => by
      rw [h.reader.mpr hidle] at hsteps
      cases hsteps
    have hpos : 0 < s.reader.left := by
      cases hat : s.reader <;> first | exact absurd hat hbusy | decide
    have hle := h.reads steps hsteps
    omega

/-- Every sequence of steps of one writer and one reader goes through: no check fails and no deleted node or
empty slot is used.  No put overwrites a value, and the reader has got a part of what was flushed, in order: all
that was flushed before a `reader_update` that returns 0, and there is more to get after one that does not.  A call
of the writer ends with its seventh step at the latest, and `reader_update` with its fifth. -/
theorem flushed_in_order (hp : 1 ≤ p ∧ p ≤ 20) (events : List (Event α)) :
    ∃ s answers, (machine p α).run (start p α) events = some (s, answers) ∧
      (callsOf events answers).log.got <+: (callsOf events answers).log.flushed ∧
      (callsOf events answers).log.flushed <+: (callsOf events answers).log.puts ∧
      (∀ value overwritten, .put value overwritten ∈ answers → overwritten = none) ∧
      (answers.getLast? = some (.ready 0) →
        (callsOf events answers).log.before ≤ (callsOf events answers).log.got.length) ∧
      (∀ size, answers.getLast? = some (.ready size) → size ≠ 0 →
        ∃ t value, s.step .readerGet = some (t, .got value)) ∧
      (∀ call ∈ (callsOf events answers).writer, call.2 < 7) ∧
      ∀ steps ∈ (callsOf events answers).reader, steps < 5 := by
  obtain ⟨s, answers, hrun, ⟨c, h⟩, hputs, hlast⟩ := (machine p α).run_history (start p α) (fun _ _ => True)
    (fun _ => True) (fun _ answers s => (∃ c, Inv s c (logOf answers)) ∧
      (∀ value overwritten, .put value overwritten ∈ answers → overwritten = none) ∧
      ∀ answer, answers.getLast? = some answer → answer.Ok s (logOf answers))
    (fun _ _ _ => trivial) ⟨⟨_, inv_start⟩, by simp, by simp⟩ (by
      rintro - answers s event - - ⟨⟨c, h⟩, hputs, -⟩
      obtain ⟨s', answer, c', hstep, h', hok⟩ := h.step hp.2 event
      rw [← logOf_concat] at h' hok
      refine ⟨s', answer, hstep, ⟨c', h'⟩, ?_, ?_⟩
      · intro value overwritten hmem
        rcases List.mem_append.mp hmem with hmem | hmem
        · exact hputs value overwritten hmem
        · rw [← List.mem_singleton.mp hmem] at hok
          exact hok
      · intro last hlast
        rw [List.getLast?_concat] at hlast
        rwa [← Option.some.inj hlast]) events trivial (Lib.Machine.along_of_forall _ _ fun _ _ _ => trivial)
  have htied : Tied s (logOf answers) (callsOf events answers) := tied_run events tied_start hrun
  refine ⟨s, answers, hrun, ?_⟩
  rw [htied.log]
  refine ⟨?_, ?_, hputs, fun hready => (hlast _ hready).1 rfl, fun size hready => (hlast _ hready).2, htied.running⟩
  · rw [h.got, h.flushed]
    exact c.got_prefix_flushed
  · rw [h.flushed, h.puts]
    exact c.flushed_prefix_puts

/-- A block of two slots is filled, closed and left, and what is put in the next one is got from it. -/
def twoBlocks : List (Event ℕ) :=
  [.writerPut 5, .writer, .writerPut 6, .writer, .writerPut 7] ++ List.replicate 7 .writer ++
    [.writerFlush, .readerUpdate, .reader, .readerGet, .readerGet, .readerUpdate] ++ List.replicate 5 .reader ++
    [.readerGet]

example : ((machine 1 ℕ).run (start 1 ℕ) twoBlocks).map (fun run => (callsOf twoBlocks run.2).log.got) =
    some [5, 6, 7] := by decide

theorem flushed_in_order_two : ∃ s answers, (machine 1 ℕ).run (start 1 ℕ) twoBlocks = some (s, answers) ∧
    (callsOf twoBlocks answers).log.got <+: (callsOf twoBlocks answers).log.flushed ∧
    (callsOf twoBlocks answers).log.flushed <+: (callsOf twoBlocks answers).log.puts ∧
    (∀ value overwritten, .put value overwritten ∈ answers → overwritten = none) ∧
    (answers.getLast? = some (.ready 0) →
      (callsOf twoBlocks answers).log.before ≤ (callsOf twoBlocks answers).log.got.length) ∧
    (∀ size, answers.getLast? = some (.ready size) → size ≠ 0 →
      ∃ t value, s.step .readerGet = some (t, .got value)) ∧
    (∀ call ∈ (callsOf twoBlocks answers).writer, call.2 < 7) ∧
    ∀ steps ∈ (callsOf twoBlocks answers).reader, steps < 5 :=
  flushed_in_order ⟨by decide, by decide⟩ _

end TdUtils.SpscChainQueue
