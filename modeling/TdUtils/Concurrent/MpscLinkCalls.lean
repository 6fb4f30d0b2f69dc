import TdUtils.Concurrent.MpscLinkDeque

/-!
# Concurrent.MpscLinkCalls — the queue of one thread that makes one call after the other
-/

namespace TdUtils.MpscLinkQueue

variable {ν : Type} [DecidableEq ν]

/-- `push`, in which the first exchange succeeds. -/
def pushNode (q : MpscLinkQueue Unit ν) (node : ν) : Option (MpscLinkQueue Unit ν) :=
  match (machine Unit ν).run q [.push () node, .exchange ()] with
  | some (q, [.started, .pushed _]) => some q
  | _ => none

/-- The loop of the reader, in at most as many rounds. -/
def finish : ℕ → MpscLinkQueue Unit ν → Option (MpscLinkQueue Unit ν)
  | 0, q => match q.reader with
    | .idle => some q
    | _ => none
  | rounds + 1, q => match q.reader with
    | .idle => some q
    | _ => q.round.bind fun after => finish rounds after.1

def popNodes (rounds : ℕ) (q : MpscLinkQueue Unit ν) : Option (MpscLinkQueue Unit ν) :=
  (q.step .popAll).bind fun after => finish rounds after.1

def readNode (q : MpscLinkQueue Unit ν) : Option (MpscLinkQueue Unit ν × Option ν) :=
  match q.step .read with
  | some (q, .read node) => some (q, node)
  | _ => none

/-! ### What the calls do to the deque -/

variable {q : MpscLinkQueue Unit ν} {d : Deque ν}

/-- No call is going on. -/
structure Quiet (q : MpscLinkQueue Unit ν) (d : Deque ν) : Prop where
  rep : Rep q d
  reader : q.reader = .idle
  pusher : q.pusher () = .idle

omit [DecidableEq ν] in
theorem quiet_start : Quiet ({} : MpscLinkQueue Unit ν) ⟨[], []⟩ := ⟨rep_start, rfl, rfl⟩

omit [DecidableEq ν] in
theorem Quiet.not_used (h : Quiet q d) {node : ν} (hnode : node ∉ d.pending ++ d.nodes) : ¬Used q d node := by
  rintro (hused | ⟨i, hi⟩)
  · exact hnode hused
  · rw [h.pusher] at hi
    cases hi

/-- The state of `push` before its exchange. -/
def started (q : MpscLinkQueue Unit ν) (node : ν) : MpscLinkQueue Unit ν :=
  { q with next := Function.update q.next node q.head, pusher := Function.update q.pusher () (.exchange node) }

theorem exchange_started (q : MpscLinkQueue Unit ν) (node : ν) : (started q node).exchange () node =
    ({ started q node with
      head := some node
      pusher := Function.update (started q node).pusher () .idle }, .pushed node) := by
  unfold MpscLinkQueue.exchange
  exact if_pos (Function.update_self node q.head q.next).symm

theorem Quiet.pushNode (h : Quiet q d) {node : ν} (hnode : node ∉ d.pending ++ d.nodes) :
    ∃ t, pushNode q node = some t ∧ Quiet t { d with pending := d.pending ++ [node] } := by
  obtain ⟨d', hchange, hrep, -⟩ := (h.rep.push (i := ()) (h.not_used hnode)).change
  obtain rfl : d = d' := by cases hchange; rfl
  have hat : (started q node).pusher () = .exchange node := rfl
  have hexchanged := (Rep.exchange (s := started q node) hrep hat).change
  rw [exchange_started] at hexchanged
  obtain ⟨d', hchange', hrep', -⟩ := hexchanged
  obtain rfl : { d with pending := d.pending ++ [node] } = d' := by cases hchange'; rfl
  have hpush : q.step (.push () node) = some (started q node, .started) := by
    dsimp only [MpscLinkQueue.step]
    rw [h.pusher]
    rfl
  have hexchange : (started q node).step (.exchange ()) = some ((started q node).exchange () node) := by
    dsimp only [MpscLinkQueue.step]
    rw [hat]
  rw [exchange_started] at hexchange
  refine ⟨_, ?_, hrep', h.reader, rfl⟩
  have hrun : (machine Unit ν).run q [.push () node, .exchange ()] = some (_, [.started, .pushed node]) :=
    Lib.Machine.run_cons_of hpush (Lib.Machine.run_cons_of hexchange rfl)
  unfold MpscLinkQueue.pushNode
  rw [hrun]

theorem round_pusher {t : MpscLinkQueue Unit ν} {answer : Answer ν} (h : q.round = some (t, answer)) :
    t.pusher = q.pusher := by
  unfold round at h
  split at h
  · cases h
    rfl
  · obtain ⟨u, hattach, heq⟩ := Option.map_eq_some_iff.mp h
    cases heq
    unfold attach at hattach
    split at hattach
    · cases hattach
      rfl
    · obtain ⟨oldTail, -, rfl⟩ := Option.map_eq_some_iff.mp hattach
      rfl
  · cases h
    rfl
  · cases h
    rfl
  · cases h
    rfl

/-- The loop ends within the rounds. -/
theorem Rep.finish_quiet (rounds : ℕ) : ∀ {q : MpscLinkQueue Unit ν} {m : ℕ}, Rep q d → Rounds q m → m ≤ rounds →
    q.pusher () = .idle → ∃ t, finish rounds q = some t ∧ Quiet t d := by
  induction rounds with
  | zero =>
    intro q m h hm hle hpusher
    obtain rfl : m = 0 := Nat.le_zero.mp hle
    unfold Rounds at hm
    cases hat : q.reader with
    | idle =>
      refine ⟨q, ?_, h, hat, hpusher⟩
      unfold finish
      rw [hat]
    | reverse node head tail =>
      rw [hat] at hm
      obtain ⟨todo, -, hlen⟩ := hm
      cases hlen
    | count it res =>
      rw [hat] at hm
      obtain ⟨rest, -, hlen⟩ := hm
      cases hlen
  | succ rounds ih =>
    intro q m h hm hle hpusher
    by_cases hat : q.reader = .idle
    · refine ⟨q, ?_, h, hat, hpusher⟩
      unfold finish
      rw [hat]
    · obtain ⟨t, answer, hround, d', hchange, ht, -⟩ := h.round
      obtain rfl : d = d' := by cases hchange <;> rfl
      have hsucc : ∃ k, m = k + 1 := by
        unfold Rounds at hm
        cases hreader : q.reader with
        | idle => exact absurd hreader hat
        | reverse node head tail =>
          rw [hreader] at hm
          obtain ⟨todo, -, rfl⟩ := hm
          exact ⟨_, rfl⟩
        | count it res =>
          rw [hreader] at hm
          obtain ⟨rest, -, rfl⟩ := hm
          exact ⟨_, rfl⟩
      obtain ⟨k, rfl⟩ := hsucc
      have hkeeps : t.pusher () = .idle := by
        rw [round_pusher hround]
        exact hpusher
      obtain ⟨u, hfinish, hu⟩ := ih ht (h.round_rounds hround hm) (Nat.le_of_succ_le_succ hle) hkeeps
      refine ⟨u, ?_, hu⟩
      unfold finish
      cases hreader : q.reader with
      | idle => exact absurd hreader hat
      | _ =>
        dsimp only
        rw [hround]
        exact hfinish

theorem Quiet.popNodes (h : Quiet q d) {rounds : ℕ} (hlt : (d.pending ++ d.nodes).length < rounds) :
    ∃ t, popNodes rounds q = some t ∧ Quiet t ⟨[], d.nodes ++ d.pending⟩ := by
  obtain ⟨d', hchange, hrep, -⟩ := (h.rep.popAll h.reader).change
  have hstep : q.step .popAll = some (q.call .popAll) := by
    dsimp only [MpscLinkQueue.step]
    rw [h.reader]
  have hpusher : (q.call (.popAll : Event Unit ν)).1.pusher () = .idle := by
    unfold call
    dsimp only
    split <;> exact h.pusher
  have hanswer : (q.call (.popAll : Event Unit ν)).2 = .popped := by
    unfold call
    dsimp only
    split <;> rfl
  rw [hanswer] at hchange
  obtain rfl : (⟨[], d.nodes ++ d.pending⟩ : Deque ν) = d' := by cases hchange; rfl
  obtain ⟨m, hm, hrounds⟩ := hrep.exists_rounds
  have hle : m ≤ rounds := by
    rw [List.length_append] at hlt
    dsimp only at hm
    rw [List.length_append] at hm
    omega
  obtain ⟨t, hfinish, ht⟩ := hrep.finish_quiet rounds hrounds hle hpusher
  refine ⟨t, ?_, ht⟩
  unfold MpscLinkQueue.popNodes
  rw [hstep]
  exact hfinish

theorem Quiet.readNode (h : Quiet q d) :
    ∃ t, readNode q = some (t, d.nodes.head?) ∧ Quiet t { d with nodes := d.nodes.tail } := by
  obtain ⟨d', hchange, hrep, -⟩ := (h.rep.read h.reader).change
  have hstep : q.step .read = some (q.call .read) := by
    dsimp only [MpscLinkQueue.step]
    rw [h.reader]
  have hquiet : (q.call (.read : Event Unit ν)).1.pusher = q.pusher ∧ (q.call (.read : Event Unit ν)).1.reader = q.reader := by
    unfold call
    dsimp only
    split <;> exact ⟨rfl, rfl⟩
  obtain ⟨node, hanswer⟩ : ∃ node, (q.call (.read : Event Unit ν)).2 = .read node := by
    unfold call
    dsimp only
    split <;> exact ⟨_, rfl⟩
  rw [hanswer] at hchange
  obtain ⟨hnode, rfl⟩ : node = d.nodes.head? ∧ { d with nodes := d.nodes.tail } = d' := by
    cases hchange
    exact ⟨rfl, rfl⟩
  refine ⟨(q.call .read).1, ?_, hrep, hquiet.2.trans h.reader, (congrFun hquiet.1 ()).trans h.pusher⟩
  unfold MpscLinkQueue.readNode
  rw [hstep]
  rcases hcall : q.call (.read : Event Unit ν) with ⟨t, answer⟩
  rw [hcall] at hanswer
  obtain rfl : answer = .read node := hanswer
  exact congrArg (fun node => some (t, node)) hnode

end TdUtils.MpscLinkQueue
