import TdUtils.Flow.ByteFlowChain

/-!
# Flow.ByteFlowCalls — a flow that has finished calls nothing, and the sink is closed once

The calls in progress are nested along the chain: a flow never calls what comes before it.  So nobody sees a flow
between the `close_input` of its parent and the end of its `finish`.
-/

namespace TdUtils.ByteFlowChain

open ByteFlow

/-! ### Nested calls -/

/-- The flow that is called. -/
def Call.flow : Call → ℕ
  | .closeInput k _ | .wakeup k | .check k | .loop k | .onOutputUpdated k | .finish k _ | .closed k => k

/-- What is called above a call is further down the chain, in any case above a `close_input` of the parent. -/
def Nested (calls : List Call) : Prop :=
  calls.Pairwise fun above below => below.flow ≤ above.flow ∧ (below = .closed below.flow → below.flow < above.flow)

variable {calls : List Call} {call call' : Call}

theorem Nested.tail (h : Nested (call :: calls)) : Nested calls := List.Pairwise.of_cons h

/-- The innermost call goes on, further down the chain or where it is. -/
theorem Nested.replace (h : Nested (call :: calls)) (hle : call.flow ≤ call'.flow) : Nested (call' :: calls) := by
  obtain ⟨hall, hcalls⟩ := List.pairwise_cons.mp h
  refine List.pairwise_cons.mpr ⟨fun below hbelow => ?_, hcalls⟩
  obtain ⟨hflow, hclosed⟩ := hall below hbelow
  exact ⟨Nat.le_trans hflow hle, fun hc => Nat.lt_of_lt_of_le (hclosed hc) hle⟩

/-- The innermost call waits for another. -/
theorem Nested.push (h : Nested (call :: calls)) (hle : call.flow ≤ call'.flow)
    (hclosed : call = .closed call.flow → call.flow < call'.flow) : Nested (call' :: call :: calls) := by
  refine List.pairwise_cons.mpr ⟨fun below hbelow => ?_, h⟩
  rcases List.mem_cons.mp hbelow with rfl | hbelow
  · exact ⟨hle, hclosed⟩
  · exact (List.pairwise_cons.mp (h.replace hle)).1 below hbelow

/-- Below a call of a flow there is no `close_input` of its parent. -/
theorem Nested.not_closed (h : Nested (call :: calls)) : Call.closed call.flow ∉ calls := by
  intro hmem
  have hlt := ((List.pairwise_cons.mp h).1 _ hmem).2 rfl
  exact absurd hlt (Nat.lt_irrefl _)

/-! ### The flags -/

variable {n : ℕ} {s t u : ByteFlowChain n} {answers : List Answer}

/-- No flow finishes and nothing is closed. -/
structure Same (s t : ByteFlowChain n) : Prop where
  parent : ∀ k, (t.flow k).parent = (s.flow k).parent
  stopFlag : ∀ k, (t.flow k).stopFlag = (s.flow k).stopFlag
  sink : t.sink = s.sink
  source : t.source = s.source

theorem Same.refl (s : ByteFlowChain n) : Same s s := ⟨fun _ => rfl, fun _ => rfl, rfl, rfl⟩

theorem Same.trans (h : Same s t) (h' : Same t u) : Same s u where
  parent := fun k => (h'.parent k).trans (h.parent k)
  stopFlag := fun k => (h'.stopFlag k).trans (h.stopFlag k)
  sink := h'.sink.trans h.sink
  source := h'.source.trans h.source

theorem same_returning (calls : List Call) : Same s (s.returning calls) := ⟨fun _ => rfl, fun _ => rfl, rfl, rfl⟩

theorem same_calling (call : Call) : Same s (s.calling call) := ⟨fun _ => rfl, fun _ => rfl, rfl, rfl⟩

theorem same_onInput (k : ℕ) (f : Input → Input) : Same s (s.onInput k f) := ⟨fun _ => rfl, fun _ => rfl, rfl, rfl⟩

theorem same_syncWithWriter (k : ℕ) : Same s (s.syncWithWriter k) := same_onInput k _

theorem same_onFlow (k : ℕ) (f : Base → Base)
    (hf : ∀ b, (f b).parent = b.parent ∧ (f b).stopFlag = b.stopFlag) : Same s (s.onFlow k f) := by
  refine ⟨fun j => ?_, fun j => ?_, rfl, rfl⟩
  · show (Function.update s.flow k _ j).parent = _
    by_cases hj : j = k
    · rw [hj, Function.update_self]
      exact (hf _).1
    · rw [Function.update_of_ne hj]
  · show (Function.update s.flow k _ j).stopFlag = _
    by_cases hj : j = k
    · rw [hj, Function.update_self]
      exact (hf _).2
    · rw [Function.update_of_ne hj]

theorem updateCanRead_flags (b : Base) (size : ℕ) :
    (b.updateCanRead size).parent = b.parent ∧ (b.updateCanRead size).stopFlag = b.stopFlag := by
  unfold Base.updateCanRead
  split
  · dsimp only
    split <;> split <;> exact ⟨rfl, rfl⟩
  · exact ⟨rfl, rfl⟩

theorem updateCanWrite_flags (b : Base) (size : ℕ) :
    (b.updateCanWrite size).parent = b.parent ∧ (b.updateCanWrite size).stopFlag = b.stopFlag := by
  unfold Base.updateCanWrite
  dsimp only
  split <;> split <;> exact ⟨rfl, rfl⟩

theorem same_updateCanRead (k : ℕ) : Same s (s.updateCanRead k) := by
  unfold updateCanRead
  split
  · exact (same_syncWithWriter k).trans (same_onFlow k _ fun b => updateCanRead_flags b _)
  · exact same_onFlow k _ fun b => updateCanRead_flags b _

theorem same_looped (k : ℕ) (result : Bool) : Same s (s.looped k result) := by
  unfold looped
  split
  · exact .refl s
  · dsimp only
    split
    · exact (same_syncWithWriter k).trans (same_onFlow k _ fun _ => ⟨rfl, rfl⟩)
    · exact same_syncWithWriter k

/-! ### The invariant -/

/-- Nothing is called by a flow that has finished. -/
def Quiet (answers : List Answer) : Prop :=
  answers.Pairwise fun earlier later => ∀ k, earlier.finished k = true → later.calls k = false

structure Inv (s : ByteFlowChain n) (answers : List Answer) : Prop where
  bound : ∀ call ∈ s.calls, call.flow < n
  nested : Nested s.calls
  parent : ∀ k, (s.flow k).stopFlag = false → (s.flow k).parent = true
  closed : ∀ k, (s.flow k).stopFlag = true → (s.flow k).parent = true → .closed k ∈ s.calls
  closing : ∀ k, .closed k ∈ s.calls → (s.flow k).stopFlag = true
  finished : ∀ k, (s.flow k).stopFlag = true ↔ ∃ answer ∈ answers, answer.finished k = true
  quiet : Quiet answers
  sink : answers.filterMap (Answer.reached n) = if s.sink.active then [] else [s.sink.status]
  stopped : s.sink.active = false → (n = 0 ∧ s.source = false) ∨ ∃ k, k + 1 = n ∧ (s.flow k).stopFlag = true

theorem Quiet.concat (h : Quiet answers) {answer : Answer}
    (hanswer : ∀ k, (∃ earlier ∈ answers, earlier.finished k = true) → answer.calls k = false) :
    Quiet (answers ++ [answer]) := by
  refine List.pairwise_append.mpr ⟨h, List.pairwise_singleton _ _, fun earlier hearlier later hlater k hk => ?_⟩
  rw [List.mem_singleton.mp hlater]
  exact hanswer k ⟨earlier, hearlier, hk⟩

/-- A step in which no flow finishes for the first time. -/
theorem Inv.moves (h : Inv s answers) (hsame : Same s t) {answer : Answer} (hbound : ∀ call ∈ t.calls, call.flow < n)
    (hnested : Nested t.calls) (hclosed : ∀ k, .closed k ∈ s.calls ↔ .closed k ∈ t.calls)
    (hfinished : ∀ k, answer.finished k = true → (s.flow k).stopFlag = true) (hreached : answer.reached n = none)
    (hcalls : ∀ k, answer.calls k = true → (s.flow k).stopFlag = false) : Inv t (answers ++ [answer]) where
  bound := hbound
  nested := hnested
  parent := by
    intro k hk
    rw [hsame.parent k]
    exact h.parent k (by rwa [← hsame.stopFlag k])
  closed := by
    intro k hk hparent
    rw [hsame.stopFlag k] at hk
    rw [hsame.parent k] at hparent
    exact (hclosed k).mp (h.closed k hk hparent)
  closing := by
    intro k hk
    rw [hsame.stopFlag k]
    exact h.closing k ((hclosed k).mpr hk)
  finished := by
    intro k
    rw [hsame.stopFlag k, h.finished k]
    refine ⟨fun ⟨earlier, hearlier, hk⟩ => ⟨earlier, List.mem_append_left _ hearlier, hk⟩, ?_⟩
    rintro ⟨earlier, hearlier, hk⟩
    rcases List.mem_append.mp hearlier with hearlier | hearlier
    · exact ⟨earlier, hearlier, hk⟩
    · rw [List.mem_singleton.mp hearlier] at hk
      exact (h.finished k).mp (hfinished k hk)
  quiet := by
    refine h.quiet.concat fun k hk => ?_
    cases hcall : answer.calls k with
    | false => rfl
    | true =>
      have hstop := hcalls k hcall
      rw [(h.finished k).mpr hk] at hstop
      cases hstop
  sink := by
    rw [List.filterMap_append, h.sink, hsame.sink]
    show _ ++ List.filterMap (Answer.reached n) [answer] = _
    rw [List.filterMap_cons, hreached, List.filterMap_nil, List.append_nil]
  stopped := by
    intro hactive
    rw [hsame.sink] at hactive
    rcases h.stopped hactive with ⟨hn, hsource⟩ | ⟨k, hk, hstop⟩
    · exact .inl ⟨hn, hsame.source.trans hsource⟩
    · exact .inr ⟨k, hk, (hsame.stopFlag k).trans hstop⟩

/-- The innermost call ends, or is replaced by others, and no flow finishes for the first time. -/
theorem Inv.goes (h : Inv s answers) (hcalls : s.calls = call :: calls) (hnot : call ≠ .closed call.flow)
    (hsame : Same s t) (new : List Call) (ht : t.calls = new ++ calls) (hbound : ∀ c ∈ new, c.flow < n)
    (hnested : Nested (new ++ calls)) (hnew : ∀ c ∈ new, c ≠ .closed c.flow) {answer : Answer}
    (hfinished : ∀ k, answer.finished k = true → (s.flow k).stopFlag = true) (hreached : answer.reached n = none)
    (hquiet : ∀ k, answer.calls k = true → (s.flow k).stopFlag = false) : Inv t (answers ++ [answer]) := by
  have hold := h.bound
  rw [hcalls] at hold
  refine h.moves hsame ?_ ?_ (fun k => ?_) hfinished hreached hquiet
  · rw [ht]
    intro c hc
    rcases List.mem_append.mp hc with hc | hc
    · exact hbound c hc
    · exact hold c (List.mem_cons_of_mem _ hc)
  · rwa [ht]
  · rw [hcalls, ht, List.mem_cons, List.mem_append]
    constructor
    · rintro (rfl | hk)
      · exact absurd rfl hnot
      · exact .inr hk
    · rintro (hk | hk)
      · exact absurd rfl (hnew _ hk)
      · exact .inr hk

/-- Nothing happens. -/
theorem Inv.same (h : Inv s answers) : Inv s (answers ++ [Answer.nothing]) :=
  h.moves (.refl s) h.bound h.nested (fun _ => .rfl) (fun _ hk => by cases hk) rfl fun _ hk => by cases hk

/-- A flow that is called, and has finished, has closed its parent. -/
theorem Inv.not_stopped (h : Inv s answers) (hcalls : s.calls = call :: calls) (hnot : call ≠ .closed call.flow)
    (hparent : (s.flow call.flow).parent = true) : (s.flow call.flow).stopFlag = false := by
  cases hstop : (s.flow call.flow).stopFlag with
  | false => rfl
  | true =>
    have hmem := h.closed _ hstop hparent
    have hnested := h.nested
    rw [hcalls] at hmem hnested
    rcases List.mem_cons.mp hmem with heq | hmem
    · exact absurd heq.symm hnot
    · exact absurd hmem hnested.not_closed

end TdUtils.ByteFlowChain
