import TdUtils.Flow.ByteFlowCalls

/-!
# Flow.ByteFlowSteps — the steps of a chain of flows

In most of them no flow finishes.  The first `finish` of a flow closes its parent, and the later ones do nothing.
-/

namespace TdUtils.ByteFlowChain

open ByteFlow

variable {n k : ℕ} {s t : ByteFlowChain n} {answers : List Answer} {calls : List Call} {call next : Call}

/-! ### Steps without an end -/

/-- The innermost call returns. -/
theorem Inv.returns (h : Inv s answers) (hcalls : s.calls = call :: calls) (hnot : call ≠ .closed call.flow)
    (hsame : Same s t) (ht : t.calls = calls) : Inv t (answers ++ [Answer.nothing]) := by
  have hnested := h.nested
  rw [hcalls] at hnested
  exact h.goes hcalls hnot hsame [] ht (fun _ hc => by cases hc) hnested.tail (fun _ hc => by cases hc)
    (fun _ hk => by cases hk) rfl fun _ hk => by cases hk

/-- The innermost call goes on as another call, which is not the end of `finish`. -/
theorem Inv.becomes (h : Inv s answers) (hcalls : s.calls = call :: calls) (hnot : call ≠ .closed call.flow)
    (hsame : Same s t) (ht : t.calls = next :: calls) (hnext : next ≠ .closed next.flow) (hle : call.flow ≤ next.flow)
    (hlt : next.flow < n) (answer : Answer) (hfinished : ∀ k, answer.finished k = true → (s.flow k).stopFlag = true)
    (hreached : answer.reached n = none) (hquiet : ∀ k, answer.calls k = true → (s.flow k).stopFlag = false) :
    Inv t (answers ++ [answer]) := by
  have hnested := h.nested
  rw [hcalls] at hnested
  refine h.goes hcalls hnot hsame [next] ht ?_ (hnested.replace hle) ?_ hfinished hreached hquiet
  · intro c hc
    rwa [List.mem_singleton.mp hc]
  · intro c hc
    rwa [List.mem_singleton.mp hc]

theorem Inv.flow_lt (h : Inv s answers) (hcalls : s.calls = call :: calls) : call.flow < n :=
  h.bound call (by rw [hcalls]; exact List.mem_cons_self)

theorem Inv.go_closeInput (h : Inv s answers) {status : Status} (hcalls : s.calls = .closeInput k status :: calls) :
    Inv ((s.returning calls).closeInput k status) (answers ++ [Answer.nothing]) := by
  have hlt := h.flow_lt hcalls
  cases status with
  | ok =>
    exact h.becomes hcalls (by simp) (((same_returning calls).trans (same_onFlow k
      (fun b => { b with isInputActive := false }) fun _ => ⟨rfl, rfl⟩)).trans (same_calling (.wakeup k))) rfl (by simp)
      (Nat.le_refl k) hlt .nothing (fun _ hk => by cases hk) rfl fun _ hk => by cases hk
  | error message =>
    exact h.becomes hcalls (by simp) ((same_returning calls).trans (same_calling (.finish k (.error message)))) rfl
      (by simp) (Nat.le_refl k) hlt .nothing
      (fun _ hk => by cases hk) rfl fun _ hk => by cases hk

theorem Inv.go_wakeup (h : Inv s answers) (hcalls : s.calls = .wakeup k :: calls) :
    Inv ((s.returning calls).wakeup k) (answers ++ [Answer.nothing]) := by
  have hlt := h.flow_lt hcalls
  have hsync : Same s ((s.returning calls).syncWithWriter k) := (same_returning calls).trans (same_syncWithWriter k)
  unfold wakeup
  split
  · exact h.returns hcalls (by simp) (same_returning calls) rfl
  split
  · split
    · exact h.returns hcalls (by simp) hsync rfl
    · exact h.becomes hcalls (by simp) (hsync.trans (same_calling (.finish k .ok))) rfl (by simp) (Nat.le_refl k) hlt
        .nothing (fun _ hk => by cases hk) rfl fun _ hk => by cases hk
  · exact h.becomes hcalls (by simp) (hsync.trans (same_calling (.check k))) rfl (by simp) (Nat.le_refl k) hlt
      .nothing (fun _ hk => by cases hk) rfl fun _ hk => by cases hk

theorem updateCanRead_calls (s : ByteFlowChain n) (k : ℕ) : (s.updateCanRead k).calls = s.calls := by
  unfold updateCanRead
  split <;> rfl

theorem Inv.go_check (h : Inv s answers) (hcalls : s.calls = .check k :: calls) :
    ∃ t answer, (s.returning calls).check k = some (t, answer) ∧ Inv t (answers ++ [answer]) := by
  have hlt := h.flow_lt hcalls
  have hsame : Same s ((s.returning calls).updateCanRead k) := (same_returning calls).trans (same_updateCanRead k)
  unfold check
  cases hstop : (s.flow k).stopFlag with
  | true =>
    rw [if_pos (show ((s.returning calls).flow k).stopFlag = true from hstop)]
    exact ⟨_, _, rfl, h.becomes hcalls (by simp) ((same_returning calls).trans (same_calling (.onOutputUpdated k))) rfl
      (by simp) (Nat.le_refl k) hlt .nothing (fun _ hk => by cases hk) rfl fun _ hk => by cases hk⟩
  | false =>
    have hparent : (((s.returning calls).updateCanRead k).flow k).parent = true :=
      (hsame.parent k).trans (h.parent k hstop)
    have hquiet : ∀ enters j, (Answer.checks k enters).calls j = true → (s.flow j).stopFlag = false := by
      intro enters j hj
      rw [← of_decide_eq_true hj]
      exact hstop
    have hnot : ¬((s.returning calls).flow k).stopFlag = true := by
      show ¬(s.flow k).stopFlag = true
      rw [hstop]
      exact Bool.false_ne_true
    rw [if_neg hnot]
    unfold updateCanWrite
    rw [if_pos hparent, Option.map_some]
    have hwrite := hsame.trans ((same_syncWithWriter (k + 1)).trans (same_onFlow k
      (fun b => b.updateCanWrite
        ((((s.returning calls).updateCanRead k).syncWithWriter (k + 1)).input (k + 1)).size)
      fun b => updateCanWrite_flags b _))
    have hrest := updateCanRead_calls (s.returning calls) k
    split
    · exact ⟨_, _, rfl, h.becomes hcalls (by simp) (hwrite.trans (same_calling (.onOutputUpdated k)))
        (congrArg (Call.onOutputUpdated k :: ·) hrest) (by simp) (Nat.le_refl k) hlt (.checks k false)
        (fun _ hk => by cases hk) rfl (hquiet false)⟩
    · exact ⟨_, _, rfl, h.becomes hcalls (by simp) ((hwrite.trans (same_onFlow k
        (fun b => { b with needSize := 0 }) fun _ => ⟨rfl, rfl⟩)).trans (same_calling (.loop k)))
        (congrArg (Call.loop k :: ·) hrest) (by simp) (Nat.le_refl k) hlt (.checks k true)
        (fun _ hk => by cases hk) rfl (hquiet true)⟩

theorem Inv.go_onOutputUpdated (h : Inv s answers) (hcalls : s.calls = .onOutputUpdated k :: calls) :
    Inv ((s.returning calls).onOutputUpdated k).1 (answers ++ [((s.returning calls).onOutputUpdated k).2]) := by
  unfold onOutputUpdated
  cases hparent : (s.flow k).parent with
  | false =>
    have hnot : ¬((s.returning calls).flow k).parent = true := by
      show ¬(s.flow k).parent = true
      rw [hparent]
      exact Bool.false_ne_true
    rw [if_neg hnot]
    exact h.returns hcalls (by simp) (same_returning calls) rfl
  | true =>
    have hstop : (s.flow k).stopFlag = false := h.not_stopped hcalls (by simp) hparent
    have hquiet : ∀ j, (Answer.wakes k).calls j = true → (s.flow j).stopFlag = false := by
      intro j hj
      rw [← of_decide_eq_true hj]
      exact hstop
    rw [if_pos (show ((s.returning calls).flow k).parent = true from hparent)]
    unfold wakeupAt
    split
    · rename_i hlt
      exact h.becomes hcalls (by simp) ((same_returning calls).trans (same_calling (.wakeup (k + 1)))) rfl (by simp)
        (Nat.le_succ k) hlt (.wakes k) (fun _ hk => by cases hk) rfl hquiet
    · have hnested := h.nested
      rw [hcalls] at hnested
      exact h.goes hcalls (by simp) ((same_returning calls).trans (same_syncWithWriter n)) [] rfl
        (fun _ hc => by cases hc) hnested.tail (fun _ hc => by cases hc) (fun _ hk => by cases hk) rfl hquiet

theorem Inv.act (h : Inv s answers) (hcalls : s.calls = .loop k :: calls) (action : Action) :
    Inv ((s.returning calls).act k action) (answers ++ [Answer.nothing]) := by
  have hlt := h.flow_lt hcalls
  have hnested := h.nested
  rw [hcalls] at hnested
  have hloop : ∀ t : ByteFlowChain n, Same s t → t.calls = .loop k :: calls → Inv t (answers ++ [Answer.nothing]) :=
    fun t hsame ht => h.becomes hcalls (by simp) hsame ht (by simp) (Nat.le_refl k) hlt .nothing
      (fun _ hk => by cases hk) rfl fun _ hk => by cases hk
  have hfinish : ∀ (t : ByteFlowChain n) (status : Status), Same s t → t.calls = .finish k status :: .loop k :: calls →
      Inv t (answers ++ [Answer.nothing]) := by
    intro t status hsame ht
    refine h.goes hcalls (by simp) hsame [.finish k status, .loop k] ht ?_ ?_ ?_ (fun _ hk => by cases hk) rfl
      fun _ hk => by cases hk
    · intro c hc
      rcases List.mem_pair.mp hc with rfl | rfl <;> exact hlt
    · exact hnested.push (Nat.le_refl k) (fun hc => by cases hc)
    · intro c hc
      rcases List.mem_pair.mp hc with rfl | rfl <;> simp
  cases action with
  | consume size => exact hloop _ (((same_returning calls).trans (same_onInput k _)).trans (same_calling _)) rfl
  | produce size => exact hloop _ (((same_returning calls).trans (same_onInput (k + 1) _)).trans (same_calling _)) rfl
  | setNeedSize needSize =>
    exact hloop _ (((same_returning calls).trans (same_onFlow k (fun b => { b with needSize := needSize })
      fun _ => ⟨rfl, rfl⟩)).trans (same_calling _)) rfl
  | finish status =>
    exact hfinish _ status (((same_returning calls).trans (same_calling (.loop k))).trans (same_calling _)) rfl
  | consumeInput =>
    have hwaits : Same s ((s.returning calls).onFlow k fun b => { b with waitingFlag := true }) :=
      (same_returning calls).trans (same_onFlow k _ fun _ => ⟨rfl, rfl⟩)
    dsimp only [ByteFlowChain.act]
    split
    · exact hloop _ (hwaits.trans (same_calling (.loop k))) rfl
    · exact hfinish _ .ok ((hwaits.trans (same_calling (.loop k))).trans (same_calling (.finish k .ok))) rfl
  | «return» result =>
    have hrest : ((s.returning calls).looped k result).calls = calls := by
      unfold looped
      split
      · rfl
      · dsimp only
        split <;> rfl
    exact h.becomes hcalls (by simp) (((same_returning calls).trans (same_looped k result)).trans (same_calling (.check k)))
      (congrArg (Call.check k :: ·) hrest) (by simp) (Nat.le_refl k) hlt .nothing (fun _ hk => by cases hk) rfl
      fun _ hk => by cases hk

/-! ### The end of a flow -/

theorem Inv.go_closed (h : Inv s answers) (hcalls : s.calls = .closed k :: calls) :
    Inv ((s.returning calls).onFlow k fun b => { b with parent := false }) (answers ++ [Answer.nothing]) := by
  have hstop : (s.flow k).stopFlag = true := h.closing k (by rw [hcalls]; exact List.mem_cons_self)
  have hnested := h.nested
  have hbound := h.bound
  rw [hcalls] at hnested hbound
  have hflag : ∀ j, ((((s.returning calls).onFlow k fun b => { b with parent := false }).flow j).stopFlag) =
      (s.flow j).stopFlag := by
    intro j
    show (Function.update s.flow k _ j).stopFlag = _
    by_cases hj : j = k
    · rw [hj, Function.update_self]
      rfl
    · rw [Function.update_of_ne hj]
  have hother : ∀ j, j ≠ k →
      ((s.returning calls).onFlow k fun b => { b with parent := false }).flow j = s.flow j :=
    fun j hj => Function.update_of_ne hj _ _
  refine ⟨fun c hc => hbound c (List.mem_cons_of_mem _ hc), hnested.tail, fun j hj => ?_, fun j hj hparent => ?_,
    fun j hj => ?_, fun j => ?_, h.same.quiet, h.same.sink, fun hactive => ?_⟩
  · rw [hflag j] at hj
    by_cases hjk : j = k
    · rw [hjk, hstop] at hj
      cases hj
    · rw [hother j hjk]
      exact h.parent j hj
  · rw [hflag j] at hj
    by_cases hjk : j = k
    · rw [hjk] at hparent
      have hfalse : (((s.returning calls).onFlow k fun b => { b with parent := false }).flow k).parent = false := by
        show (Function.update s.flow k _ k).parent = _
        rw [Function.update_self]
      rw [hfalse] at hparent
      cases hparent
    · rw [hother j hjk] at hparent
      have hmem := h.closed j hj hparent
      rw [hcalls] at hmem
      rcases List.mem_cons.mp hmem with heq | hmem
      · cases heq
        exact absurd rfl hjk
      · exact hmem
  · rw [hflag j]
    exact h.closing j (by rw [hcalls]; exact List.mem_cons_of_mem _ hj)
  · rw [hflag j]
    exact h.same.finished j
  · rcases h.stopped hactive with hsource | ⟨j, hj, hstop⟩
    · exact .inl hsource
    · exact .inr ⟨j, hj, (hflag j).trans hstop⟩

/-- What a state looks like after the first `finish` of a flow. -/
structure Finishes (s : ByteFlowChain n) (k : ℕ) (status : Status) (calls : List Call) (t : ByteFlowChain n) :
    Prop where
  stopFlag : ∀ j, (t.flow j).stopFlag = if j = k then true else (s.flow j).stopFlag
  parent : ∀ j, (t.flow j).parent = (s.flow j).parent
  source : t.source = s.source
  next : (k + 1 < n ∧ t.sink = s.sink ∧ t.calls = .closeInput (k + 1) status :: .closed k :: calls) ∨
    (k + 1 = n ∧ t.sink = ⟨false, status⟩ ∧ t.calls = .closed k :: calls)

theorem Inv.finishes (h : Inv s answers) {status : Status} (hcalls : s.calls = .finish k status :: calls)
    (hstop : (s.flow k).stopFlag = false) (ht : Finishes s k status calls t) :
    Inv t (answers ++ [Answer.finishes k status true]) := by
  have hlt := h.flow_lt hcalls
  have hnested := h.nested
  have hbound := h.bound
  rw [hcalls] at hnested hbound
  have hclosing : Nested (.closed k :: calls) := hnested.replace (Nat.le_refl k)
  have hactive : s.sink.active = true ∨ k + 1 < n := by
    cases hactive : s.sink.active with
    | true => exact .inl rfl
    | false =>
      rcases h.stopped hactive with ⟨hn, -⟩ | ⟨j, hj, hstop'⟩
      · exact absurd hlt (by rw [hn]; exact Nat.not_lt_zero _)
      · refine .inr (Nat.lt_of_le_of_ne hlt fun heq => ?_)
        have hjk : j = k := Nat.succ.inj (hj.trans heq.symm)
        rw [hjk, hstop] at hstop'
        cases hstop'
  have hno : ∀ answer ∈ answers, answer.finished k = false := by
    intro answer hanswer
    cases hk : answer.finished k with
    | false => rfl
    | true =>
      have htrue := (h.finished k).mpr ⟨answer, hanswer, hk⟩
      rw [hstop] at htrue
      cases htrue
  have hclosed : ∀ j, .closed j ∈ t.calls ↔ j = k ∨ .closed j ∈ s.calls := by
    intro j
    rw [hcalls]
    rcases ht.next with ⟨-, -, hnext⟩ | ⟨-, -, hnext⟩ <;> rw [hnext] <;> simp
  refine ⟨?_, ?_, fun j hj => ?_, fun j hj hparent => ?_, fun j hj => ?_, fun j => ?_, ?_, ?_, fun hinactive => ?_⟩
  · rcases ht.next with ⟨hk, -, hnext⟩ | ⟨-, -, hnext⟩ <;> rw [hnext] <;> intro c hc
    · rcases List.mem_cons.mp hc with rfl | hc
      · exact hk
      · rcases List.mem_cons.mp hc with rfl | hc
        · exact hlt
        · exact hbound c (List.mem_cons_of_mem _ hc)
    · rcases List.mem_cons.mp hc with rfl | hc
      · exact hlt
      · exact hbound c (List.mem_cons_of_mem _ hc)
  · rcases ht.next with ⟨-, -, hnext⟩ | ⟨-, -, hnext⟩ <;> rw [hnext]
    · exact hclosing.push (Nat.le_succ k) fun _ => Nat.lt_succ_self k
    · exact hclosing
  · rw [ht.parent j]
    rw [ht.stopFlag j] at hj
    split at hj
    · cases hj
    · exact h.parent j hj
  · rw [hclosed j]
    rw [ht.stopFlag j] at hj
    rw [ht.parent j] at hparent
    split at hj
    · rename_i heq
      exact .inl heq
    · exact .inr (h.closed j hj hparent)
  · rw [ht.stopFlag j]
    split
    · rfl
    · rename_i hne
      exact h.closing j (((hclosed j).mp hj).resolve_left hne)
  · rw [ht.stopFlag j]
    by_cases hj : j = k
    · rw [if_pos hj, hj]
      exact ⟨fun _ => ⟨_, List.mem_append_right _ (List.mem_singleton.mpr rfl), decide_eq_true rfl⟩, fun _ => rfl⟩
    · rw [if_neg hj, h.finished j]
      refine ⟨fun ⟨answer, hanswer, hk⟩ => ⟨answer, List.mem_append_left _ hanswer, hk⟩, ?_⟩
      rintro ⟨answer, hanswer, hk⟩
      rcases List.mem_append.mp hanswer with hanswer | hanswer
      · exact ⟨answer, hanswer, hk⟩
      · rw [List.mem_singleton.mp hanswer] at hk
        exact absurd (of_decide_eq_true hk).symm hj
  · refine h.quiet.concat fun j hj => ?_
    obtain ⟨answer, hanswer, hfinished⟩ := hj
    show (decide (k = j) && true) = false
    rw [Bool.and_true]
    refine decide_eq_false fun heq => ?_
    rw [← heq, hno answer hanswer] at hfinished
    cases hfinished
  · rw [List.filterMap_append, h.sink, List.filterMap_cons, List.filterMap_nil]
    rcases ht.next with ⟨hk, hsink, -⟩ | ⟨hk, hsink, -⟩
    · rw [hsink, show (Answer.finishes k status true).reached n = none from if_neg fun hc => by omega]
      exact List.append_nil _
    · have hon := hactive.resolve_right (by omega)
      rw [hsink, hon, show (Answer.finishes k status true).reached n = some status from if_pos ⟨hk, rfl⟩]
      rfl
  · rcases ht.next with ⟨-, hsink, -⟩ | ⟨hk, -, -⟩
    · rw [hsink] at hinactive
      rcases h.stopped hinactive with ⟨hn, hsource⟩ | ⟨j, hj, hstop'⟩
      · exact .inl ⟨hn, ht.source.trans hsource⟩
      · refine .inr ⟨j, hj, ?_⟩
        rw [ht.stopFlag j, hstop']
        split <;> rfl
    · refine .inr ⟨k, hk, ?_⟩
      rw [ht.stopFlag k, if_pos rfl]

end TdUtils.ByteFlowChain
