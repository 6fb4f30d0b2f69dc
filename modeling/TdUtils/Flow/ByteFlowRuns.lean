import Mathlib.Algebra.Group.Nat.Defs
import TdUtils.Flow.ByteFlowSteps

/-!
# Flow.ByteFlowRuns — chains of flows, over whole runs

An error is carried down the chain at once, through flows that have not finished.
-/

namespace TdUtils.ByteFlowChain

open ByteFlow

variable {n k : ℕ} {s t : ByteFlowChain n} {answers : List Answer} {calls : List Call}

/-! ### `finish` and `close_input` -/

theorem Inv.go_finish (h : Inv s answers) {status : Status} (hcalls : s.calls = .finish k status :: calls) :
    ∃ t closes, (s.returning calls).finish k status = some (t, .finishes k status closes) ∧
      Inv t (answers ++ [Answer.finishes k status closes]) ∧ ((s.flow k).stopFlag = false → Finishes s k status calls t) := by
  have hlt := h.flow_lt hcalls
  have hflag : ∀ j, ((((s.returning calls).onFlow k fun b => { b with stopFlag := true, needSize := 0 }).flow j).stopFlag =
      if j = k then true else (s.flow j).stopFlag) ∧
      (((s.returning calls).onFlow k fun b => { b with stopFlag := true, needSize := 0 }).flow j).parent =
        (s.flow j).parent := by
    intro j
    show ((Function.update s.flow k _ j).stopFlag = _) ∧ (Function.update s.flow k _ j).parent = _
    by_cases hj : j = k
    · rw [hj, Function.update_self, if_pos rfl]
      exact ⟨rfl, rfl⟩
    · rw [Function.update_of_ne hj, if_neg hj]
      exact ⟨rfl, rfl⟩
  unfold finish
  dsimp only
  rw [(hflag k).2]
  cases hparent : (s.flow k).parent with
  | true =>
    have hstop : (s.flow k).stopFlag = false := h.not_stopped hcalls (by simp) hparent
    rw [if_pos rfl]
    unfold closeInputAt
    by_cases hnext : k + 1 < n
    · rw [if_pos hnext]
      have ht : Finishes s k status calls
          ((((s.returning calls).onFlow k fun b => { b with stopFlag := true, needSize := 0 }).calling
            (.closed k)).calling (.closeInput (k + 1) status)) :=
        ⟨fun j => (hflag j).1, fun j => (hflag j).2, rfl, .inl ⟨hnext, rfl, rfl⟩⟩
      exact ⟨_, _, rfl, h.finishes hcalls hstop ht, fun _ => ht⟩
    · have hn : k + 1 = n := Nat.le_antisymm hlt (Nat.le_of_not_lt hnext)
      have hactive : s.sink.active = true := by
        cases hactive : s.sink.active with
        | true => rfl
        | false =>
          rcases h.stopped hactive with ⟨hzero, -⟩ | ⟨j, hj, hstop'⟩
          · exact absurd (hn.trans hzero) (Nat.succ_ne_zero k)
          · rw [Nat.succ.inj (hj.trans hn.symm), hstop] at hstop'
            cases hstop'
      have hsink : (((s.returning calls).onFlow k fun b => { b with stopFlag := true, needSize := 0 }).calling
          (.closed k)).sink.active = true := hactive
      rw [if_neg hnext, if_pos hsink]
      have ht : Finishes s k status calls
          ({ ((s.returning calls).onFlow k fun b => { b with stopFlag := true, needSize := 0 }).calling
            (.closed k) with sink := ⟨false, status⟩ } : ByteFlowChain n) :=
        ⟨fun j => (hflag j).1, fun j => (hflag j).2, rfl, .inr ⟨hn, rfl, rfl⟩⟩
      have ht' : Finishes s k status calls
          (({ ((s.returning calls).onFlow k fun b => { b with stopFlag := true, needSize := 0 }).calling
            (.closed k) with sink := ⟨false, status⟩ } : ByteFlowChain n).syncWithWriter n) :=
        ⟨ht.stopFlag, ht.parent, ht.source, ht.next⟩
      exact ⟨_, _, rfl, h.finishes hcalls hstop ht', fun _ => ht'⟩
  | false =>
    have hstop : (s.flow k).stopFlag = true := by
      cases hstop : (s.flow k).stopFlag with
      | true => rfl
      | false =>
        rw [h.parent k hstop] at hparent
        cases hparent
    have hsame : Same s ((s.returning calls).onFlow k fun b => { b with stopFlag := true, needSize := 0 }) := by
      refine ⟨fun j => (hflag j).2, fun j => ?_, rfl, rfl⟩
      rw [(hflag j).1]
      split
      · rename_i heq
        rw [heq, hstop]
      · rfl
    rw [if_neg Bool.false_ne_true]
    have hnested := h.nested
    rw [hcalls] at hnested
    refine ⟨_, _, rfl, ?_, fun hfalse => ?_⟩
    · refine h.goes hcalls (by simp) hsame [] rfl (fun _ hc => by cases hc) hnested.tail (fun _ hc => by cases hc)
        (fun j hj => ?_) (if_neg fun hc => by cases hc.2) fun j hj => ?_
      · rw [← of_decide_eq_true hj]
        exact hstop
      · rw [show (Answer.finishes k status false).calls j = false from Bool.and_false _] at hj
        cases hj
    · rw [hstop] at hfalse
      cases hfalse

/-- The sink has this status, or the call that brings it is next, above flows that have not finished. -/
def Underway (s : ByteFlowChain n) (status : Status) : Prop :=
  s.sink = ⟨false, status⟩ ∨ ∃ j rest, (s.calls = .closeInput j status :: rest ∨ s.calls = .finish j status :: rest) ∧
    ∀ i, j ≤ i → (s.flow i).stopFlag = false

theorem Finishes.underway {status : Status} (ht : Finishes s k status calls t)
    (hstop : ∀ i, k ≤ i → (s.flow i).stopFlag = false) : Underway t status := by
  rcases ht.next with ⟨-, -, hcalls⟩ | ⟨-, hsink, -⟩
  · refine .inr ⟨k + 1, _, .inl hcalls, fun i hi => ?_⟩
    rw [ht.stopFlag i, if_neg (by omega)]
    exact hstop i (by omega)
  · exact .inl hsink

/-- The sink is closed once. -/
theorem Inv.sink_stays (h : Inv s answers) {answer : Answer} (h' : Inv t (answers ++ [answer])) {status : Status}
    (hsink : s.sink = ⟨false, status⟩) : t.sink = ⟨false, status⟩ := by
  have hlog := h'.sink
  rw [List.filterMap_append, h.sink, hsink] at hlog
  cases hactive : t.sink.active with
  | true =>
    rw [hactive] at hlog
    cases hlog
  | false =>
    rw [hactive] at hlog
    have hstatus : status = t.sink.status := (List.cons.inj hlog).1
    rw [hstatus, ← hactive]

/-- A step is answered, and an error that a flow finishes with is on its way to the sink. -/
structure Steps (s : ByteFlowChain n) (answers : List Answer) (r : Option (ByteFlowChain n × Answer)) : Prop where
  inv : ∃ t answer, r = some (t, answer) ∧ Inv t (answers ++ [answer])
  begins : ∀ t k status closes, r = some (t, .finishes k status closes) →
    (∀ i, k ≤ i → (s.flow i).stopFlag = false) → Underway t status

theorem Steps.silent {answer : Answer} (h : Inv t (answers ++ [answer])) (hno : ∀ k, answer.finished k = false) :
    Steps s answers (some (t, answer)) := by
  refine ⟨⟨t, answer, rfl, h⟩, fun u k status closes heq => ?_⟩
  cases heq
  exact absurd (hno k) (by simp [Answer.finished])

theorem Inv.go (h : Inv s answers) {call : Call} (hcalls : s.calls = call :: calls) :
    Steps s answers ((s.returning calls).go call) := by
  cases call with
  | closeInput k status => exact .silent (h.go_closeInput hcalls) fun _ => rfl
  | wakeup k => exact .silent (h.go_wakeup hcalls) fun _ => rfl
  | check k =>
    obtain ⟨t, answer, hcheck, hinv⟩ := h.go_check hcalls
    refine ⟨⟨t, answer, hcheck, hinv⟩, fun u j status closes heq => ?_⟩
    dsimp only [ByteFlowChain.go, ByteFlowChain.check] at heq
    split at heq
    · cases heq
    · obtain ⟨v, -, hv⟩ := Option.map_eq_some_iff.mp heq
      split at hv <;> cases hv
  | loop k =>
    have hsame : (s.returning calls).calling (.loop k) = s := by
      unfold returning calling
      rw [← hcalls]
    refine .silent ?_ fun _ => rfl
    rw [hsame]
    exact h.same
  | onOutputUpdated k =>
    refine ⟨⟨_, _, rfl, h.go_onOutputUpdated hcalls⟩, fun u j status closes heq => ?_⟩
    dsimp only [ByteFlowChain.go, ByteFlowChain.onOutputUpdated] at heq
    split at heq <;> cases heq
  | finish k status =>
    obtain ⟨t, closes, hfinish, hinv, hfirst⟩ := h.go_finish hcalls
    refine ⟨⟨t, _, hfinish, hinv⟩, fun u j status' closes' heq hstop => ?_⟩
    cases hfinish.symm.trans heq
    exact (hfirst (hstop k (Nat.le_refl k))).underway hstop
  | closed k => exact .silent (h.go_closed hcalls) fun _ => rfl

theorem Inv.step_wakeup (h : Inv s answers) (hcalls : s.calls = []) :
    Inv (s.wakeupAt 0) (answers ++ [Answer.nothing]) := by
  have hclosed : ∀ k, Call.closed k ∉ s.calls := by
    intro k hk
    rw [hcalls] at hk
    cases hk
  unfold wakeupAt
  split
  · rename_i hn
    have hnew : (s.calling (.wakeup 0)).calls = [.wakeup 0] := congrArg (Call.wakeup 0 :: ·) hcalls
    refine h.moves (same_calling (.wakeup 0)) ?_ ?_ (fun k => ?_) (fun _ hk => by cases hk) rfl fun _ hk => by cases hk
    · rw [hnew]
      intro c hc
      rwa [List.mem_singleton.mp hc]
    · rw [hnew]
      exact List.pairwise_singleton _ _
    · rw [hnew]
      exact ⟨fun hk => absurd hk (hclosed k), fun hk => by cases List.mem_singleton.mp hk⟩
  · exact h.moves (same_syncWithWriter n) h.bound h.nested (fun _ => .rfl) (fun _ hk => by cases hk) rfl
      fun _ hk => by cases hk

/-- The source is closed once, and then the sink if there are no flows. -/
theorem Inv.step_closeInput (h : Inv s answers) (hcalls : s.calls = []) (hsource : s.source = true) (status : Status) :
    ∃ t, ({ s with source := false } : ByteFlowChain n).closeInputAt 0 status = some t ∧
      Inv t (answers ++ [Answer.sourceCloses status]) := by
  have hclosed : ∀ k, Call.closed k ∉ s.calls := by
    intro k hk
    rw [hcalls] at hk
    cases hk
  have hquiet : Quiet (answers ++ [Answer.sourceCloses status]) := h.quiet.concat fun _ _ => rfl
  have hfinished : ∀ k, (s.flow k).stopFlag = true ↔
      ∃ answer ∈ answers ++ [Answer.sourceCloses status], answer.finished k = true := by
    intro k
    rw [h.finished k]
    refine ⟨fun ⟨answer, hanswer, hk⟩ => ⟨answer, List.mem_append_left _ hanswer, hk⟩, ?_⟩
    rintro ⟨answer, hanswer, hk⟩
    rcases List.mem_append.mp hanswer with hanswer | hanswer
    · exact ⟨answer, hanswer, hk⟩
    · rw [List.mem_singleton.mp hanswer] at hk
      cases hk
  unfold closeInputAt
  split
  · rename_i hn
    have hnew : (({ s with source := false } : ByteFlowChain n).calling (.closeInput 0 status)).calls =
        [.closeInput 0 status] := congrArg (Call.closeInput 0 status :: ·) hcalls
    refine ⟨_, rfl, ?_, ?_, h.parent, fun k hk hparent => absurd (h.closed k hk hparent) (hclosed k), fun k hk => ?_,
      hfinished, hquiet, ?_, fun hactive => ?_⟩
    · rw [hnew]
      intro c hc
      rwa [List.mem_singleton.mp hc]
    · rw [hnew]
      exact List.pairwise_singleton _ _
    · rw [hnew] at hk
      cases List.mem_singleton.mp hk
    · rw [List.filterMap_append, h.sink, List.filterMap_cons,
        show (Answer.sourceCloses status).reached n = none from if_neg (by omega)]
      exact List.append_nil _
    · rcases h.stopped hactive with ⟨hzero, -⟩ | hstop
      · exact .inl ⟨hzero, rfl⟩
      · exact .inr hstop
  · rename_i hn
    have hn : n = 0 := by omega
    have hactive : s.sink.active = true := by
      cases hactive : s.sink.active with
      | true => rfl
      | false =>
        rcases h.stopped hactive with ⟨-, hfalse⟩ | ⟨k, hk, -⟩
        · rw [hsource] at hfalse
          cases hfalse
        · exact absurd (hk.trans hn) (Nat.succ_ne_zero k)
    rw [if_pos (show ({ s with source := false } : ByteFlowChain n).sink.active = true from hactive)]
    refine ⟨_, rfl, h.bound, h.nested, h.parent, h.closed, h.closing, hfinished, hquiet, ?_,
      fun _ => .inl ⟨hn, rfl⟩⟩
    rw [List.filterMap_append, h.sink, hactive, List.filterMap_cons,
      show (Answer.sourceCloses status).reached n = some status from if_pos hn]
    rfl

theorem Inv.step (h : Inv s answers) {event : Event} (hsource : event.closes = true → s.source = true) :
    Steps s answers (s.step event) := by
  have hsame : Steps s answers (some (s, .nothing)) := .silent h.same fun _ => rfl
  cases event with
  | write size =>
    exact .silent (h.moves (same_onInput 0 _) h.bound h.nested (fun _ => .rfl) (fun _ hk => by cases hk) rfl
      fun _ hk => by cases hk) fun _ => rfl
  | wakeup =>
    dsimp only [ByteFlowChain.step]
    cases hcalls : s.calls with
    | nil =>
      dsimp only
      cases hon : s.source with
      | true => exact .silent (h.step_wakeup hcalls) fun _ => rfl
      | false => exact hsame
    | cons call calls => exact hsame
  | closeInput status =>
    dsimp only [ByteFlowChain.step]
    cases hcalls : s.calls with
    | nil =>
      dsimp only
      obtain ⟨t, ht, hinv⟩ := h.step_closeInput hcalls (hsource rfl) status
      rw [hcalls] at ht
      rw [if_pos (hsource rfl), ht]
      exact .silent hinv fun _ => rfl
    | cons call calls => exact hsame
  | act action =>
    dsimp only [ByteFlowChain.step]
    cases hcalls : s.calls with
    | nil => exact hsame
    | cons call calls =>
      cases call with
      | loop k => exact .silent (h.act hcalls action) fun _ => rfl
      | _ => exact hsame
  | go =>
    dsimp only [ByteFlowChain.step]
    cases hcalls : s.calls with
    | nil => exact hsame
    | cons call calls => exact h.go hcalls

/-! ### Errors on their way -/

theorem Inv.underway (h : Inv s answers) {event : Event} {answer : Answer} {message : String}
    (hstep : s.step event = some (t, answer)) (h' : Inv t (answers ++ [answer]))
    (hunder : Underway s (.error message)) : Underway t (.error message) := by
  rcases hunder with hsink | ⟨j, rest, hcalls, hstop⟩
  · exact .inl (h.sink_stays h' hsink)
  have hsame : ∀ call calls, s.calls = call :: calls → (call = .closeInput j (.error message) ∨
      call = .finish j (.error message)) → t = s → Underway t (.error message) := by
    intro call calls hcall hcase ht
    rw [ht]
    refine .inr ⟨j, calls, ?_, hstop⟩
    rw [hcall]
    rcases hcase with hcase | hcase
    · exact .inl (by rw [hcase])
    · exact .inr (by rw [hcase])
  cases event with
  | write size =>
    cases hstep
    exact .inr ⟨j, rest, hcalls, hstop⟩
  | wakeup =>
    rcases hcalls with hcalls | hcalls <;> dsimp only [ByteFlowChain.step] at hstep <;> rw [hcalls] at hstep <;>
      cases hstep
    · exact hsame _ _ hcalls (.inl rfl) rfl
    · exact hsame _ _ hcalls (.inr rfl) rfl
  | closeInput status =>
    rcases hcalls with hcalls | hcalls <;> dsimp only [ByteFlowChain.step] at hstep <;> rw [hcalls] at hstep <;>
      cases hstep
    · exact hsame _ _ hcalls (.inl rfl) rfl
    · exact hsame _ _ hcalls (.inr rfl) rfl
  | act action =>
    rcases hcalls with hcalls | hcalls <;> dsimp only [ByteFlowChain.step] at hstep <;> rw [hcalls] at hstep <;>
      cases hstep
    · exact hsame _ _ hcalls (.inl rfl) rfl
    · exact hsame _ _ hcalls (.inr rfl) rfl
  | go =>
    rcases hcalls with hcalls | hcalls <;> dsimp only [ByteFlowChain.step] at hstep <;> rw [hcalls] at hstep
    · cases hstep
      exact .inr ⟨j, rest, .inr rfl, hstop⟩
    · obtain ⟨u, closes, hfinish, -, hfirst⟩ := h.go_finish hcalls
      cases hfinish.symm.trans hstep
      exact (hfirst (hstop j (Nat.le_refl j))).underway hstop

/-- Every error with which a flow has finished, before any flow from it on, is underway. -/
def Carried (s : ByteFlowChain n) (answers : List Answer) : Prop :=
  ∀ before k message closes after, answers = before ++ .finishes k (.error message) closes :: after →
    (∀ answer ∈ before, ∀ j, k ≤ j → answer.finished j = false) → Underway s (.error message)

theorem Inv.carried (h : Inv s answers) {event : Event} {answer : Answer} (hsteps : Steps s answers (s.step event))
    (hstep : s.step event = some (t, answer)) (h' : Inv t (answers ++ [answer])) (hcarried : Carried s answers) :
    Carried t (answers ++ [answer]) := by
  intro before k message closes after heq hbefore
  rcases List.eq_nil_or_concat' after with rfl | ⟨after, last, rfl⟩
  · obtain ⟨rfl, hlast⟩ := List.append_inj' heq rfl
    obtain ⟨rfl, -⟩ := List.cons.inj hlast
    refine hsteps.begins t k _ closes hstep fun i hi => ?_
    cases hstop : (s.flow i).stopFlag with
    | false => rfl
    | true =>
      obtain ⟨earlier, hearlier, hfinished⟩ := (h.finished i).mp hstop
      rw [hbefore earlier hearlier i hi] at hfinished
      cases hfinished
  · rw [← List.cons_append, ← List.append_assoc] at heq
    obtain ⟨heq, -⟩ := List.append_inj' heq rfl
    exact h.underway hstep h' (hcarried before k message closes after heq hbefore)

/-! ### Whole runs -/

theorem inv_start (options : ℕ → Options) : Inv (start n options) [] where
  bound := fun _ hc => by cases hc
  nested := .nil
  parent := fun _ _ => rfl
  closed := fun _ hk => by cases hk
  closing := fun _ hk => by cases hk
  finished := fun _ => ⟨fun hk => (by cases hk), fun ⟨_, hanswer, _⟩ => (by cases hanswer)⟩
  quiet := .nil
  sink := rfl
  stopped := fun hactive => by cases hactive

/-! ### The source -/

theorem closeInputAt_source {s : ByteFlowChain n} {status : Status} (h : s.closeInputAt k status = some t) : t.source = s.source := by
  unfold closeInputAt at h
  split at h
  · cases h
    rfl
  · split at h <;> cases h
    rfl

theorem wakeup_source (s : ByteFlowChain n) (k : ℕ) : (s.wakeup k).source = s.source := by
  unfold wakeup
  split
  · rfl
  · split
    · split <;> rfl
    · rfl

theorem check_source {s : ByteFlowChain n} {answer : Answer} (h : s.check k = some (t, answer)) : t.source = s.source := by
  unfold check at h
  split at h
  · cases h
    rfl
  · obtain ⟨u, hu, ht⟩ := Option.map_eq_some_iff.mp h
    unfold updateCanWrite at hu
    split at hu
    · cases hu
      split at ht <;> cases ht <;> exact (same_updateCanRead k).source
    · cases hu

theorem wakeupAt_source (s : ByteFlowChain n) (k : ℕ) : (s.wakeupAt k).source = s.source := by
  unfold wakeupAt
  split <;> rfl

theorem finish_source {s : ByteFlowChain n} {status : Status} {answer : Answer} (h : s.finish k status = some (t, answer)) :
    t.source = s.source := by
  unfold finish at h
  dsimp only at h
  split at h
  · obtain ⟨u, hu, ht⟩ := Option.map_eq_some_iff.mp h
    cases ht
    exact (closeInputAt_source hu).trans rfl
  · cases h
    rfl

theorem go_source {s : ByteFlowChain n} {call : Call} {answer : Answer} (h : s.go call = some (t, answer)) : t.source = s.source := by
  cases call with
  | closeInput k status => cases status <;> cases h <;> rfl
  | wakeup k =>
    cases h
    exact wakeup_source s k
  | check k => exact check_source h
  | loop k =>
    cases h
    rfl
  | onOutputUpdated k =>
    dsimp only [ByteFlowChain.go, onOutputUpdated] at h
    split at h <;> cases h
    · exact wakeupAt_source s (k + 1)
    · rfl
  | finish k status => exact finish_source h
  | closed k =>
    cases h
    rfl

theorem act_source (s : ByteFlowChain n) (k : ℕ) (action : Action) : (s.act k action).source = s.source := by
  cases action with
  | consumeInput =>
    dsimp only [ByteFlowChain.act]
    split <;> rfl
  | «return» result => exact (same_looped k result).source
  | _ => rfl

/-- The source stays open until it is closed. -/
theorem step_source {event : Event} {answer : Answer} (hstep : s.step event = some (t, answer))
    (hopen : event.closes = false) : t.source = s.source := by
  cases event with
  | write size =>
    cases hstep
    rfl
  | wakeup =>
    dsimp only [ByteFlowChain.step] at hstep
    split at hstep <;> cases hstep
    · split
      · exact wakeupAt_source s 0
      · rfl
    · rfl
  | closeInput status => cases hopen
  | act action =>
    dsimp only [ByteFlowChain.step] at hstep
    split at hstep <;> cases hstep
    · exact act_source _ _ action
    · rfl
  | go =>
    dsimp only [ByteFlowChain.step] at hstep
    split at hstep
    · cases hstep
      rfl
    · exact (go_source hstep).trans rfl

/-! ### Whole runs -/

theorem carried_nil : Carried s [] := by
  intro before k message closes after heq
  cases before <;> cases heq

/-- A source, its flows and a sink, when the source is closed once at most: no check fails; a flow that has
finished, as it does when it closes its parent, calls nothing and is not entered again; the sink is closed once,
with its status; and the first error with which a flow finishes before those that follow it is that status. -/
theorem closed_once (options : ℕ → Options) (events : List Event) (honce : events.countP Event.closes ≤ 1) :
    ∃ s answers, (machine n).run (start n options) events = some (s, answers) ∧
      (answers.Pairwise fun earlier later => ∀ k, earlier.finished k = true → later.calls k = false) ∧
      answers.filterMap (Answer.reached n) = (if s.sink.active then [] else [s.sink.status]) ∧
      ∀ before k message closes after, answers = before ++ .finishes k (.error message) closes :: after →
        (∀ answer ∈ before, ∀ j, k ≤ j → answer.finished j = false) → s.calls = [] →
        s.sink = ⟨false, .error message⟩ := by
  obtain ⟨s, answers, hrun, h, hcarried, -⟩ := (machine n).run_history (start n options) (fun _ _ => True)
    (fun events => events.countP Event.closes ≤ 1)
    (fun events answers s => Inv s answers ∧ Carried s answers ∧
      (s.source = false → 1 ≤ events.countP Event.closes))
    (fun events event honce => by
      rw [List.countP_append] at honce
      omega)
    ⟨inv_start options, carried_nil, fun hsource => by cases hsource⟩
    (by
      rintro events answers s event honce - ⟨h, hcarried, hsource⟩
      rw [List.countP_append, List.countP_singleton] at honce
      have hopen : event.closes = true → s.source = true := by
        intro hcloses
        cases hon : s.source with
        | true => rfl
        | false =>
          have hone := hsource hon
          rw [if_pos hcloses] at honce
          omega
      have hsteps := h.step hopen
      obtain ⟨t, answer, hstep, h'⟩ := hsteps.inv
      refine ⟨t, answer, hstep, h', h.carried hsteps hstep h' hcarried, fun hoff => ?_⟩
      rw [List.countP_append, List.countP_singleton]
      cases hcloses : event.closes with
      | true =>
        rw [if_pos rfl]
        exact Nat.le_add_left 1 _
      | false =>
        rw [step_source hstep hcloses] at hoff
        exact Nat.le_add_right_of_le (hsource hoff))
    events honce (Lib.Machine.along_of_forall _ _ fun _ _ _ => trivial)
  refine ⟨s, answers, hrun, h.quiet, h.sink, fun before k message closes after heq hbefore hcalls => ?_⟩
  rcases hcarried before k message closes after heq hbefore with hsink | ⟨j, rest, hcall, -⟩
  · exact hsink
  · rw [hcalls] at hcall
    rcases hcall with hcall | hcall <;> cases hcall

/-- The source is closed, the first flow passes its bytes on and finishes, and the second one fails in the call that closes
its input; then all calls return. -/
def failing : List Event :=
  [.write 3, .closeInput .ok, .go, .go, .go, .act (.consume 3), .act (.produce 3), .act (.finish .ok), .go, .go, .go, .go,
    .act (.finish (.error "failed")), .go, .go, .act (.return true), .go, .go, .go, .act (.return true), .go, .go]

theorem closed_once_two : ∃ s answers, (machine 2).run (start 2 fun _ => {}) failing = some (s, answers) ∧
    (answers.Pairwise fun earlier later => ∀ k, earlier.finished k = true → later.calls k = false) ∧
    answers.filterMap (Answer.reached 2) = [.error "failed"] ∧ s.calls = [] ∧ s.sink = ⟨false, .error "failed"⟩ := by
  obtain ⟨s, answers, hrun, hquiet, hreached, herror⟩ := closed_once (n := 2) (fun _ => {}) failing (by decide)
  have hall : ((machine 2).run (start 2 fun _ => {}) failing).map (fun r => (r.1.calls, r.2)) = some ([],
      [.nothing, .sourceCloses .ok, .nothing, .nothing, .checks 0 true, .nothing, .nothing, .nothing, .finishes 0 .ok true,
        .nothing, .nothing, .checks 1 true, .nothing] ++ .finishes 1 (.error "failed") true ::
      [.nothing, .nothing, .nothing, .nothing, .nothing, .nothing, .nothing, .nothing]) := by decide
  rw [hrun] at hall
  obtain ⟨hcalls, hanswers⟩ := Prod.mk.inj (Option.some.inj hall)
  have hsink := herror _ 1 "failed" true _ hanswers (by
    simp [Answer.finished]
    omega) hcalls
  rw [hsink] at hreached
  exact ⟨s, answers, hrun, hquiet, hreached, hcalls, hsink⟩

end TdUtils.ByteFlowChain
