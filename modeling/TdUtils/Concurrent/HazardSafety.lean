import TdUtils.Concurrent.HazardPointers
import TdUtils.Lib.Waiting

/-!
# Concurrent.HazardSafety — the slots that a scan has passed hold nothing of what it scans for

Nobody obtains an object that waits for its deletion: it is not linked when `protect` looks for the second time.
So a thread that holds it has held it since before the scan, in a slot that the scan will read.
-/

namespace TdUtils.HazardPointers

variable {n m : ℕ} {π ν : Type} {s t : HazardPointers n m π ν} {answers : List (Answer n m ν)}
  {events : List (Event n m π ν)}

/-! ### The invariant -/

/-- A thread in `do_protect` has its slot at what it has saved; the scan still has the slots of those who hold. -/
def PlaceOk (s : HazardPointers n m π ν) (held : Fin n → Fin m → Option ν) (i : Fin n) : Place n m π ν → Prop
  | .load pos _ saved => ∀ ptr, saved = some ptr → s.hazard i pos = some ptr
  | .scan it slots => ∀ ptr, (s.toDelete i)[it]? = some ptr → ∀ j q, held j q = some ptr → (j, q) ∈ slots
  | _ => True

structure Inv (s : HazardPointers n m π ν) (events : List (Event n m π ν)) (answers : List (Answer n m ν)) :
    Prop where
  slots : ∀ i pos ptr, holds answers i pos = some ptr → s.hazard i pos = some ptr
  place : ∀ i, PlaceOk s (holds answers) i (s.place i)
  unlinked : ∀ i ptr, ptr ∈ s.toDelete i → ∀ shared, s.shared shared ≠ some ptr
  waiting : Lib.Waiting s.toDelete (events.filterMap Event.retired) (answers.filterMap Answer.deletes)

theorem holds_concat (answer : Answer n m ν) (i : Fin n) (pos : Fin m) :
    holds (answers ++ [answer]) i pos = answer.holds i pos (holds answers i pos) := by
  unfold holds
  rw [List.foldl_append]
  rfl

theorem deletes_concat (answers : List (Answer n m ν)) (answer : Answer n m ν) :
    (answers ++ [answer]).filterMap Answer.deletes = answers.filterMap Answer.deletes ++ answer.deletes.toList := by
  rw [List.filterMap_append]
  cases answer <;> rfl

theorem mem_allSlots (slot : Fin n × Fin m) : slot ∈ allSlots n m :=
  List.mem_product.mpr ⟨List.mem_finRange slot.1, List.mem_finRange slot.2⟩

theorem filterMap_concat_subset (events : List (Event n m π ν)) (event : Event n m π ν) :
    events.filterMap Event.retired ⊆ (events ++ [event]).filterMap Event.retired := by
  rw [List.filterMap_append]
  exact List.subset_append_left _ _

/-- A step that changes no list of objects, after which nobody holds what it did not hold. -/
theorem Inv.moves (h : Inv s events answers) {event : Event n m π ν} {answer : Answer n m ν}
    (hanswer : answer.deletes = none) (htoDelete : t.toDelete = s.toDelete)
    (hslots : ∀ i pos ptr, answer.holds i pos (holds answers i pos) = some ptr → t.hazard i pos = some ptr)
    (hplace : ∀ i, PlaceOk t (holds (answers ++ [answer])) i (t.place i))
    (hunlinked : ∀ i ptr, ptr ∈ s.toDelete i → ∀ shared, t.shared shared ≠ some ptr) :
    Inv t (events ++ [event]) (answers ++ [answer]) := by
  have hdeletes : (answers ++ [answer]).filterMap Answer.deletes = answers.filterMap Answer.deletes := by
    rw [deletes_concat, hanswer]
    exact List.append_nil _
  refine ⟨fun i pos ptr hheld => ?_, hplace, ?_, ?_⟩
  · rw [holds_concat] at hheld
    exact hslots i pos ptr hheld
  · rw [htoDelete]
    exact hunlinked
  · rw [hdeletes, htoDelete]
    exact h.waiting.more (filterMap_concat_subset events event)

/-- The places of the threads that do not move, when nobody holds what it did not hold. -/
theorem PlaceOk.congr {held held' : Fin n → Fin m → Option ν} {i : Fin n} {place : Place n m π ν}
    (h : PlaceOk s held i place) (hhazard : t.hazard i = s.hazard i) (htoDelete : t.toDelete i = s.toDelete i)
    (hheld : ∀ ptr ∈ s.toDelete i, ∀ j q, held' j q = some ptr → held j q = some ptr) : PlaceOk t held' i place := by
  cases place with
  | load pos toProtect saved =>
    intro ptr hsaved
    rw [hhazard]
    exact h ptr hsaved
  | scan it slots =>
    intro ptr hptr j q hj
    rw [htoDelete] at hptr
    exact h ptr hptr j q (hheld ptr (List.mem_of_getElem? hptr) j q hj)
  | _ => trivial

/-- One thread moves, and changes at most its own slots. -/
theorem Inv.turns (h : Inv s events answers) {event : Event n m π ν} {answer : Answer n m ν} {i : Fin n}
    {place : Place n m π ν} (hanswer : answer.deletes = none) (hsame : t.toDelete = s.toDelete)
    (hshared : t.shared = s.shared) (hat : t.place = s.place) (hother : ∀ j, j ≠ i → t.hazard j = s.hazard j)
    (hslots : ∀ j pos ptr, answer.holds j pos (holds answers j pos) = some ptr → t.hazard j pos = some ptr)
    (hheld : ∀ j, ∀ ptr ∈ s.toDelete j, ∀ k pos, answer.holds k pos (holds answers k pos) = some ptr →
      holds answers k pos = some ptr)
    (hplace : PlaceOk (t.goes i place) (holds (answers ++ [answer])) i place) :
    Inv (t.goes i place) (events ++ [event]) (answers ++ [answer]) := by
  refine h.moves hanswer hsame hslots (fun j => ?_) fun j ptr hptr shared => ?_
  · show PlaceOk (t.goes i place) _ j (Function.update t.place i place j)
    by_cases hj : j = i
    · rw [hj, Function.update_self]
      exact hplace
    · rw [Function.update_of_ne hj, hat]
      refine (h.place j).congr (hother j hj) (congrFun hsame j) fun ptr hptr k pos hk => ?_
      rw [holds_concat] at hk
      exact hheld j ptr hptr k pos hk
  · show t.shared shared ≠ some ptr
    rw [hshared]
    exact h.unlinked j ptr hptr shared

/-- One thread goes on without a change of what it has published or obtained. -/
theorem Inv.goes (h : Inv s events answers) {event : Event n m π ν} {i : Fin n} {place : Place n m π ν}
    (hplace : PlaceOk s (holds answers) i place) : Inv (s.goes i place) (events ++ [event]) (answers ++ [Answer.nothing]) := by
  have hholds : holds (answers ++ [Answer.nothing]) = holds answers := by
    funext j pos
    exact holds_concat .nothing j pos
  refine h.turns rfl rfl rfl rfl (fun _ _ => rfl) h.slots (fun _ _ _ _ _ hk => hk) ?_
  rw [hholds]
  exact hplace.congr rfl rfl fun _ _ _ _ hk => hk

theorem Inv.same (h : Inv s events answers) (event : Event n m π ν) :
    Inv s (events ++ [event]) (answers ++ [Answer.nothing]) := by
  have hholds : holds (answers ++ [Answer.nothing]) = holds answers := by
    funext j pos
    exact holds_concat .nothing j pos
  refine h.moves rfl rfl h.slots ?_ h.unlinked
  rw [hholds]
  exact h.place

theorem inv_start : Inv ({} : HazardPointers n m π ν) [] [] where
  slots := fun _ _ _ hheld => by cases hheld
  place := fun _ => trivial
  unlinked := fun _ _ hptr => by cases hptr
  waiting := Lib.Waiting.start

/-! ### Protecting -/

/-- What waits for its deletion is not linked again. -/
theorem Inv.exchange [DecidableEq π] (h : Inv s events answers) {shared : π} {value : Option ν}
    (honce : Once (events ++ [Event.exchange shared value])) :
    Inv { s with shared := Function.update s.shared shared value } (events ++ [Event.exchange shared value])
      (answers ++ [Answer.nothing]) := by
  have hholds : holds (answers ++ [Answer.nothing]) = holds answers := by
    funext j pos
    exact holds_concat .nothing j pos
  refine h.moves rfl rfl h.slots ?_ fun i ptr hptr q => ?_
  · rw [hholds]
    exact fun i => (h.place i).congr rfl rfl fun _ _ _ _ hk => hk
  · obtain ⟨earlier, hearlier, hretired⟩ := List.mem_filterMap.mp (h.waiting.origin ptr (.inl ⟨i, hptr⟩))
    have hlinked : value ≠ some ptr :=
      ((List.pairwise_append.mp honce).2.2 earlier hearlier _ (List.mem_singleton.mpr rfl) ptr hretired).2
    show Function.update s.shared shared value q ≠ some ptr
    by_cases hq : q = shared
    · rw [hq, Function.update_self]
      exact hlinked
    · rw [Function.update_of_ne hq]
      exact h.unlinked i ptr hptr q

/-- `protect` returns what is linked, and published in the slot. -/
theorem Inv.obtain (h : Inv s events answers) {i : Fin n} {pos : Fin m} {toProtect : π} {ptr : ν}
    (hat : s.place i = .load pos toProtect (some ptr)) (hlinked : s.shared toProtect = some ptr)
    (event : Event n m π ν) : Inv (s.goes i .idle) (events ++ [event]) (answers ++ [Answer.obtained i pos ptr]) := by
  have hpublished : s.hazard i pos = some ptr := by
    have hplace := h.place i
    rw [hat] at hplace
    exact hplace ptr rfl
  refine h.turns rfl rfl rfl rfl (fun _ _ => rfl) (fun j q ptr' hheld => ?_) (fun j ptr' hptr k q hheld => ?_) trivial
  · dsimp only [Answer.holds] at hheld
    split at hheld
    · rename_i heq
      rw [← heq.1, ← heq.2, hpublished, Option.some.inj hheld]
    · exact h.slots j q ptr' hheld
  · dsimp only [Answer.holds] at hheld
    split at hheld
    · rw [← Option.some.inj hheld] at hptr
      exact absurd hlinked (h.unlinked j ptr hptr toProtect)
    · exact hheld

/-- A slot changes, and what its thread held in it is given up. -/
theorem Inv.overwrite (h : Inv s events answers) {i : Fin n} {pos : Fin m} {ptr : Option ν} {place : Place n m π ν}
    {answer : Answer n m ν} (hanswer : answer = .overwrote i pos ∨ answer = .cleared i pos)
    (hplace : place = .idle ∨ ∃ toProtect, place = .load pos toProtect ptr) (event : Event n m π ν) :
    Inv ((s.setHazard i pos ptr).goes i place) (events ++ [event]) (answers ++ [answer]) := by
  have hheld : ∀ j q, answer.holds j q (holds answers j q) = if i = j ∧ pos = q then none else holds answers j q := by
    intro j q
    rcases hanswer with rfl | rfl <;> rfl
  have hdeletes : answer.deletes = none := by rcases hanswer with rfl | rfl <;> rfl
  refine h.turns hdeletes rfl rfl rfl (fun j hj => ?_) (fun j q ptr' hptr => ?_) (fun j _ _ k q hk => ?_) ?_
  · exact Function.update_of_ne hj _ _
  · rw [hheld] at hptr
    split at hptr
    · cases hptr
    · rename_i hne
      have hold := h.slots j q ptr' hptr
      show Function.update s.hazard i (Function.update (s.hazard i) pos ptr) j q = _
      by_cases hj : j = i
      · rw [hj, Function.update_self]
        rw [hj] at hold hne
        rw [Function.update_of_ne fun hq => hne ⟨rfl, hq.symm⟩]
        exact hold
      · rw [Function.update_of_ne hj]
        exact hold
  · rw [hheld] at hk
    split at hk
    · cases hk
    · exact hk
  · rcases hplace with rfl | ⟨toProtect, rfl⟩
    · trivial
    · intro ptr' hptr
      show Function.update s.hazard i (Function.update (s.hazard i) pos ptr) i pos = _
      rw [Function.update_self, Function.update_self]
      exact hptr

/-! ### Retiring -/

/-- A new object waits, and the scan begins with all slots. -/
theorem Inv.retire (h : Inv s events answers) {i : Fin n} {ptr : Option ν}
    (honce : Once (events ++ [Event.retire i ptr])) (hunlinked : Unlinked s (.retire i ptr)) :
    Inv (s.retire i ptr) (events ++ [Event.retire i ptr]) (answers ++ [Answer.nothing]) := by
  have hholds : holds (answers ++ [Answer.nothing]) = holds answers := by
    funext j pos
    exact holds_concat .nothing j pos
  have hdeletes := (deletes_concat answers .nothing).trans (List.append_nil _)
  have hnew : ∀ x, ptr = some x → x ∉ events.filterMap Event.retired := by
    intro x hx hold
    obtain ⟨earlier, hearlier, hretired⟩ := List.mem_filterMap.mp hold
    exact ((List.pairwise_append.mp honce).2.2 earlier hearlier _ (List.mem_singleton.mpr rfl) x hretired).1 hx
  have hmem : ∀ j x, x ∈ (s.retire i ptr).toDelete j → x ∈ s.toDelete j ∨ (j = i ∧ ptr = some x) := by
    intro j x hx
    have hx : x ∈ Function.update s.toDelete i (s.toDelete i ++ ptr.toList) j := hx
    by_cases hj : j = i
    · rw [hj, Function.update_self] at hx
      rcases List.mem_append.mp hx with hx | hx
      · exact .inl (hj ▸ hx)
      · exact .inr ⟨hj, Option.mem_toList.mp hx⟩
    · rw [Function.update_of_ne hj] at hx
      exact .inl hx
  refine ⟨?_, fun j => ?_, fun j x hx => ?_, ?_⟩
  · rw [hholds]
    exact h.slots
  · rw [hholds]
    show PlaceOk _ _ j (Function.update s.place i (.scan 0 (allSlots n m)) j)
    by_cases hj : j = i
    · rw [hj, Function.update_self]
      exact fun _ _ _ _ _ => mem_allSlots _
    · rw [Function.update_of_ne hj]
      exact (h.place j).congr rfl (Function.update_of_ne hj _ _) fun _ _ _ _ hk => hk
  · rcases hmem j x hx with hx | ⟨-, hx⟩
    · exact h.unlinked j x hx
    · exact hunlinked x hx
  · rw [hdeletes, List.filterMap_append]
    cases ptr with
    | none =>
      have hsame : (s.retire i none).toDelete = s.toDelete := by
        show Function.update s.toDelete i (s.toDelete i ++ []) = _
        rw [List.append_nil, Function.update_eq_self]
      rw [hsame]
      exact h.waiting.more (List.subset_append_left _ _)
    | some x => exact h.waiting.push i (hnew x rfl)

theorem eraseIdx_perm : ∀ {l : List ν} {k : ℕ} {x : ν}, l[k]? = some x → (l.eraseIdx k ++ [x]).Perm l
  | [], _, _, hk => by cases hk
  | y :: l, 0, x, hk => by
    cases hk
    exact List.perm_append_singleton y l
  | y :: l, k + 1, x, hk => (eraseIdx_perm (l := l) hk).cons y

/-- All slots have been read, and nobody holds the object. -/
theorem Inv.delete (h : Inv s events answers) {i : Fin n} {it : ℕ} {ptr : ν} (hat : (s.toDelete i)[it]? = some ptr)
    (event : Event n m π ν) :
    Inv ((s.setToDelete i ((s.toDelete i).eraseIdx it)).goes i (.scan it (allSlots n m))) (events ++ [event])
      (answers ++ [Answer.deleted ptr]) := by
  have hholds : holds (answers ++ [Answer.deleted ptr]) = holds answers := by
    funext j pos
    exact holds_concat (.deleted ptr) j pos
  have hdeletes := deletes_concat answers (.deleted ptr)
  have hperm := eraseIdx_perm hat
  have hsub : ∀ j x, x ∈ (s.setToDelete i ((s.toDelete i).eraseIdx it)).toDelete j → x ∈ s.toDelete j := by
    intro j x hx
    rcases Lib.Waiting.mem_update hx with ⟨rfl, hx⟩ | ⟨-, hx⟩
    · exact hperm.subset (List.mem_append_left _ hx)
    · exact hx
  refine ⟨?_, fun j => ?_, fun j x hx => h.unlinked j x (hsub j x hx), ?_⟩
  · rw [hholds]
    exact h.slots
  · rw [hholds]
    show PlaceOk _ _ j (Function.update s.place i (.scan it (allSlots n m)) j)
    by_cases hj : j = i
    · rw [hj, Function.update_self]
      exact fun _ _ _ _ _ => mem_allSlots _
    · rw [Function.update_of_ne hj]
      exact (h.place j).congr rfl (Function.update_of_ne hj _ _) fun _ _ _ _ hk => hk
  · rw [hdeletes]
    exact (h.waiting.take i hperm).more (filterMap_concat_subset events event)

/-! ### Whole runs -/

variable [DecidableEq ν]

/-- What is deleted by a scan is held by nobody. -/
theorem Inv.scan (h : Inv s events answers) {i : Fin n} {it : ℕ} {slots : List (Fin n × Fin m)}
    (hat : s.place i = .scan it slots) (event : Event n m π ν) :
    Inv (s.scan i it slots).1 (events ++ [event]) (answers ++ [(s.scan i it slots).2]) ∧
      ∀ ptr, (s.scan i it slots).2 = .deleted ptr → ∀ j pos, holds answers j pos ≠ some ptr := by
  have hplace : PlaceOk s (holds answers) i (.scan it slots) := by
    rw [← hat]
    exact h.place i
  unfold HazardPointers.scan
  cases hptr : (s.toDelete i)[it]? with
  | none => exact ⟨h.goes trivial, fun _ heq => by cases heq⟩
  | some ptr =>
    cases slots with
    | nil =>
      refine ⟨h.delete hptr event, fun x heq j pos hheld => ?_⟩
      cases heq
      have hmem := hplace ptr hptr j pos hheld
      cases hmem
    | cons slot slots =>
      dsimp only
      by_cases hslot : s.hazard slot.1 slot.2 = some ptr
      · rw [if_pos hslot]
        exact ⟨h.goes fun _ _ _ _ _ => mem_allSlots _, fun _ heq => by cases heq⟩
      · rw [if_neg hslot]
        refine ⟨h.goes fun x hx j pos hheld => ?_, fun _ heq => by cases heq⟩
        rcases List.mem_cons.mp (hplace x hx j pos hheld) with heq | hmem
        · rw [hptr] at hx
          rw [← heq, hx] at hslot
          exact absurd (h.slots j pos x hheld) hslot
        · exact hmem

theorem Inv.load (h : Inv s events answers) {i : Fin n} {pos : Fin m} {toProtect : π} {saved : Option ν}
    (hat : s.place i = .load pos toProtect saved) (event : Event n m π ν) :
    Inv (s.load i pos toProtect saved).1 (events ++ [event]) (answers ++ [(s.load i pos toProtect saved).2]) := by
  unfold HazardPointers.load
  by_cases hsaved : s.shared toProtect = saved
  · rw [if_pos hsaved]
    cases saved with
    | none => exact h.goes trivial
    | some ptr => exact h.obtain hat hsaved event
  · rw [if_neg hsaved]
    exact h.goes trivial

variable [DecidableEq π]

theorem Inv.step (h : Inv s events answers) {event : Event n m π ν} (honce : Once (events ++ [event]))
    (hunlinked : Unlinked s event) :
    Inv (s.step event).1 (events ++ [event]) (answers ++ [(s.step event).2]) ∧
      ∀ ptr, (s.step event).2 = .deleted ptr → ∀ j pos, holds answers j pos ≠ some ptr := by
  cases event with
  | exchange shared value => exact ⟨h.exchange honce, fun _ heq => by cases heq⟩
  | protect i pos ptr =>
    dsimp only [HazardPointers.step]
    cases hat : s.place i with
    | idle => exact ⟨h.goes fun _ hnone => (by cases hnone), fun _ heq => (by cases heq)⟩
    | _ => exact ⟨h.same _, fun _ heq => by cases heq⟩
  | clear i pos =>
    dsimp only [HazardPointers.step]
    cases hat : s.place i with
    | idle =>
      have hidle : (s.setHazard i pos none).goes i .idle = s.setHazard i pos none := by
        unfold HazardPointers.goes setHazard
        dsimp only
        rw [← hat, Function.update_eq_self]
      have hclear : Inv ((s.setHazard i pos none).goes i .idle) (events ++ [Event.clear i pos])
          (answers ++ [Answer.cleared i pos]) := h.overwrite (.inr rfl) (.inl rfl) (.clear i pos)
      rw [hidle] at hclear
      exact ⟨hclear, fun _ heq => by cases heq⟩
    | _ => exact ⟨h.same _, fun _ heq => by cases heq⟩
  | retire i ptr =>
    dsimp only [HazardPointers.step]
    cases hat : s.place i with
    | idle => exact ⟨h.retire honce hunlinked, fun _ heq => by cases heq⟩
    | _ => exact ⟨h.same _, fun _ heq => by cases heq⟩
  | thread i =>
    dsimp only [HazardPointers.step, threadStep]
    cases hat : s.place i with
    | idle => exact ⟨h.same _, fun _ heq => by cases heq⟩
    | load pos toProtect saved =>
      refine ⟨h.load hat _, fun ptr heq => ?_⟩
      dsimp only [HazardPointers.load] at heq
      split at heq
      · cases saved <;> cases heq
      · cases heq
    | store pos toProtect toSave =>
      exact ⟨h.overwrite (.inl rfl) (.inr ⟨toProtect, rfl⟩) _, fun _ heq => by cases heq⟩
    | scan it slots => exact h.scan hat _

/-- When objects are unlinked before they are passed to `retire`, once, and are not linked again, no call of `retire`
deletes what some thread has obtained from `protect` and still holds, and nothing is deleted twice. -/
theorem deleted_once (events : List (Event n m π ν)) (honce : Once events)
    (hunlinked : (machine n m π ν).Along Unlinked {} events) :
    ∃ s answers, (machine n m π ν).run {} events = some (s, answers) ∧
      (∀ before ptr after, answers = before ++ .deleted ptr :: after → ∀ i pos, holds before i pos ≠ some ptr) ∧
      (answers.filterMap Answer.deletes).Nodup := by
  obtain ⟨s, answers, hrun, h, hsafe⟩ := (machine n m π ν).run_history {} Unlinked Once
    (fun events answers s => Inv s events answers ∧
      ∀ before ptr after, answers = before ++ .deleted ptr :: after → ∀ i pos, holds before i pos ≠ some ptr)
    (fun events event honce => (List.pairwise_append.mp honce).1)
    ⟨inv_start, fun before _ _ heq => by cases before <;> cases heq⟩ (by
      rintro events answers s event honce hunlinked ⟨h, hsafe⟩
      obtain ⟨hinv, hdeleted⟩ := h.step honce hunlinked
      refine ⟨_, _, rfl, hinv, fun before ptr after heq => ?_⟩
      rcases List.eq_nil_or_concat' after with rfl | ⟨after, last, rfl⟩
      · obtain ⟨rfl, hlast⟩ := List.append_inj' heq rfl
        exact hdeleted ptr (List.cons.inj hlast).1
      · rw [← List.cons_append, ← List.append_assoc] at heq
        obtain ⟨heq, -⟩ := List.append_inj' heq rfl
        exact hsafe before ptr after heq) events honce hunlinked
  exact ⟨s, answers, hrun, hsafe, h.waiting.nodup⟩

/-- An object is retired while a thread holds it, and deleted by a later scan. -/
theorem deleted_once_two : ∃ s answers, (machine 2 1 Unit ℕ).run {}
    (([.exchange () (some 7), .protect 0 0 ()] : List (Event 2 1 Unit ℕ)) ++
      List.replicate 3 (.thread 0 : Event 2 1 Unit ℕ) ++
      ([.exchange () none, .retire 1 (some 7)] : List (Event 2 1 Unit ℕ)) ++
      List.replicate 3 (.thread 1 : Event 2 1 Unit ℕ) ++ ([.clear 0 0, .retire 1 none] : List (Event 2 1 Unit ℕ)) ++
      List.replicate 4 (.thread 1 : Event 2 1 Unit ℕ)) = some (s, answers) ∧
    (∀ before ptr after, answers = before ++ .deleted ptr :: after → ∀ i pos, holds before i pos ≠ some ptr) ∧
    (answers.filterMap Answer.deletes).Nodup := by
  exact deleted_once _ (by decide) (by decide)

end TdUtils.HazardPointers
