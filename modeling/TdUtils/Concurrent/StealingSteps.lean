import TdUtils.Lib.Tally
import TdUtils.Concurrent.StealingClaims

/-!
# Concurrent.StealingSteps — a step of a push or of a pop moves values

No step loses or doubles a value: each one moves what it takes from a queue or an owner to a queue, an owner or
the answer.
-/

namespace TdUtils.StealingQueue

variable {ι α : Type} {p : ℕ} {q : StealingQueue α} {entered : List α}

/-! ### Changes of a queue -/

theorem Ok.claim (h : Ok p q entered) {n : ℕ} (hn : q.head + n ≤ q.tail) :
    Ok p { q with head := q.head + n } entered where
  head_le := hn
  tail_le := h.tail_le.trans (Nat.add_le_add_right (Nat.le_add_right _ _) _)
  length := h.length
  stored := fun k hk => h.stored k (Nat.le_of_add_right_le hk)

theorem claimed_claim (n : ℕ) : Claimed q { q with head := q.head + n } := ⟨Nat.le_add_right _ _, rfl, rfl⟩

theorem stored_claim {n : ℕ} (hn : q.head + n ≤ q.tail) :
    stored p q = (slots p q q.head n : Multiset α) + stored p { q with head := q.head + n } := by
  have hsize : q.tail - q.head = n + (q.tail - (q.head + n)) := by omega
  unfold stored
  rw [hsize, slots_add]
  exact (Multiset.coe_add _ _).symm

theorem Grows.write {k : ℕ} (hle : q.tail ≤ k) (hlt : k < q.head + 2 ^ p) (value : α) :
    Grows p q { q with buf := Function.update q.buf (slot p k) value } where
  head := le_rfl
  tail := le_rfl
  kept := by
    intro m hm hm'
    have hm : q.head ≤ m := hm
    exact Function.update_of_ne (slot_ne (by omega) (by omega) (by omega)) _ _

theorem Ok.write (h : Ok p q entered) {k : ℕ} (hle : q.tail ≤ k) (hlt : k < q.head + 2 ^ p) (value : α) :
    Ok p { q with buf := Function.update q.buf (slot p k) value } entered where
  head_le := h.head_le
  tail_le := h.tail_le
  length := h.length
  stored := by
    intro m hm hm'
    rw [(Grows.write hle hlt value).kept m hm hm']
    exact h.stored m hm hm'

theorem stored_write (h : Ok p q entered) {k : ℕ} (hle : q.tail ≤ k) (hlt : k < q.head + 2 ^ p) (value : α) :
    stored p { q with buf := Function.update q.buf (slot p k) value } = stored p q := by
  have hhead := h.head_le
  unfold stored
  refine congrArg _ (slots_congr fun j hj => ?_)
  have hlive : j + q.head < q.tail := Nat.add_lt_of_lt_sub hj
  exact (Grows.write hle hlt value).kept _ (Nat.le_add_left _ _) hlive

theorem grows_publish (n : ℕ) : Grows p q { q with tail := q.tail + n } :=
  ⟨le_rfl, Nat.le_add_right _ _, fun _ _ _ => rfl⟩

theorem Ok.publish (h : Ok p q entered) {n : ℕ} (hn : q.tail + n ≤ q.head + 2 ^ p) :
    Ok p { q with tail := q.tail + n } (entered ++ slots p q q.tail n) where
  head_le := Nat.le_add_right_of_le h.head_le
  tail_le := hn
  length := by rw [List.length_append, h.length, length_slots]
  stored := by
    intro k hk hk'
    have hk' : k < q.tail + n := hk'
    by_cases hold : k < q.tail
    · rw [List.getElem?_append_left (by rwa [h.length])]
      exact h.stored k hk hold
    · rw [List.getElem?_append_right (by rw [h.length]; omega), h.length, getElem?_slots (by omega),
        Nat.add_sub_cancel' (by omega)]

theorem stored_publish (h : Ok p q entered) (n : ℕ) :
    stored p { q with tail := q.tail + n } = stored p q + (slots p q q.tail n : Multiset α) := by
  have hhead := h.head_le
  have hsize : q.tail + n - q.head = (q.tail - q.head) + n := by omega
  have htail : q.head + (q.tail - q.head) = q.tail := by omega
  show ((slots p q q.head (q.tail + n - q.head) : List α) : Multiset α) = _
  rw [hsize, slots_add, htail]
  exact (Multiset.coe_add _ _).symm

/-! ### A step keeps the invariant -/

/-- The head moves on, or values enter, and nothing is popped. -/
theorem Inv.popped_mono {s : System ι α} {entered popped : ι → List α} (h : Inv p s entered popped) {i : ι} {head : ℕ} (hhead : (s.queues i).head ≤ head)
    (more : List α) : (popped i ++ []).Sublist ((entered i ++ more).take head) := by
  rw [List.append_nil]
  refine (h.popped i).trans ?_
  have hle := (h.ok i).head_le.trans (h.ok i).length.ge
  have htake : (entered i ++ more).take (s.queues i).head = (entered i).take (s.queues i).head :=
    List.take_append_of_le_length hle
  rw [← htake]
  exact (List.take_prefix_take_left hhead).sublist

variable [DecidableEq ι] [Fintype ι] {s : System ι α} {entered popped : ι → List α}

/-- The invariant is kept, every value is still in one place, and not more enter a queue than fit. -/
structure Advances (p : ℕ) (s : System ι α) (entered popped : ι → List α) (pushed : List α)
    (r : System ι α × Answer ι α) : Prop where
  inv : Inv p r.1 (fun j => entered j ++ r.2.enteredIn j) (fun j => popped j ++ r.2.poppedFrom j)
  held : held p r.1 + (r.2.delivered : Multiset α) = held p s + (pushed : Multiset α)
  few : ∀ j, (r.2.enteredIn j).length ≤ 2 ^ p

/-- An owner changes its own queue, or none. -/
theorem Inv.turns (h : Inv p s entered popped) {i : ι} {q : StealingQueue α} {place : Place ι α} {answer : Answer ι α}
    {pushed : List α}
    (hgrows : Grows p (s.queues i) q) (hok : Ok p q (entered i ++ answer.enteredIn i))
    (hplace : PlaceOk p (Function.update s.queues i q) i place)
    (hoff : ∀ j, j ≠ i → answer.enteredIn j = [] ∧ answer.poppedFrom j = [])
    (hpopped : (popped i ++ answer.poppedFrom i).Sublist ((entered i ++ answer.enteredIn i).take q.head))
    (hfew : (answer.enteredIn i).length ≤ 2 ^ p)
    (hheld : stored p q + (inHand p q place : Multiset α) + (answer.delivered : Multiset α) =
      stored p (s.queues i) + (inHand p (s.queues i) (s.place i) : Multiset α) + (pushed : Multiset α)) :
    Advances p s entered popped pushed (goes (onQueue s i q) i place, answer) := by
  have hall : ∀ j, Grows p (s.queues j) (Function.update s.queues i q j) := by
    intro j
    by_cases hj : j = i
    · rw [hj, Function.update_self]
      exact hgrows
    · rw [Function.update_of_ne hj]
      exact .refl _
  refine ⟨⟨fun j => ?_, fun j => ?_, fun j => ?_⟩, ?_, fun j => ?_⟩
  · show Ok p (Function.update s.queues i q j) _
    by_cases hj : j = i
    · rw [hj, Function.update_self]
      exact hok
    · rw [Function.update_of_ne hj, (hoff j hj).1, List.append_nil]
      exact h.ok j
  · show PlaceOk p (Function.update s.queues i q) j (Function.update s.place i place j)
    by_cases hj : j = i
    · rw [hj, Function.update_self]
      exact hplace
    · rw [Function.update_of_ne hj]
      refine (h.place j).frame ?_ hall
      rw [Function.update_of_ne hj]
      exact .refl _
  · show (popped j ++ answer.poppedFrom j).Sublist (List.take (Function.update s.queues i q j).head _)
    by_cases hj : j = i
    · rw [hj, Function.update_self]
      exact hpopped
    · rw [Function.update_of_ne hj, (hoff j hj).1, (hoff j hj).2, List.append_nil, List.append_nil]
      exact h.popped j
  · refine Lib.sum_balance i (fun j hj => ?_) ?_
    · show stored p (Function.update s.queues i q j) + (inHand p (Function.update s.queues i q j)
        (Function.update s.place i place j) : Multiset α) = _
      rw [Function.update_of_ne hj, Function.update_of_ne hj]
    · show stored p (Function.update s.queues i q i) + (inHand p (Function.update s.queues i q i)
        (Function.update s.place i place i) : Multiset α) + _ = _
      rw [Function.update_self, Function.update_self]
      exact hheld
  · by_cases hj : j = i
    · rw [hj]
      exact hfew
    · rw [(hoff j hj).1]
      exact Nat.zero_le _

/-- No queue changes. -/
theorem Inv.goes (h : Inv p s entered popped) {i : ι} {place : Place ι α} {answer : Answer ι α} {pushed : List α}
    (hplace : PlaceOk p s.queues i place) (hno : ∀ j, answer.enteredIn j = [] ∧ answer.poppedFrom j = [])
    (hhand : answer.delivered ++ inHand p (s.queues i) place = inHand p (s.queues i) (s.place i) ++ pushed) :
    Advances p s entered popped pushed (goes s i place, answer) := by
  have hsame : onQueue s i (s.queues i) = s := by
    unfold onQueue
    rw [Function.update_eq_self]
  have hturns : Advances p s entered popped pushed
      (StealingQueue.goes (onQueue s i (s.queues i)) i place, answer) := by
    refine h.turns (.refl (s.queues i)) ?_ ?_ (fun j _ => hno j) ?_ ?_ ?_
    · rw [(hno i).1, List.append_nil]
      exact h.ok i
    · rwa [Function.update_eq_self]
    · rw [(hno i).2]
      exact h.popped_mono le_rfl _
    · rw [(hno i).1]
      exact Nat.zero_le _
    · rw [add_assoc, add_assoc, add_comm (inHand p (s.queues i) place : Multiset α), Multiset.coe_add,
        Multiset.coe_add, hhand]
  rwa [hsame] at hturns

/-! ### Pushing -/

theorem Inv.step_push (h : Inv p s entered popped) {i : ι} {value : α} (hat : s.place i = .push value) :
    Advances p s entered popped [] (ownerStep p s i) := by
  unfold ownerStep
  rw [hat]
  exact h.goes rfl (fun _ => ⟨rfl, rfl⟩) (by rw [hat]; rfl)

theorem Inv.step_pushHead (h : Inv p s entered popped) (hp : p < 64) {i : ι} {value : α} {tail : ℕ}
    (hat : s.place i = .pushHead value tail) : Advances p s entered popped [] (ownerStep p s i) := by
  have htail : (s.queues i).tail = tail := by
    have hplace := h.place i
    rwa [hat] at hplace
  have hle := (h.ok i).head_le
  have hle' := (h.ok i).tail_le
  unfold ownerStep
  rw [hat]
  dsimp only
  rw [size_sub hp (by omega) (by omega)]
  by_cases hroom : tail - (s.queues i).head < 2 ^ p
  · rw [if_pos hroom]
    exact h.goes ⟨htail, by omega⟩ (fun _ => ⟨rfl, rfl⟩) (by rw [hat]; rfl)
  · rw [if_neg hroom]
    exact h.goes ⟨le_rfl, by omega⟩ (fun _ => ⟨rfl, rfl⟩) (by rw [hat]; rfl)

theorem Inv.step_store (h : Inv p s entered popped) {i : ι} {value : α} {tail : ℕ}
    (hat : s.place i = .store value tail) : Advances p s entered popped [] (ownerStep p s i) := by
  obtain ⟨htail, hroom⟩ : (s.queues i).tail = tail ∧ tail < (s.queues i).head + 2 ^ p := by
    have hplace := h.place i
    rwa [hat] at hplace
  have hok := h.ok i
  unfold ownerStep
  rw [hat]
  refine h.turns (.write htail.le hroom value) ?_ ?_ (fun _ _ => ⟨rfl, rfl⟩) (h.popped_mono le_rfl _) (Nat.zero_le _) ?_
  · rw [show entered i ++ Answer.enteredIn i .nothing = entered i from List.append_nil _]
    exact hok.write htail.le hroom value
  · unfold PlaceOk
    rw [Function.update_self]
    exact ⟨htail, hroom, Function.update_self ..⟩
  · rw [stored_write hok htail.le hroom, hat]
    rfl

theorem Inv.step_publish (h : Inv p s entered popped) {i : ι} {value : α} {tail : ℕ}
    (hat : s.place i = .publish value tail) : Advances p s entered popped [] (ownerStep p s i) := by
  obtain ⟨rfl, hroom, hvalue⟩ : (s.queues i).tail = tail ∧ tail < (s.queues i).head + 2 ^ p ∧
      (s.queues i).buf (slot p tail) = value := by
    have hplace := h.place i
    rwa [hat] at hplace
  have hok := h.ok i
  have hentered : Answer.enteredIn i (.entered i value) = slots p (s.queues i) (s.queues i).tail 1 := by
    rw [slots_one, hvalue]
    exact if_pos rfl
  unfold ownerStep
  rw [hat]
  refine h.turns (grows_publish 1) ?_ trivial (fun j hj => ⟨if_neg hj.symm, rfl⟩) (h.popped_mono le_rfl _) ?_ ?_
  · rw [hentered]
    exact hok.publish hroom
  · rw [hentered, length_slots]
    exact Nat.one_le_two_pow
  · rw [stored_publish hok, slots_one, hvalue, hat]
    exact add_zero _

theorem Inv.step_overflow (h : Inv p s entered popped) {i : ι} {value : α} {head : ℕ}
    (hat : s.place i = .overflow value head) : Advances p s entered popped [] (ownerStep p s i) := by
  obtain ⟨hseen, hfull⟩ : head ≤ (s.queues i).head ∧ head + 2 ^ p ≤ (s.queues i).tail := by
    have hplace := h.place i
    rwa [hat] at hplace
  have hok := h.ok i
  unfold ownerStep
  rw [hat]
  dsimp only
  by_cases hhead : (s.queues i).head = head
  · subst hhead
    have hsize : (s.queues i).head + overflowSize p ≤ (s.queues i).tail := by
      have hle := overflowSize_le (p := p)
      omega
    rw [if_pos rfl]
    refine h.turns (claimed_claim _).grows ?_ overflowSize_pos (fun _ _ => ⟨rfl, rfl⟩)
      (h.popped_mono (Nat.le_add_right _ _) _) (Nat.zero_le _) ?_
    · rw [show entered i ++ Answer.enteredIn i .nothing = entered i from List.append_nil _]
      exact hok.claim hsize
    · have hhand : (inHand p { s.queues i with head := (s.queues i).head + overflowSize p }
          (.spill value (s.queues i).head 0 : Place ι α) : Multiset α) =
          (slots p (s.queues i) (s.queues i).head (overflowSize p) : Multiset α) + ([value] : List α) :=
        (Multiset.coe_add _ _).symm
      rw [stored_claim hsize, hhand, hat, add_left_comm, ← add_assoc]
      rfl
  · rw [if_neg hhead]
    exact h.goes trivial (fun _ => ⟨rfl, rfl⟩) (by rw [hat]; rfl)

theorem Inv.step_spill (h : Inv p s entered popped) {i : ι} {value : α} {head j : ℕ}
    (hat : s.place i = .spill value head j) : Advances p s entered popped [] (ownerStep p s i) := by
  have hj : j < overflowSize p := by
    have hplace := h.place i
    rwa [hat] at hplace
  have hfirst : slots p (s.queues i) (head + j) (overflowSize p - j) =
      (s.queues i).buf (slot p (j + head)) :: slots p (s.queues i) (head + (j + 1)) (overflowSize p - (j + 1)) := by
    have hsize : overflowSize p - j = 1 + (overflowSize p - (j + 1)) := by omega
    rw [hsize, slots_add, slots_one, Nat.add_comm j head, Nat.add_assoc]
    rfl
  unfold ownerStep
  rw [hat]
  dsimp only
  by_cases hnext : j + 1 < overflowSize p
  · rw [if_pos hnext]
    refine h.goes hnext (fun _ => ⟨rfl, rfl⟩) ?_
    rw [hat]
    show _ = slots p (s.queues i) (head + j) (overflowSize p - j) ++ [value] ++ []
    rw [hfirst, List.append_nil]
    rfl
  · rw [if_neg hnext]
    refine h.goes trivial (fun _ => ⟨rfl, rfl⟩) ?_
    rw [hat]
    show _ = slots p (s.queues i) (head + j) (overflowSize p - j) ++ [value] ++ []
    rw [hfirst, show overflowSize p - (j + 1) = 0 by omega, List.append_nil]
    rfl

theorem Inv.step_spillValue (h : Inv p s entered popped) {i : ι} {value : α} (hat : s.place i = .spillValue value) :
    Advances p s entered popped [] (ownerStep p s i) := by
  unfold ownerStep
  rw [hat]
  exact h.goes trivial (fun _ => ⟨rfl, rfl⟩) (by rw [hat]; rfl)

/-! ### Popping -/

theorem Inv.step_pop (h : Inv p s entered popped) {i : ι} (hat : s.place i = .pop) :
    Advances p s entered popped [] (ownerStep p s i) := by
  unfold ownerStep
  rw [hat]
  exact h.goes rfl (fun _ => ⟨rfl, rfl⟩) (by rw [hat]; rfl)

theorem Inv.step_popHead (h : Inv p s entered popped) {i : ι} {tail : ℕ} (hat : s.place i = .popHead tail) :
    Advances p s entered popped [] (ownerStep p s i) := by
  have htail : (s.queues i).tail = tail := by
    have hplace := h.place i
    rwa [hat] at hplace
  have hle := (h.ok i).head_le
  unfold ownerStep
  rw [hat]
  dsimp only
  by_cases hempty : (s.queues i).head = tail
  · rw [if_pos hempty]
    exact h.goes trivial (fun _ => ⟨rfl, rfl⟩) (by rw [hat]; rfl)
  · rw [if_neg hempty]
    exact h.goes ⟨le_rfl, by omega⟩ (fun _ => ⟨rfl, rfl⟩) (by rw [hat]; rfl)

theorem Inv.step_popLoad (h : Inv p s entered popped) {i : ι} {head : ℕ} (hat : s.place i = .popLoad head) :
    Advances p s entered popped [] (ownerStep p s i) := by
  obtain ⟨hseen, hlt⟩ : head ≤ (s.queues i).head ∧ head < (s.queues i).tail := by
    have hplace := h.place i
    rwa [hat] at hplace
  unfold ownerStep
  rw [hat]
  exact h.goes ⟨hseen, hlt, fun _ => rfl⟩ (fun _ => ⟨rfl, rfl⟩) (by rw [hat]; rfl)

/-- The exchange succeeds only when the value that was loaded is still the first. -/
theorem Inv.step_popExchange (h : Inv p s entered popped) {i : ι} {head : ℕ} {value : α}
    (hat : s.place i = .popExchange head value) : Advances p s entered popped [] (ownerStep p s i) := by
  obtain ⟨-, hlt, hvalue⟩ : head ≤ (s.queues i).head ∧ head < (s.queues i).tail ∧
      ((s.queues i).head = head → (s.queues i).buf (slot p head) = value) := by
    have hplace := h.place i
    rwa [hat] at hplace
  have hok := h.ok i
  unfold ownerStep
  rw [hat]
  dsimp only
  by_cases hhead : (s.queues i).head = head
  · subst hhead
    have hfirst := hok.stored _ le_rfl hlt
    rw [hvalue rfl] at hfirst
    have hpopped : Answer.poppedFrom i (.popped i value) = [value] := if_pos rfl
    rw [if_pos rfl]
    refine h.turns (claimed_claim _).grows ?_ trivial (fun j hj => ⟨rfl, if_neg hj.symm⟩) ?_ (Nat.zero_le _) ?_
    · rw [show entered i ++ Answer.enteredIn i (.popped i value) = entered i from List.append_nil _]
      exact hok.claim hlt
    · rw [show entered i ++ Answer.enteredIn i (.popped i value) = entered i from List.append_nil _, hpopped]
      show (popped i ++ [value]).Sublist ((entered i).take ((s.queues i).head + 1))
      rw [List.take_add_one, hfirst]
      exact (h.popped i).append_right [value]
    · rw [stored_claim (p := p) (n := 1) hlt, slots_one, hvalue rfl, hat]
      show _ + 0 + (([value] : List α) : Multiset α) = _ + _ + 0 + 0
      rw [add_zero, add_zero, add_zero, add_comm]
  · rw [if_neg hhead]
    exact h.goes trivial (fun _ => ⟨rfl, rfl⟩) (by rw [hat]; rfl)

end TdUtils.StealingQueue
