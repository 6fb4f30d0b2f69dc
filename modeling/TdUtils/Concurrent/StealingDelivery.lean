import TdUtils.Concurrent.StealingSteps

/-!
# Concurrent.StealingDelivery — every value is delivered once

A thief writes into its own buffer before it knows whether the values are its own; the slots are free until then.
-/

namespace TdUtils.StealingQueue

variable {ι α : Type} [DecidableEq ι] [Fintype ι] {p : ℕ} {s : System ι α} {entered popped : ι → List α}

/-! ### Stealing -/

theorem Inv.step_steal (h : Inv p s entered popped) {i other : ι} (hat : s.place i = .steal other) :
    Advances p s entered popped [] (ownerStep p s i) := by
  have hne : other ≠ i := by
    have hplace := h.place i
    rwa [hat] at hplace
  unfold ownerStep
  rw [hat]
  exact h.goes ⟨hne, rfl⟩ (fun _ => ⟨rfl, rfl⟩) (by rw [hat]; rfl)

theorem Inv.step_stealHead (h : Inv p s entered popped) {i other : ι} {tail : ℕ}
    (hat : s.place i = .stealHead other tail) : Advances p s entered popped [] (ownerStep p s i) := by
  obtain ⟨hne, htail⟩ : other ≠ i ∧ (s.queues i).tail = tail := by
    have hplace := h.place i
    rwa [hat] at hplace
  have hle := (h.ok i).tail_le
  unfold ownerStep
  rw [hat]
  exact h.goes ⟨hne, htail, le_rfl, by omega⟩ (fun _ => ⟨rfl, rfl⟩) (by rw [hat]; rfl)

theorem Inv.step_otherHead (h : Inv p s entered popped) {i other : ι} {tail head : ℕ}
    (hat : s.place i = .otherHead other tail head) : Advances p s entered popped [] (ownerStep p s i) := by
  obtain ⟨hne, htail, hhead, hroom⟩ : other ≠ i ∧ (s.queues i).tail = tail ∧ head ≤ (s.queues i).head ∧
      tail ≤ head + 2 ^ p := by
    have hplace := h.place i
    rwa [hat] at hplace
  unfold ownerStep
  rw [hat]
  exact h.goes ⟨hne, htail, hhead, hroom, le_rfl⟩ (fun _ => ⟨rfl, rfl⟩) (by rw [hat]; rfl)

/-- The loop finds values, or starts over, or there are none. -/
theorem Inv.step_otherTail (h : Inv p s entered popped) (hp : p < 64) {i other : ι} {tail head otherHead : ℕ}
    (hat : s.place i = .otherTail other tail head otherHead) : Advances p s entered popped [] (ownerStep p s i) := by
  obtain ⟨hne, htail, hhead, hroom, hseen⟩ : other ≠ i ∧ (s.queues i).tail = tail ∧ head ≤ (s.queues i).head ∧
      tail ≤ head + 2 ^ p ∧ otherHead ≤ (s.queues other).head := by
    have hplace := h.place i
    rwa [hat] at hplace
  have hagain : Advances p s entered popped [] (StealingQueue.goes s i (.steal other), .nothing) :=
    h.goes hne (fun _ => ⟨rfl, rfl⟩) (by rw [hat]; rfl)
  unfold ownerStep
  rw [hat]
  dsimp only
  by_cases hbehind : (s.queues other).tail < otherHead
  · rw [if_pos hbehind]
    exact hagain
  rw [if_neg hbehind]
  by_cases hmany : 2 ^ p < (s.queues other).tail - otherHead
  · rw [if_pos hmany]
    exact hagain
  rw [if_neg hmany]
  by_cases hzero : stealSize p tail head otherHead (s.queues other).tail = 0
  · rw [if_pos hzero]
    exact h.goes trivial (fun _ => ⟨rfl, rfl⟩) (by rw [hat]; rfl)
  rw [if_neg hzero]
  have htailHead : (s.queues i).head ≤ (s.queues i).tail := (h.ok i).head_le
  have hsize : size (head + (2 ^ p : ℕ) - tail) = head + 2 ^ p - tail := by
    rw [← Int.natCast_add]
    exact size_sub hp hroom (by omega)
  have hmin := Nat.min_le_right ((s.queues other).tail - otherHead - ((s.queues other).tail - otherHead) / 2)
    (size (head + (2 ^ p : ℕ) - tail))
  have hmin' := Nat.min_le_left ((s.queues other).tail - otherHead - ((s.queues other).tail - otherHead) / 2)
    (size (head + (2 ^ p : ℕ) - tail))
  have hfound : Found p (s.queues i) (s.queues other) tail otherHead
      (stealSize p tail head otherHead (s.queues other).tail) := by
    refine ⟨htail, ?_, hseen, ?_, Nat.pos_of_ne_zero hzero⟩
    · unfold stealSize
      omega
    · unfold stealSize
      omega
  refine h.goes ⟨hne, hfound, hfound.pos, fun _ j hj => absurd hj (Nat.not_lt_zero j)⟩ (fun _ => ⟨rfl, rfl⟩) ?_
  rw [hat]
  rfl

theorem Inv.step_copyLoad (h : Inv p s entered popped) {i other : ι} {tail otherHead n j : ℕ}
    (hat : s.place i = .copyLoad other tail otherHead n j) : Advances p s entered popped [] (ownerStep p s i) := by
  obtain ⟨hne, hfound, hj, hcopied⟩ : other ≠ i ∧ Found p (s.queues i) (s.queues other) tail otherHead n ∧ j < n ∧
      Copied p (s.queues i) (s.queues other) tail otherHead j := by
    have hplace := h.place i
    rwa [hat] at hplace
  unfold ownerStep
  rw [hat]
  exact h.goes ⟨hne, hfound, hj, hcopied, fun _ => rfl⟩ (fun _ => ⟨rfl, rfl⟩) (by rw [hat]; rfl)

/-- One more value is copied. -/
theorem Copied.write {q o : StealingQueue α} {tail otherHead n j : ℕ} {value : α}
    (hcopied : Copied p q o tail otherHead j) (hfound : Found p q o tail otherHead n) (hj : j < n)
    (hq : q.head ≤ q.tail) (hvalue : o.head = otherHead → o.buf (slot p (j + otherHead)) = value) :
    Copied p { q with buf := Function.update q.buf (slot p (j + tail)) value } o tail otherHead (j + 1) := by
  intro hhead m hm
  have hroom := hfound.room
  have hown := hfound.own
  show Function.update q.buf (slot p (j + tail)) value (slot p (m + tail)) = _
  by_cases hlast : m = j
  · rw [hlast, Function.update_self, hvalue hhead]
  · rw [Function.update_of_ne (slot_ne (by omega) (by omega) (by omega))]
    exact hcopied hhead m (by omega)

theorem Inv.step_copyStore (h : Inv p s entered popped) {i other : ι} {tail otherHead n j : ℕ} {value : α}
    (hat : s.place i = .copyStore other tail otherHead n j value) :
    Advances p s entered popped [] (ownerStep p s i) := by
  obtain ⟨hne, hfound, hj, hcopied, hvalue⟩ : other ≠ i ∧
      Found p (s.queues i) (s.queues other) tail otherHead n ∧ j < n ∧
      Copied p (s.queues i) (s.queues other) tail otherHead j ∧
      ((s.queues other).head = otherHead → (s.queues other).buf (slot p (j + otherHead)) = value) := by
    have hplace := h.place i
    rwa [hat] at hplace
  have hok := h.ok i
  have hown := hfound.own
  have hroom := hfound.room
  have hle : (s.queues i).tail ≤ j + tail := by omega
  have hlt : j + tail < (s.queues i).head + 2 ^ p := by omega
  have hnext := hcopied.write hfound hj hok.head_le hvalue
  have hfound' : Found p { s.queues i with buf := Function.update (s.queues i).buf (slot p (j + tail)) value }
      (s.queues other) tail otherHead n := ⟨hfound.own, hfound.room, hfound.seen, hfound.filled, hfound.pos⟩
  have hstored : ∀ place : Place ι α,
      PlaceOk p (Function.update s.queues i
        { s.queues i with buf := Function.update (s.queues i).buf (slot p (j + tail)) value }) i place →
      inHand p { s.queues i with buf := Function.update (s.queues i).buf (slot p (j + tail)) value } place = [] →
      Advances p s entered popped [] (StealingQueue.goes (stores p s i (j + tail) value) i place, .nothing) := by
    intro place hplace hhand
    refine h.turns (.write hle hlt value) ?_ hplace (fun _ _ => ⟨rfl, rfl⟩) (h.popped_mono le_rfl _) (Nat.zero_le _) ?_
    · rw [show entered i ++ Answer.enteredIn i .nothing = entered i from List.append_nil _]
      exact hok.write hle hlt value
    · rw [stored_write hok hle hlt, hhand, hat]
      rfl
  unfold ownerStep
  rw [hat]
  dsimp only
  by_cases hlast : j + 1 < n
  · rw [if_pos hlast]
    refine hstored _ ?_ rfl
    dsimp only [PlaceOk]
    rw [Function.update_self, Function.update_of_ne hne]
    exact ⟨hne, hfound', hlast, hnext⟩
  · rw [if_neg hlast]
    have hn : n = j + 1 := by omega
    refine hstored _ ?_ rfl
    dsimp only [PlaceOk]
    rw [Function.update_self, Function.update_of_ne hne]
    refine ⟨hne, hfound', ?_⟩
    rwa [hn]

omit [DecidableEq ι] [Fintype ι] in
theorem inHand_claim {q : StealingQueue α} (n : ℕ) (place : Place ι α) :
    inHand p { q with head := q.head + n } place = inHand p q place := by cases place <;> rfl

/-- The exchange succeeds only when the values that were copied are still the first. -/
theorem Inv.step_stealExchange (h : Inv p s entered popped) {i other : ι} {tail otherHead n : ℕ}
    (hat : s.place i = .stealExchange other tail otherHead n) : Advances p s entered popped [] (ownerStep p s i) := by
  obtain ⟨hne, hfound, hcopied⟩ : other ≠ i ∧ Found p (s.queues i) (s.queues other) tail otherHead n ∧
      Copied p (s.queues i) (s.queues other) tail otherHead n := by
    have hplace := h.place i
    rwa [hat] at hplace
  unfold ownerStep
  rw [hat]
  dsimp only
  by_cases hhead : (s.queues other).head = otherHead
  · rw [if_pos hhead]
    subst hhead
    have hclaimed : ∀ j, Claimed (s.queues j)
        (Function.update s.queues other { s.queues other with head := (s.queues other).head + n } j) := by
      intro j
      by_cases hj : j = other
      · rw [hj, Function.update_self]
        exact claimed_claim n
      · rw [Function.update_of_ne hj]
        exact .refl _
    refine ⟨⟨fun j => ?_, fun j => ?_, fun j => ?_⟩, ?_, fun j => Nat.zero_le _⟩
    · show Ok p (Function.update s.queues other _ j) (entered j ++ [])
      rw [List.append_nil]
      by_cases hj : j = other
      · rw [hj, Function.update_self]
        exact (h.ok other).claim hfound.filled
      · rw [Function.update_of_ne hj]
        exact h.ok j
    · show PlaceOk p (Function.update s.queues other _) j (Function.update s.place i _ j)
      by_cases hj : j = i
      · rw [hj, Function.update_self]
        dsimp only [PlaceOk]
        rw [Function.update_of_ne hne.symm]
        exact ⟨hfound.own, hfound.room, hfound.pos⟩
      · rw [Function.update_of_ne hj]
        exact (h.place j).frame (hclaimed j) fun k => (hclaimed k).grows
    · exact h.popped_mono (hclaimed j).head []
    · refine congrArg (· + (0 : Multiset α)) (Lib.sum_exchange hne ?_ ?_)
      · intro k hk hki
        show stored p (Function.update s.queues other _ k) + (inHand p (Function.update s.queues other _ k)
          (Function.update s.place i _ k) : Multiset α) = _
        rw [Function.update_of_ne hk, Function.update_of_ne hki]
      · show stored p (Function.update s.queues other _ other) + (inHand p (Function.update s.queues other _ other)
            (Function.update s.place i _ other) : Multiset α) +
          (stored p (Function.update s.queues other _ i) + (inHand p (Function.update s.queues other _ i)
            (Function.update s.place i _ i) : Multiset α)) = _
        rw [Function.update_self, Function.update_self, Function.update_of_ne hne, Function.update_of_ne hne.symm, hat,
          stored_claim hfound.filled, inHand_claim]
        show _ + (_ + (slots p (s.queues i) tail n : Multiset α)) = _ + (_ + 0)
        rw [slots_congr (hcopied rfl), add_zero]
        ac_rfl
  · rw [if_neg hhead]
    exact h.goes hne (fun _ => ⟨rfl, rfl⟩) (by rw [hat]; rfl)

theorem Inv.step_last (h : Inv p s entered popped) {i : ι} {tail n : ℕ} (hat : s.place i = .last tail n) :
    Advances p s entered popped [] (ownerStep p s i) := by
  obtain ⟨htail, hroom, hpos⟩ : (s.queues i).tail = tail ∧ tail + n ≤ (s.queues i).head + 2 ^ p ∧ 0 < n := by
    have hplace := h.place i
    rwa [hat] at hplace
  have hsplit : slots p (s.queues i) tail n =
      slots p (s.queues i) tail (n - 1) ++ [(s.queues i).buf (slot p (tail + (n - 1)))] := by
    rw [← slots_one, ← slots_add, Nat.sub_add_cancel hpos]
  unfold ownerStep
  rw [hat]
  refine h.goes ⟨htail, by omega⟩ (fun _ => ⟨rfl, rfl⟩) ?_
  rw [hat]
  show _ = slots p (s.queues i) tail n ++ []
  rw [hsplit, List.append_nil]
  rfl

theorem Inv.step_stealPublish (h : Inv p s entered popped) {i : ι} {tail n : ℕ} {value : α}
    (hat : s.place i = .stealPublish tail n value) : Advances p s entered popped [] (ownerStep p s i) := by
  obtain ⟨rfl, hroom⟩ : (s.queues i).tail = tail ∧ tail + n ≤ (s.queues i).head + 2 ^ p := by
    have hplace := h.place i
    rwa [hat] at hplace
  have hok := h.ok i
  have hentered : Answer.enteredIn i (.stole i value (slots p (s.queues i) (s.queues i).tail n)) =
      slots p (s.queues i) (s.queues i).tail n := if_pos rfl
  unfold ownerStep
  rw [hat]
  refine h.turns (grows_publish n) ?_ trivial (fun j hj => ⟨if_neg hj.symm, rfl⟩) (h.popped_mono le_rfl _) ?_ ?_
  · rw [hentered]
    exact hok.publish hroom
  · rw [hentered, length_slots]
    have hhead := hok.head_le
    omega
  · rw [stored_publish hok, hat]
    show stored p (s.queues i) + (slots p (s.queues i) (s.queues i).tail n : Multiset α) + 0 +
      (([value] : List α) : Multiset α) =
        stored p (s.queues i) + ((slots p (s.queues i) (s.queues i).tail n ++ [value] : List α) : Multiset α) + 0
    rw [add_zero, add_zero, ← Multiset.coe_add, add_assoc]

theorem Inv.owner (h : Inv p s entered popped) (hp : p < 64) (i : ι) :
    Advances p s entered popped [] (ownerStep p s i) := by
  cases hat : s.place i with
  | idle =>
    unfold ownerStep
    rw [hat]
    refine ⟨?_, rfl, fun _ => Nat.zero_le _⟩
    convert h using 2 <;> exact List.append_nil _
  | push value => exact h.step_push hat
  | pushHead value tail => exact h.step_pushHead hp hat
  | store value tail => exact h.step_store hat
  | publish value tail => exact h.step_publish hat
  | overflow value head => exact h.step_overflow hat
  | spill value head j => exact h.step_spill hat
  | spillValue value => exact h.step_spillValue hat
  | pop => exact h.step_pop hat
  | popHead tail => exact h.step_popHead hat
  | popLoad head => exact h.step_popLoad hat
  | popExchange head value => exact h.step_popExchange hat
  | steal other => exact h.step_steal hat
  | stealHead other tail => exact h.step_stealHead hat
  | otherHead other tail head => exact h.step_otherHead hat
  | otherTail other tail head otherHead => exact h.step_otherTail hp hat
  | copyLoad other tail otherHead n j => exact h.step_copyLoad hat
  | copyStore other tail otherHead n j value => exact h.step_copyStore hat
  | stealExchange other tail otherHead n => exact h.step_stealExchange hat
  | last tail n => exact h.step_last hat
  | stealPublish tail n value => exact h.step_stealPublish hat

theorem Inv.step (h : Inv p s entered popped) (hp : p < 64) (event : Event ι α) :
    Advances p s entered popped (event.pushed s) (step p s event) := by
  have hsame : Advances p s entered popped [] (s, .nothing) := by
    refine ⟨?_, rfl, fun _ => Nat.zero_le _⟩
    convert h using 2 <;> exact List.append_nil _
  cases event with
  | localPush i value =>
    dsimp only [StealingQueue.step, Event.pushed]
    cases hat : s.place i with
    | idle => exact h.goes trivial (fun _ => ⟨rfl, rfl⟩) (by rw [hat]; rfl)
    | _ => exact hsame
  | localPop i =>
    dsimp only [StealingQueue.step]
    cases hat : s.place i with
    | idle => exact h.goes trivial (fun _ => ⟨rfl, rfl⟩) (by rw [hat]; rfl)
    | _ => exact hsame
  | steal i other =>
    dsimp only [StealingQueue.step]
    cases hat : s.place i with
    | idle =>
      dsimp only
      by_cases hself : other = i
      · rw [if_pos hself]
        exact hsame
      · rw [if_neg hself]
        exact h.goes hself (fun _ => ⟨rfl, rfl⟩) (by rw [hat]; rfl)
    | _ => exact hsame
  | owner i => exact h.owner hp i

/-! ### Whole runs -/

/-- A run keeps the invariant, and what it begins to push is delivered or held at its end. -/
theorem Inv.run (hp : p < 64) : ∀ (events : List (Event ι α)) {s : System ι α} {entered popped : ι → List α},
    Inv p s entered popped → ∃ t answers, (machine p ι α).run s events = some (t, answers) ∧
      Inv p t (fun i => entered i ++ answers.flatMap (Answer.enteredIn i))
        (fun i => popped i ++ answers.flatMap (Answer.poppedFrom i)) ∧
      held p t + (answers.flatMap Answer.delivered : List α) = held p s + (pushed p s events : Multiset α) ∧
      ∀ i, (answers.flatMap (Answer.enteredIn i)).length ≤ events.length * 2 ^ p
  | [], s, entered, popped, h => by
    refine ⟨s, [], rfl, ?_, rfl, fun _ => Nat.zero_le _⟩
    convert h using 2 <;> exact List.append_nil _
  | event :: events, s, entered, popped, h => by
    have hstep := h.step hp event
    obtain ⟨t, answers, hrun, ht, hheld, hfew⟩ := Inv.run hp events hstep.inv
    refine ⟨t, (StealingQueue.step p s event).2 :: answers, Lib.Machine.run_cons_of rfl hrun, ?_, ?_, fun i => ?_⟩
    · simpa only [List.flatMap_cons, List.append_assoc] using ht
    · rw [List.flatMap_cons, ← Multiset.coe_add, add_left_comm, hheld, pushed, ← Multiset.coe_add, ← add_assoc,
        ← add_assoc, ← hstep.held, add_comm (held p _)]
    · have hmore := hstep.few i
      have hrest := hfew i
      rw [List.flatMap_cons, List.length_append, List.length_cons, Nat.add_one_mul]
      omega

omit [DecidableEq ι] [Fintype ι] in
theorem inv_start [Inhabited α] : Inv p (start ι α) (fun _ => []) fun _ => [] where
  ok := fun _ => ⟨le_rfl, Nat.zero_le _, rfl, fun _ _ hk => absurd hk (Nat.not_lt_zero _)⟩
  place := fun _ => trivial
  popped := fun _ => List.nil_sublist _

/-- Every value that was pushed has been delivered once, or is once in a queue or in the hands of an owner that
is in a call; what is popped from a queue comes in the order in which it entered.  Each step brings at most `2 ^ p`
values into a queue, so the counters stay below that many for each step. -/
theorem delivered_once [Inhabited α] (hp : p < 64) (events : List (Event ι α)) :
    ∃ s answers, (machine p ι α).run (start ι α) events = some (s, answers) ∧
      (pushed p (start ι α) events : Multiset α) = (answers.flatMap Answer.delivered : List α) + held p s ∧
      ((∀ i, s.place i = .idle) → held p s = ∑ i, stored p (s.queues i)) ∧
      (∀ i, (answers.flatMap (Answer.poppedFrom i)).Sublist (answers.flatMap (Answer.enteredIn i))) ∧
      ∀ i, (s.queues i).head ≤ (s.queues i).tail ∧ (s.queues i).tail ≤ events.length * 2 ^ p := by
  have hstart : held p (start ι α) = 0 := Finset.sum_eq_zero fun i _ => rfl
  obtain ⟨s, answers, hrun, h, hheld, hfew⟩ := inv_start.run hp events
  rw [hstart, zero_add, add_comm] at hheld
  refine ⟨s, answers, hrun, hheld.symm, fun hidle => ?_, fun i => ?_, fun i => ⟨(h.ok i).head_le, ?_⟩⟩
  · refine Finset.sum_congr rfl fun i _ => ?_
    rw [hidle i]
    exact add_zero _
  · exact (h.popped i).trans (List.take_sublist _ _)
  · rw [← (h.ok i).length]
    exact hfew i

/-- Two values are pushed into one queue, one of them is stolen into another, and both queues pop. -/
def pushesAndSteals : List (Event Bool ℕ) :=
  .localPush false 7 :: List.replicate 4 (.owner false) ++ .localPush false 8 :: List.replicate 4 (.owner false) ++
    .steal true false :: List.replicate 9 (.owner true) ++ .localPop false :: List.replicate 4 (.owner false)

example : ((machine 1 Bool ℕ).run (start Bool ℕ) pushesAndSteals).map
    (fun run => run.2.flatMap Answer.delivered) = some [7, 8] := by decide

theorem delivered_once_two : ∃ s answers,
    (machine 1 Bool ℕ).run (start Bool ℕ) pushesAndSteals = some (s, answers) ∧
    (pushed 1 (start Bool ℕ) pushesAndSteals : Multiset ℕ) =
      (answers.flatMap Answer.delivered : List ℕ) + held 1 s ∧
    ((∀ i, s.place i = .idle) → held 1 s = ∑ i, stored 1 (s.queues i)) ∧
    (∀ i, (answers.flatMap (Answer.poppedFrom i)).Sublist (answers.flatMap (Answer.enteredIn i))) ∧
    ∀ i, (s.queues i).head ≤ (s.queues i).tail ∧ (s.queues i).tail ≤ pushesAndSteals.length * 2 ^ 1 :=
  delivered_once (by decide) _

end TdUtils.StealingQueue
