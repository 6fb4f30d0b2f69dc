import TdUtils.Concurrent.StealingQueue

/-!
# Concurrent.StealingClaims — what an owner knows in a call

What was read of a queue is still true of it as long as its head has not moved, and only its owner writes slots,
none of them between the head and the tail.
-/

namespace TdUtils.StealingQueue

variable {ι α : Type} {p : ℕ}

/-! ### Slots -/

theorem slot_ne {k m : ℕ} (hne : k ≠ m) (hk : k < m + 2 ^ p) (hm : m < k + 2 ^ p) : slot p k ≠ slot p m := by
  intro heq
  unfold slot at heq
  rw [Nat.and_two_pow_sub_one_eq_mod, Nat.and_two_pow_sub_one_eq_mod] at heq
  rcases Nat.lt_or_gt_of_ne hne with hlt | hlt
  · have hzero := Nat.sub_mod_eq_zero_of_mod_eq heq.symm
    rw [Nat.mod_eq_of_lt (by omega)] at hzero
    omega
  · have hzero := Nat.sub_mod_eq_zero_of_mod_eq heq
    rw [Nat.mod_eq_of_lt (by omega)] at hzero
    omega

theorem size_sub {a b : ℕ} (hp : p < 64) (hle : b ≤ a) (hlt : a ≤ b + 2 ^ p) : size (a - b) = a - b := by
  have hpow : 2 ^ p < 2 ^ 64 := Nat.pow_lt_pow_right (Nat.lt_succ_self 1) hp
  unfold size
  omega

theorem overflowSize_le : overflowSize p ≤ 2 ^ p := by
  have hpos := Nat.two_pow_pos p
  unfold overflowSize
  omega

theorem overflowSize_pos : 0 < overflowSize p := Nat.succ_pos _

variable {q o : StealingQueue α}

theorem slots_add (k m n : ℕ) : slots p q k (m + n) = slots p q k m ++ slots p q (k + m) n := by
  unfold slots
  rw [← List.map_append, List.range'_append_1]

theorem slots_one (k : ℕ) : slots p q k 1 = [q.buf (slot p k)] := rfl

theorem length_slots (k n : ℕ) : (slots p q k n).length = n := by
  unfold slots
  rw [List.length_map, List.length_range']

theorem getElem?_slots {k n j : ℕ} (hj : j < n) : (slots p q k n)[j]? = some (q.buf (slot p (k + j))) := by
  unfold slots
  rw [List.getElem?_map, List.getElem?_range' hj, Nat.one_mul]
  rfl

theorem slots_congr {k m n : ℕ} (h : ∀ j < n, q.buf (slot p (j + k)) = o.buf (slot p (j + m))) :
    slots p q k n = slots p o m n := by
  refine List.ext_getElem? fun j => ?_
  by_cases hj : j < n
  · rw [getElem?_slots hj, getElem?_slots hj, Nat.add_comm k, Nat.add_comm m, h j hj]
  · rw [List.getElem?_eq_none, List.getElem?_eq_none] <;> rw [length_slots] <;> omega

/-! ### What holds of a queue, and what an owner knows in a call -/

/-- `entered` is everything that ever entered the queue. -/
structure Ok (p : ℕ) (q : StealingQueue α) (entered : List α) : Prop where
  head_le : q.head ≤ q.tail
  tail_le : q.tail ≤ q.head + 2 ^ p
  length : entered.length = q.tail
  stored : ∀ k, q.head ≤ k → k < q.tail → entered[k]? = some (q.buf (slot p k))

/-- Others only claim values of a queue. -/
structure Claimed (q q' : StealingQueue α) : Prop where
  head : q.head ≤ q'.head
  tail : q'.tail = q.tail
  buf : q'.buf = q.buf

/-- Its owner also writes slots. -/
structure Grows (p : ℕ) (q q' : StealingQueue α) : Prop where
  head : q.head ≤ q'.head
  tail : q.tail ≤ q'.tail
  kept : ∀ k, q'.head ≤ k → k < q.tail → q'.buf (slot p k) = q.buf (slot p k)

/-- The values that `steal` has found in the queue `o`, and the room for them in its own. -/
structure Found (p : ℕ) (q o : StealingQueue α) (tail otherHead n : ℕ) : Prop where
  own : q.tail = tail
  room : tail + n ≤ q.head + 2 ^ p
  seen : otherHead ≤ o.head
  filled : otherHead + n ≤ o.tail
  pos : 0 < n

/-- The first `n` values have been copied. -/
def Copied (p : ℕ) (q o : StealingQueue α) (tail otherHead n : ℕ) : Prop :=
  o.head = otherHead → ∀ j < n, q.buf (slot p (j + tail)) = o.buf (slot p (j + otherHead))

def PlaceOk (p : ℕ) (queues : ι → StealingQueue α) (i : ι) : Place ι α → Prop
  | .pushHead _ tail => (queues i).tail = tail
  | .store _ tail => (queues i).tail = tail ∧ tail < (queues i).head + 2 ^ p
  | .publish value tail => (queues i).tail = tail ∧ tail < (queues i).head + 2 ^ p ∧
      (queues i).buf (slot p tail) = value
  | .overflow _ head => head ≤ (queues i).head ∧ head + 2 ^ p ≤ (queues i).tail
  | .spill _ _ j => j < overflowSize p
  | .popHead tail => (queues i).tail = tail
  | .popLoad head => head ≤ (queues i).head ∧ head < (queues i).tail
  | .popExchange head value => head ≤ (queues i).head ∧ head < (queues i).tail ∧
      ((queues i).head = head → (queues i).buf (slot p head) = value)
  | .steal other => other ≠ i
  | .stealHead other tail => other ≠ i ∧ (queues i).tail = tail
  | .otherHead other tail head => other ≠ i ∧ (queues i).tail = tail ∧ head ≤ (queues i).head ∧ tail ≤ head + 2 ^ p
  | .otherTail other tail head otherHead => other ≠ i ∧ (queues i).tail = tail ∧ head ≤ (queues i).head ∧
      tail ≤ head + 2 ^ p ∧ otherHead ≤ (queues other).head
  | .copyLoad other tail otherHead n j => other ≠ i ∧ Found p (queues i) (queues other) tail otherHead n ∧ j < n ∧
      Copied p (queues i) (queues other) tail otherHead j
  | .copyStore other tail otherHead n j value => other ≠ i ∧ Found p (queues i) (queues other) tail otherHead n ∧
      j < n ∧ Copied p (queues i) (queues other) tail otherHead j ∧
      ((queues other).head = otherHead → (queues other).buf (slot p (j + otherHead)) = value)
  | .stealExchange other tail otherHead n => other ≠ i ∧ Found p (queues i) (queues other) tail otherHead n ∧
      Copied p (queues i) (queues other) tail otherHead n
  | .last tail n => (queues i).tail = tail ∧ tail + n ≤ (queues i).head + 2 ^ p ∧ 0 < n
  | .stealPublish tail n _ => (queues i).tail = tail ∧ tail + n ≤ (queues i).head + 2 ^ p
  | _ => True

/-- `entered` and `popped` are what was answered for each queue. -/
structure Inv (p : ℕ) (s : System ι α) (entered popped : ι → List α) : Prop where
  ok : ∀ i, Ok p (s.queues i) (entered i)
  place : ∀ i, PlaceOk p s.queues i (s.place i)
  popped : ∀ i, (popped i).Sublist ((entered i).take (s.queues i).head)

/-! ### The steps of others -/

variable {q' o' : StealingQueue α} {tail otherHead n : ℕ}

theorem Claimed.refl (q : StealingQueue α) : Claimed q q := ⟨le_rfl, rfl, rfl⟩

theorem Claimed.grows (h : Claimed q q') : Grows p q q' where
  head := h.head
  tail := h.tail.ge
  kept := fun _ _ _ => by rw [h.buf]

theorem Grows.refl (q : StealingQueue α) : Grows p q q := (Claimed.refl q).grows

theorem Found.frame (h : Found p q o tail otherHead n) (hq : Claimed q q') (ho : Grows p o o') :
    Found p q' o' tail otherHead n where
  own := hq.tail.trans h.own
  room := h.room.trans (Nat.add_le_add_right hq.head _)
  seen := h.seen.trans ho.head
  filled := h.filled.trans ho.tail
  pos := h.pos

/-- A value that was found is still there when the head is still where it was. -/
theorem Found.kept (h : Found p q o tail otherHead n) (ho : Grows p o o') (hhead : o'.head = otherHead) {j : ℕ}
    (hj : j < n) : o.head = otherHead ∧ o'.buf (slot p (j + otherHead)) = o.buf (slot p (j + otherHead)) := by
  have hle := ho.head
  have hseen := h.seen
  have hfilled := h.filled
  exact ⟨by omega, ho.kept _ (by omega) (by omega)⟩

theorem Found.copied_frame (h : Found p q o tail otherHead n) (hq : Claimed q q') (ho : Grows p o o') {m : ℕ}
    (hm : m ≤ n) (hcopied : Copied p q o tail otherHead m) : Copied p q' o' tail otherHead m := by
  intro hhead j hj
  obtain ⟨hold, hkept⟩ := h.kept ho hhead (hj.trans_le hm)
  rw [hq.buf, hkept]
  exact hcopied hold j hj

theorem PlaceOk.frame {queues queues' : ι → StealingQueue α} {i : ι} {place : Place ι α}
    (h : PlaceOk p queues i place) (hi : Claimed (queues i) (queues' i)) (hall : ∀ j, Grows p (queues j) (queues' j)) :
    PlaceOk p queues' i place := by
  have hhead := hi.head
  have htail := hi.tail
  have hbuf := hi.buf
  cases place with
  | pushHead value tail => exact htail.trans h
  | store value tail => exact ⟨htail.trans h.1, h.2.trans_le (Nat.add_le_add_right hhead _)⟩
  | publish value tail =>
    refine ⟨htail.trans h.1, h.2.1.trans_le (Nat.add_le_add_right hhead _), ?_⟩
    rw [hbuf]
    exact h.2.2
  | overflow value head => exact ⟨h.1.trans hhead, h.2.trans htail.ge⟩
  | spill value head j => exact h
  | popHead tail => exact htail.trans h
  | popLoad head => exact ⟨h.1.trans hhead, h.2.trans_le htail.ge⟩
  | popExchange head value =>
    refine ⟨h.1.trans hhead, h.2.1.trans_le htail.ge, fun heq => ?_⟩
    have hle := h.1
    rw [hbuf]
    exact h.2.2 (by omega)
  | steal other => exact h
  | stealHead other tail => exact ⟨h.1, htail.trans h.2⟩
  | otherHead other tail head => exact ⟨h.1, htail.trans h.2.1, h.2.2.1.trans hhead, h.2.2.2⟩
  | otherTail other tail head otherHead =>
    exact ⟨h.1, htail.trans h.2.1, h.2.2.1.trans hhead, h.2.2.2.1, h.2.2.2.2.trans (hall other).head⟩
  | copyLoad other tail otherHead n j =>
    obtain ⟨hne, hfound, hj, hcopied⟩ := h
    exact ⟨hne, hfound.frame hi (hall other), hj, hfound.copied_frame hi (hall other) hj.le hcopied⟩
  | copyStore other tail otherHead n j value =>
    obtain ⟨hne, hfound, hj, hcopied, hvalue⟩ := h
    refine ⟨hne, hfound.frame hi (hall other), hj, hfound.copied_frame hi (hall other) hj.le hcopied, fun hother => ?_⟩
    obtain ⟨hold, hkept⟩ := hfound.kept (hall other) hother hj
    rw [hkept]
    exact hvalue hold
  | stealExchange other tail otherHead n =>
    obtain ⟨hne, hfound, hcopied⟩ := h
    exact ⟨hne, hfound.frame hi (hall other), hfound.copied_frame hi (hall other) le_rfl hcopied⟩
  | last tail n => exact ⟨htail.trans h.1, h.2.1.trans (Nat.add_le_add_right hhead _), h.2.2⟩
  | stealPublish tail n value => exact ⟨htail.trans h.1, h.2.trans (Nat.add_le_add_right hhead _)⟩
  | _ => trivial

end TdUtils.StealingQueue
