import TdUtils.Concurrent.EpochReclamation
import TdUtils.Lib.Waiting

/-!
# Concurrent.EpochSafety — the epoch is at most one ahead of every thread that reads

The epoch advances only when every thread that is not idle has published since it was last advanced.  So a thread
that has retired an object and has seen two later epochs knows that nobody reads who has read it before.
-/

namespace TdUtils.EpochBasedMemoryReclamation

variable {n : ℕ} {π ν : Type} {s t : EpochBasedMemoryReclamation n π ν} {answers : List (Answer n ν)}
  {events : List (Event n π ν)} {seen : Fin n → Option ℕ} {data : ThreadData ν} {place : Place} {i : Fin n} {g : ℕ}

/-! ### The epochs -/

/-- What a thread knows at its place: `set_epoch` is called with a later epoch, and with another one when it follows
an exchange. -/
def PlaceOk (g : ℕ) (data : ThreadData ν) : Place → Prop
  | .setEpoch _ checking newEpoch =>
    data.epoch / 2 ≤ newEpoch ∧ newEpoch ≤ g ∧ (checking = true → data.epoch / 2 ≠ newEpoch)
  | .publish _ _ newEpoch =>
    data.epoch / 2 ≤ newEpoch ∧ newEpoch ≤ g ∧ (data.epoch / 2 = newEpoch ∨ data.checkedThreadI = 0)
  | .ready true | .check _ | .advance _ => data.epoch % 2 = 0
  | _ => True

/-- `seen` is the epoch that was current when a thread that is not idle has published its own. -/
structure ThreadOk (g : ℕ) (seen : Fin n → Option ℕ) (i : Fin n) (data : ThreadData ν) (place : Place) : Prop where
  range : place.InRange n data.checkedThreadI
  le : data.epoch / 2 ≤ g
  published : data.epoch % 2 = 0 ↔ seen i ≠ none
  behind : ∀ j b, j = i ∨ j.val < data.checkedThreadI → seen j = some b → data.epoch / 2 ≤ b
  place : PlaceOk g data place

structure Epochs (s : EpochBasedMemoryReclamation n π ν) (seen : Fin n → Option ℕ) : Prop where
  near : ∀ j b, seen j = some b → b ≤ s.epoch ∧ s.epoch ≤ b + 1
  threads : ∀ i, ThreadOk s.epoch seen i (s.threads i) (s.place i)

theorem PlaceOk.mono (h : PlaceOk g data place) : PlaceOk (g + 1) data place := by
  cases place with
  | setEpoch call checking newEpoch => exact ⟨h.1, Nat.le_succ_of_le h.2.1, h.2.2⟩
  | publish call checking newEpoch => exact ⟨h.1, Nat.le_succ_of_le h.2.1, h.2.2⟩
  | ready locked =>
    cases locked with
    | true => exact h
    | false => trivial
  | check call => exact h
  | advance call => exact h
  | _ => trivial

/-- A thread publishes the current epoch, or becomes idle, or neither. -/
theorem Epochs.put (h : Epochs s seen) (seenNow : Option ℕ)
    (hnow : ∀ b, seenNow = some b → b = s.epoch ∨ seen i = some b)
    (hi : ThreadOk s.epoch (Function.update seen i seenNow) i data place) :
    Epochs (s.put i data place) (Function.update seen i seenNow) := by
  have hnear : ∀ j b, Function.update seen i seenNow j = some b → b = s.epoch ∨ seen j = some b := by
    intro j b hb
    by_cases hj : j = i
    · rw [hj, Function.update_self] at hb
      rw [hj]
      exact hnow b hb
    · rw [Function.update_of_ne hj] at hb
      exact .inr hb
  refine ⟨fun j b hb => ?_, fun j => ?_⟩
  · rcases hnear j b hb with rfl | hseen
    · exact ⟨Nat.le_refl _, Nat.le_succ _⟩
    · exact h.near j b hseen
  · show ThreadOk s.epoch _ j (Function.update s.threads i data j) (Function.update s.place i place j)
    by_cases hj : j = i
    · rw [hj, Function.update_self, Function.update_self]
      exact hi
    · rw [Function.update_of_ne hj, Function.update_of_ne hj]
      obtain ⟨hrange, hle, hpublished, hbehind, hplace⟩ := h.threads j
      refine ⟨hrange, hle, ?_, fun k b hk hb => ?_, hplace⟩
      · rw [Function.update_of_ne hj]
        exact hpublished
      · rcases hnear k b hb with rfl | hseen
        · exact hle
        · exact hbehind k b hk hseen

theorem Epochs.put_same (h : Epochs s seen) (hi : ThreadOk s.epoch seen i data place) :
    Epochs (s.put i data place) seen := by
  have hput := h.put (i := i) (seen i) (fun b hb => .inr hb) (by rwa [Function.update_eq_self])
  rwa [Function.update_eq_self] at hput

/-- The epoch advances when all have published since it was last advanced. -/
theorem Epochs.next (h : Epochs s seen) (hall : ∀ j b, seen j = some b → s.epoch ≤ b) :
    Epochs { s with epoch := s.epoch + 1 } seen := by
  refine ⟨fun j b hb => ?_, fun j => ?_⟩
  · have hle := (h.near j b hb).1
    have hall := hall j b hb
    exact ⟨by dsimp only; omega, by dsimp only; omega⟩
  · obtain ⟨hrange, hle, hpublished, hbehind, hplace⟩ := h.threads j
    exact ⟨hrange, Nat.le_succ_of_le hle, hpublished, hbehind, hplace.mono⟩

/-! ### Each operation on the epochs -/

theorem or_one_mod (a : ℕ) : (a ||| 1) % 2 = 1 := by
  rw [Nat.or_mod_two_eq_one]
  exact .inr rfl

theorem or_one_div (a : ℕ) : (a ||| 1) / 2 = a / 2 := by
  rw [Nat.or_div_two]
  exact Nat.or_zero _

/-- A call goes on after its `step_check` in a state in which the thread has published. -/
theorem PlaceOk.checked (data : ThreadData ν) (heven : data.epoch % 2 = 0) (result : Bool) (call : Call) :
    PlaceOk g data (checked data result call) := by
  cases call with
  | lock => exact heven
  | retire locked =>
    dsimp only [EpochBasedMemoryReclamation.checked]
    split
    · exact heven
    · cases locked with
      | true => exact heven
      | false => trivial
  | retireSync =>
    dsimp only [EpochBasedMemoryReclamation.checked]
    split
    · exact heven
    · trivial

theorem inRange_checked {checkedThreadI : ℕ} (h : checkedThreadI < n) (data : ThreadData ν) (result : Bool)
    (call : Call) : (checked data result call).InRange n checkedThreadI := by
  cases call with
  | lock => exact h
  | retire locked =>
    dsimp only [checked]
    split <;> exact h
  | retireSync =>
    dsimp only [checked]
    split <;> exact h

/-- Only the place changes. -/
theorem ThreadOk.move {place' : Place} (h : ThreadOk g seen i data place)
    (hrange : place'.InRange n data.checkedThreadI) (hplace : PlaceOk g data place') : ThreadOk g seen i data place' :=
  ⟨hrange, h.le, h.published, h.behind, hplace⟩

theorem startEpoch_epoch (data : ThreadData ν) (newEpoch : ℕ) : (data.startEpoch newEpoch).epoch = data.epoch := by
  unfold ThreadData.startEpoch
  split <;> rfl

theorem startEpoch_checkedThreadI (data : ThreadData ν) (newEpoch : ℕ) :
    (data.startEpoch newEpoch).checkedThreadI = if data.epoch / 2 ≠ newEpoch then 0 else data.checkedThreadI := by
  unfold ThreadData.startEpoch
  split <;> rfl

theorem ThreadOk.startEpoch {call : Call} {checking : Bool} {newEpoch : ℕ}
    (h : ThreadOk g seen i data (.setEpoch call checking newEpoch)) :
    ThreadOk g seen i (data.startEpoch newEpoch) (.publish call checking newEpoch) := by
  obtain ⟨hrange, hle, hpublished, hbehind, hplace⟩ := h
  obtain ⟨hfrom, hto, hchecking⟩ := hplace
  refine ⟨?_, ?_, ?_, ?_, ?_, hto, ?_⟩
  · show (data.startEpoch newEpoch).checkedThreadI < n
    rw [startEpoch_checkedThreadI]
    split
    · exact i.pos
    · rename_i hsame
      cases checking with
      | true => exact absurd (hchecking rfl) hsame
      | false => exact hrange
  · rw [startEpoch_epoch]
    exact hle
  · rw [startEpoch_epoch]
    exact hpublished
  · rw [startEpoch_epoch, startEpoch_checkedThreadI]
    intro j b hj hb
    split at hj
    · rcases hj with rfl | hj
      · exact hbehind j b (.inl rfl) hb
      · exact absurd hj (Nat.not_lt_zero _)
    · exact hbehind j b hj hb
  · rw [startEpoch_epoch]
    exact hfrom
  · rw [startEpoch_epoch, startEpoch_checkedThreadI]
    split
    · exact .inr rfl
    · rename_i hsame
      exact .inl (not_not.mp hsame)

/-- The store of `set_epoch`. -/
theorem ThreadOk.publish {call : Call} {checking : Bool} {newEpoch : ℕ} {data' : ThreadData ν} {place' : Place}
    (h : ThreadOk g seen i data (.publish call checking newEpoch)) (hepoch : data'.epoch = newEpoch * 2)
    (hchecked : data'.checkedThreadI = data.checkedThreadI) (hrange : place'.InRange n data.checkedThreadI)
    (hplace : PlaceOk g data' place') : ThreadOk g (Function.update seen i (some g)) i data' place' := by
  obtain ⟨-, -, -, hbehind, hfrom, hto, hsame⟩ := h
  have hdiv : data'.epoch / 2 = newEpoch := by omega
  refine ⟨?_, ?_, ?_, fun j b hj hb => ?_, hplace⟩
  · rw [hchecked]
    exact hrange
  · rw [hdiv]
    exact hto
  · rw [Function.update_self]
    exact ⟨fun _ h => (by cases h), fun _ => by omega⟩
  · rw [hdiv]
    by_cases hji : j = i
    · rw [hji, Function.update_self] at hb
      rw [← Option.some.inj hb]
      exact hto
    · rw [Function.update_of_ne hji] at hb
      rw [hchecked] at hj
      rcases hj with hj | hj
      · exact absurd hj hji
      · rcases hsame with hsame | hzero
        · rw [← hsame]
          exact hbehind j b (.inr hj) hb
        · omega

/-- The next thread is idle or has published the same epoch. -/
theorem ThreadOk.count {place' : Place} (h : ThreadOk g seen i data place) (hlt : data.checkedThreadI < n)
    (hseen : ∀ b, seen ⟨data.checkedThreadI, hlt⟩ = some b → data.epoch / 2 ≤ b)
    (hrange : place'.InRange n (data.checkedThreadI + 1))
    (hplace : PlaceOk g { data with checkedThreadI := data.checkedThreadI + 1 } place') :
    ThreadOk g seen i { data with checkedThreadI := data.checkedThreadI + 1 } place' := by
  refine ⟨hrange, h.le, h.published, fun j b hj hb => ?_, hplace⟩
  rcases hj with hj | hj
  · exact h.behind j b (.inl hj) hb
  · rcases Nat.lt_succ_iff_lt_or_eq.mp hj with hj | hj
    · exact h.behind j b (.inr hj) hb
    · obtain rfl : j = ⟨data.checkedThreadI, hlt⟩ := Fin.ext hj
      exact hseen b hb

theorem ThreadOk.idle {place' : Place} (h : ThreadOk g seen i data place)
    (hrange : place'.InRange n data.checkedThreadI) (hplace : PlaceOk g data.idle place') :
    ThreadOk g (Function.update seen i none) i data.idle place' := by
  refine ⟨hrange, ?_, ?_, fun j b hj hb => ?_, hplace⟩
  · show (data.epoch ||| 1) / 2 ≤ g
    rw [or_one_div]
    exact h.le
  · show (data.epoch ||| 1) % 2 = 0 ↔ _
    rw [or_one_mod, Function.update_self]
    exact ⟨fun heq => (by cases heq), fun hne => absurd rfl hne⟩
  · show (data.epoch ||| 1) / 2 ≤ b
    rw [or_one_div]
    by_cases hji : j = i
    · rw [hji, Function.update_self] at hb
      cases hb
    · rw [Function.update_of_ne hji] at hb
      exact h.behind j b hj hb

/-- A thread that checks another one has to wait for it, or knows that it has published the same epoch. -/
theorem Epochs.counts (h : Epochs s seen) {j : Fin n}
    (hother : (s.threads j).epoch % 2 = 1 ∨ (s.threads j).epoch / 2 = data.epoch / 2) (b : ℕ)
    (hb : seen j = some b) : data.epoch / 2 ≤ b := by
  have hj := h.threads j
  rcases hother with hodd | hsame
  · have heven : (s.threads j).epoch % 2 = 0 := hj.published.mpr (by rw [hb]; exact Option.some_ne_none b)
    omega
  · rw [← hsame]
    exact hj.behind j b (.inl rfl) hb

theorem Epochs.advance (h : Epochs s seen) {call : Call} (hat : s.place i = .advance call) :
    Epochs (s.advance i call) seen := by
  have hi := h.threads i
  rw [hat] at hi
  have hrange : (s.threads i).checkedThreadI = n := hi.range
  unfold EpochBasedMemoryReclamation.advance
  dsimp only
  split
  · rename_i heq
    rw [← heq]
    refine (h.next fun j b hb => ?_).put_same ?_
    · rw [heq]
      exact hi.behind j b (.inr (by rw [hrange]; exact j.isLt)) hb
    · exact ⟨hrange, Nat.le_succ_of_le hi.le, hi.published, hi.behind, by
        dsimp only [PlaceOk]
        omega⟩
  · rename_i hne
    exact h.put_same (hi.move hrange ⟨hi.le, Nat.le_refl _, fun _ heq => hne heq.symm⟩)

/-! ### The bags -/

/-- The bag that was in use `age` rotations ago. -/
def ThreadData.bag (data : ThreadData ν) (age : Fin maxBags) : List ν := data.toDelete (data.bagI - age)

/-- The epoch that `set_epoch` is going to store. -/
def Place.pending : Place → Option ℕ
  | .setEpoch _ _ newEpoch => some newEpoch
  | _ => none

/-- The epoch of the thread, as of the last rotation. -/
def Place.current (data : ThreadData ν) : Place → ℕ
  | .publish _ _ newEpoch => newEpoch
  | _ => data.epoch / 2

/-- The epochs that the thread of the bags has seen since it has retired what `guard` still uses. -/
structure BagsOk (seen : Fin n → Option ℕ) (guard : Fin n → ν → Prop) (data : ThreadData ν) (place : Place) : Prop where
  young : ∀ j ptr b, guard j ptr → seen j = some b → ptr ∈ data.bag 0 → ∀ epoch ∈ place.pending, b ≤ epoch
  middle : ∀ j ptr b, guard j ptr → seen j = some b → ptr ∈ data.bag 1 → b ≤ place.current data
  old : ∀ j ptr b, guard j ptr → seen j = some b → ptr ∈ data.bag 2 → b < place.current data

variable {guard guard' : Fin n → ν → Prop} {seen' : Fin n → Option ℕ}

/-- A step without a rotation. -/
theorem BagsOk.mono {data' : ThreadData ν} {place' : Place} (h : BagsOk seen guard data place)
    (hguard : ∀ j ptr, guard' j ptr → guard j ptr ∧ seen' j = seen j) (hbag : data'.bag = data.bag)
    (hcurrent : place.current data ≤ place'.current data')
    (hpending : ∀ epoch ∈ place'.pending, ∀ j b, seen j = some b → b ≤ epoch) : BagsOk seen' guard' data' place' := by
  refine ⟨fun j ptr b hj hb _ epoch hepoch => ?_, fun j ptr b hj hb hptr => ?_, fun j ptr b hj hb hptr => ?_⟩
  · rw [(hguard j ptr hj).2] at hb
    exact hpending epoch hepoch j b hb
  · rw [(hguard j ptr hj).2] at hb
    rw [hbag] at hptr
    exact (h.middle j ptr b (hguard j ptr hj).1 hb hptr).trans hcurrent
  · rw [(hguard j ptr hj).2] at hb
    rw [hbag] at hptr
    exact (h.old j ptr b (hguard j ptr hj).1 hb hptr).trans_le hcurrent

/-- The other threads. -/
theorem BagsOk.congr (h : BagsOk seen guard data place)
    (hguard : ∀ j ptr, guard' j ptr → guard j ptr ∧ seen' j = seen j) : BagsOk seen' guard' data place :=
  ⟨fun j ptr b hj hb => h.young j ptr b (hguard j ptr hj).1 ((hguard j ptr hj).2 ▸ hb),
    fun j ptr b hj hb => h.middle j ptr b (hguard j ptr hj).1 ((hguard j ptr hj).2 ▸ hb),
    fun j ptr b hj hb => h.old j ptr b (hguard j ptr hj).1 ((hguard j ptr hj).2 ▸ hb)⟩

theorem bag_rotateBags (data : ThreadData ν) :
    data.rotateBags.bag 0 = [] ∧ data.rotateBags.bag 1 = data.bag 0 ∧ data.rotateBags.bag 2 = data.bag 1 := by
  have hage : ∀ bagI : Fin maxBags,
      bagI + 1 - 0 = bagI + 1 ∧ bagI + 1 - 1 = bagI - 0 ∧ bagI - 0 ≠ bagI + 1 ∧ bagI + 1 - 2 = bagI - 1 ∧
        bagI - 1 ≠ bagI + 1 := by decide
  obtain ⟨h0, h1, hne1, h2, hne2⟩ := hage data.bagI
  unfold ThreadData.bag ThreadData.rotateBags
  refine ⟨?_, ?_, ?_⟩
  · show Function.update data.toDelete (data.bagI + 1) [] (data.bagI + 1 - 0) = []
    rw [h0, Function.update_self]
  · show Function.update data.toDelete (data.bagI + 1) [] (data.bagI + 1 - 1) = _
    rw [h1, Function.update_of_ne hne1]
  · show Function.update data.toDelete (data.bagI + 1) [] (data.bagI + 1 - 2) = _
    rw [h2, Function.update_of_ne hne2]

theorem nextBag_eq (data : ThreadData ν) : data.nextBag = data.bag 2 := by
  unfold ThreadData.nextBag ThreadData.bag
  exact congrArg data.toDelete (by generalize data.bagI = bagI; revert bagI; decide)

/-- Nobody uses what is deleted. -/
theorem BagsOk.nextBag {call : Call} {checking : Bool} {newEpoch : ℕ}
    (h : BagsOk seen guard data (.setEpoch call checking newEpoch))
    (hi : PlaceOk g data (.setEpoch call checking newEpoch)) (hnear : ∀ j b, seen j = some b → g ≤ b + 1)
    (hrotates : data.epoch / 2 ≠ newEpoch) {j : Fin n} {ptr : ν} {b : ℕ} (hj : guard j ptr) (hb : seen j = some b) :
    ptr ∉ data.nextBag := by
  rw [nextBag_eq]
  intro hptr
  have hold : b < data.epoch / 2 := h.old j ptr b hj hb hptr
  have hnear := hnear j b hb
  have hto : newEpoch ≤ g := hi.2.1
  have hfrom : data.epoch / 2 ≤ newEpoch := hi.1
  omega

theorem BagsOk.startEpoch {call : Call} {checking : Bool} {newEpoch : ℕ}
    (h : BagsOk seen guard data (.setEpoch call checking newEpoch))
    (hi : PlaceOk g data (.setEpoch call checking newEpoch)) :
    BagsOk seen guard (data.startEpoch newEpoch) (.publish call checking newEpoch) := by
  unfold ThreadData.startEpoch
  split
  · rename_i hrotates
    obtain ⟨h0, h1, h2⟩ := bag_rotateBags { data with checkedThreadI := 0, toSkip := 0 }
    refine ⟨fun _ _ _ _ _ _ _ hpending => (by cases hpending), fun j ptr b hj hb hptr => ?_,
      fun j ptr b hj hb hptr => ?_⟩
    · rw [h1] at hptr
      exact h.young j ptr b hj hb hptr newEpoch rfl
    · rw [h2] at hptr
      exact (h.middle j ptr b hj hb hptr).trans_lt (Nat.lt_of_le_of_ne hi.1 hrotates)
  · exact h.mono (fun _ _ hj => ⟨hj, rfl⟩) rfl hi.1 fun _ hpending => by cases hpending

/-! ### What is used -/

theorem uses_concat (answers : List (Answer n ν)) (answer : Answer n ν) (i : Fin n) :
    uses (answers ++ [answer]) i = answer.uses i (uses answers i) := by
  unfold uses
  rw [List.foldl_append]
  rfl

theorem deletes_concat (answers : List (Answer n ν)) (answer : Answer n ν) :
    (answers ++ [answer]).flatMap Answer.deletes = answers.flatMap Answer.deletes ++ answer.deletes := by
  rw [List.flatMap_append, List.flatMap_singleton]

/-- A thread has used an object since before it was retired. -/
def Guarded (answers : List (Answer n ν)) (i : Fin n) (ptr : ν) : Prop :=
  ∃ first mid, answers = first ++ .retired ptr :: mid ∧ ptr ∈ uses first i ∧ .ended i ∉ mid

theorem guarded_concat {answer : Answer n ν} {ptr : ν} (h : Guarded (answers ++ [answer]) i ptr) :
    (Guarded answers i ptr ∧ answer ≠ .ended i) ∨ (answer = .retired ptr ∧ ptr ∈ uses answers i) := by
  obtain ⟨first, mid, heq, huses, hended⟩ := h
  rcases List.eq_nil_or_concat' mid with rfl | ⟨mid, last, rfl⟩
  · obtain ⟨rfl, hlast⟩ := List.append_inj' heq rfl
    exact .inr ⟨(List.cons.inj hlast).1, huses⟩
  · rw [← List.cons_append, ← List.append_assoc] at heq
    obtain ⟨rfl, hlast⟩ := List.append_inj' heq rfl
    rw [(List.cons.inj hlast).1]
    refine .inl ⟨⟨first, mid, rfl, huses, fun hmem => hended (List.mem_append_left _ hmem)⟩, ?_⟩
    rintro rfl
    exact hended (List.mem_append_right _ (List.mem_singleton_self _))

/-- What a thread has used since before it was retired it still uses. -/
theorem Guarded.mem_uses {ptr : ν} (h : Guarded answers i ptr) : ptr ∈ uses answers i := by
  obtain ⟨first, mid, rfl, huses, hended⟩ := h
  rw [show first ++ .retired ptr :: mid = (first ++ [Answer.retired ptr]) ++ mid by
    rw [List.append_assoc, List.singleton_append]]
  induction mid using List.reverseRecOn with
  | nil =>
    rw [List.append_nil, uses_concat]
    exact huses
  | append_singleton mid answer ih =>
    have ih := ih fun hmem => hended (List.mem_append_left _ hmem)
    rw [← List.append_assoc, uses_concat]
    cases answer with
    | read j value =>
      dsimp only [Answer.uses]
      split
      · exact List.mem_append_left _ ih
      · exact ih
    | ended j =>
      dsimp only [Answer.uses]
      rw [if_neg]
      · exact ih
      · rintro rfl
        exact hended (List.mem_append_right _ (List.mem_singleton_self _))
    | _ => exact ih

/-! ### The invariant -/

/-- The bags of all threads. -/
def allBags (threads : Fin n → ThreadData ν) (slot : Fin n × Fin maxBags) : List ν := (threads slot.1).toDelete slot.2

structure Inv (s : EpochBasedMemoryReclamation n π ν) (events : List (Event n π ν)) (answers : List (Answer n ν))
    (seen : Fin n → Option ℕ) : Prop where
  epochs : Epochs s seen
  users : ∀ j ptr, ptr ∈ uses answers j → s.place j = .ready true
  bags : ∀ i, BagsOk seen (Guarded answers) (s.threads i) (s.place i)
  waiting : Lib.Waiting (allBags s.threads) (events.filterMap Event.retired) (answers.flatMap Answer.deletes)

theorem allBags_update (threads : Fin n → ThreadData ν) (i : Fin n) {k : Fin maxBags} {list : List ν}
    (hdata : data.toDelete = Function.update (threads i).toDelete k list) :
    allBags (Function.update threads i data) = Function.update (allBags threads) (i, k) list := by
  funext ⟨j, l⟩
  unfold allBags
  by_cases hj : j = i
  · subst hj
    dsimp only
    rw [Function.update_self, hdata]
    by_cases hl : l = k
    · rw [hl, Function.update_self, Function.update_self]
    · rw [Function.update_of_ne hl, Function.update_of_ne fun heq => hl (congrArg Prod.snd heq)]
  · dsimp only
    rw [Function.update_of_ne hj, Function.update_of_ne fun heq => hj (congrArg Prod.fst heq)]

theorem allBags_update_same (threads : Fin n → ThreadData ν) (i : Fin n)
    (hdata : data.toDelete = (threads i).toDelete) : allBags (Function.update threads i data) = allBags threads := by
  funext ⟨j, l⟩
  unfold allBags
  by_cases hj : j = i
  · subst hj
    dsimp only
    rw [Function.update_self, hdata]
  · dsimp only
    rw [Function.update_of_ne hj]

theorem filterMap_concat_subset (events : List (Event n π ν)) (event : Event n π ν) :
    events.filterMap Event.retired ⊆ (events ++ [event]).filterMap Event.retired := by
  rw [List.filterMap_append]
  exact List.subset_append_left _ _

theorem inv_start : Inv ({} : EpochBasedMemoryReclamation n π ν) [] [] fun _ => none where
  epochs := ⟨fun _ _ hb => (by cases hb), fun i =>
    ⟨i.pos, Nat.div_le_self 1 2, ⟨fun heq => (by cases heq), fun hne => absurd rfl hne⟩, fun _ _ _ hb => (by cases hb), trivial⟩⟩
  users := fun _ _ hptr => by cases hptr
  bags := fun _ => ⟨fun _ _ _ _ hb => (by cases hb), fun _ _ _ _ hb => (by cases hb), fun _ _ _ _ hb => (by cases hb)⟩
  waiting := Lib.Waiting.start

/-- Nothing changes. -/
theorem Inv.same (h : Inv s events answers seen) (event : Event n π ν) :
    Inv s (events ++ [event]) (answers ++ [Answer.nothing]) seen := by
  have huses : ∀ j, uses (answers ++ [Answer.nothing]) j = uses answers j := uses_concat answers .nothing
  refine ⟨h.epochs, fun j ptr hptr => ?_, fun j => (h.bags j).congr fun k ptr hk => ⟨?_, rfl⟩, ?_⟩
  · rw [huses] at hptr
    exact h.users j ptr hptr
  · rcases guarded_concat hk with ⟨hk, -⟩ | ⟨heq, -⟩
    · exact hk
    · cases heq
  · rw [deletes_concat]
    exact (List.append_nil _).symm ▸ h.waiting.more (filterMap_concat_subset events event)

/-- Whoever is in a call, or begins one, uses nothing. -/
theorem guard_turn {answer : Answer n ν} (hquiet : answer.uses i (uses answers i) = [])
    (hnew : ∀ ptr, answer ≠ .retired ptr) (hseen : ∀ j, j ≠ i → seen' j = seen j) :
    ∀ j ptr, Guarded (answers ++ [answer]) j ptr → Guarded answers j ptr ∧ seen' j = seen j := by
  intro j ptr hj
  refine ⟨?_, hseen j ?_⟩
  · rcases guarded_concat hj with ⟨hj, -⟩ | ⟨heq, -⟩
    · exact hj
    · exact absurd heq (hnew ptr)
  · rintro rfl
    have hmem := hj.mem_uses
    rw [uses_concat, hquiet] at hmem
    cases hmem

/-- A thread goes on in a call, or begins one, and does not retire an object. -/
theorem Inv.turn (h : Inv s events answers seen) (event : Event n π ν) {answer : Answer n ν}
    (hquiet : answer.uses i (uses answers i) = []) (hothers : ∀ j, j ≠ i → answer.uses j (uses answers j) = uses answers j)
    (hnew : ∀ ptr, answer ≠ .retired ptr) (hseen : ∀ j, j ≠ i → seen' j = seen j)
    (hthreads : t.threads = Function.update s.threads i data) (hplace : t.place = Function.update s.place i place)
    (hepochs : Epochs t seen') (hbags : BagsOk seen' (Guarded (answers ++ [answer])) data place)
    (hwaiting : Lib.Waiting (allBags t.threads) (events.filterMap Event.retired)
      (answers.flatMap Answer.deletes ++ answer.deletes)) :
    Inv t (events ++ [event]) (answers ++ [answer]) seen' := by
  refine ⟨hepochs, fun j ptr hptr => ?_, fun j => ?_, ?_⟩
  · rw [uses_concat] at hptr
    by_cases hj : j = i
    · rw [hj, hquiet] at hptr
      cases hptr
    · rw [hothers j hj] at hptr
      rw [hplace, Function.update_of_ne hj]
      exact h.users j ptr hptr
  · rw [hthreads, hplace]
    by_cases hj : j = i
    · rw [hj, Function.update_self, Function.update_self]
      exact hbags
    · rw [Function.update_of_ne hj, Function.update_of_ne hj]
      exact (h.bags j).congr (guard_turn hquiet hnew hseen)
  · rw [deletes_concat]
    exact hwaiting.more (filterMap_concat_subset events event)

/-- A step of a call that rotates no bags. -/
theorem Inv.move (h : Inv s events answers seen) (event : Event n π ν) {answer : Answer n ν}
    (hanswer : answer = .ended i ∨ (answer = .nothing ∧ s.place i ≠ .ready true))
    (hseen : ∀ j, j ≠ i → seen' j = seen j)
    (hthreads : t.threads = Function.update s.threads i data) (hplace : t.place = Function.update s.place i place)
    (hepochs : Epochs t seen') (htoDelete : data.toDelete = (s.threads i).toDelete)
    (hbagI : data.bagI = (s.threads i).bagI)
    (hcurrent : (s.place i).current (s.threads i) ≤ place.current data)
    (hpending : ∀ epoch ∈ place.pending, ∀ j b, seen j = some b → b ≤ epoch) :
    Inv t (events ++ [event]) (answers ++ [answer]) seen' := by
  have hquiet : answer.uses i (uses answers i) = [] := by
    rcases hanswer with rfl | ⟨rfl, hready⟩
    · exact if_pos rfl
    · exact List.eq_nil_iff_forall_not_mem.mpr fun ptr hptr => hready (h.users i ptr hptr)
  have hnew : ∀ ptr, answer ≠ .retired ptr := by
    rintro ptr rfl
    rcases hanswer with heq | ⟨heq, -⟩ <;> cases heq
  have hbag : data.bag = (s.threads i).bag := by
    unfold ThreadData.bag
    rw [htoDelete, hbagI]
  refine h.turn event hquiet (fun j hj => ?_) hnew hseen hthreads hplace hepochs
    ((h.bags i).mono (guard_turn hquiet hnew hseen) hbag hcurrent hpending) ?_
  · rcases hanswer with rfl | ⟨rfl, -⟩
    · exact if_neg fun heq => hj heq.symm
    · rfl
  · rw [hthreads, allBags_update_same s.threads i htoDelete]
    rcases hanswer with rfl | ⟨rfl, -⟩ <;> exact (List.append_nil _).symm ▸ h.waiting

/-! ### Each operation -/

/-- `place` is a place at which no new epoch is known. -/
def Place.Settled : Place → Prop
  | .setEpoch _ _ _ | .publish _ _ _ => False
  | _ => True

theorem Place.Settled.current (h : place.Settled) : place.current data = data.epoch / 2 := by
  cases place with
  | publish call checking newEpoch => exact h.elim
  | _ => rfl

theorem Place.Settled.pending (h : place.Settled) : place.pending = none := by
  cases place with
  | setEpoch call checking newEpoch => exact h.elim
  | _ => rfl

theorem settled_checked (data : ThreadData ν) (result : Bool) (call : Call) : (checked data result call).Settled := by
  cases call with
  | lock => trivial
  | retire locked =>
    dsimp only [checked]
    split <;> trivial
  | retireSync =>
    dsimp only [checked]
    split <;> trivial

/-- A thread begins a call. -/
theorem Inv.begin (h : Inv s events answers seen) (event : Event n π ν) {answer : Answer n ν} {locked : Bool}
    (hat : s.place i = .ready locked) (call : Call)
    (hanswer : answer = .ended i ∨ (answer = .nothing ∧ locked = false)) :
    Inv (s.goes i (.load call)) (events ++ [event]) (answers ++ [answer]) seen := by
  have hi := h.epochs.threads i
  rw [hat] at hi
  have hquiet : answer = .ended i ∨ (answer = .nothing ∧ s.place i ≠ .ready true) := by
    refine hanswer.imp_right fun hnothing => ⟨hnothing.1, ?_⟩
    rw [hat, hnothing.2]
    exact fun heq => by cases heq
  refine h.move event hquiet (fun _ _ => rfl) rfl rfl (h.epochs.put_same (hi.move hi.range trivial)) rfl rfl ?_
    fun _ hpending => by cases hpending
  rw [hat]
  exact Nat.le_refl _

theorem Inv.load (h : Inv s events answers seen) (event : Event n π ν) {call : Call} (hat : s.place i = .load call) :
    Inv (s.goes i (.setEpoch call false s.epoch)) (events ++ [event]) (answers ++ [Answer.nothing]) seen := by
  have hi := h.epochs.threads i
  rw [hat] at hi
  refine h.move event (.inr ⟨rfl, ?_⟩) (fun _ _ => rfl) rfl rfl
    (h.epochs.put_same (hi.move hi.range ⟨hi.le, Nat.le_refl _, fun heq => by cases heq⟩)) rfl rfl ?_ ?_
  · rw [hat]
    exact fun heq => by cases heq
  · rw [hat]
    exact Nat.le_refl _
  · rintro epoch ⟨⟩ j b hb
    exact (h.epochs.near j b hb).1

/-- The bags rotate, and nobody uses what is deleted. -/
theorem Inv.setEpoch (h : Inv s events answers seen) (event : Event n π ν) {call : Call} {checking : Bool}
    {newEpoch : ℕ} (hat : s.place i = .setEpoch call checking newEpoch) :
    Inv (s.setEpoch i call checking newEpoch).1 (events ++ [event])
        (answers ++ [(s.setEpoch i call checking newEpoch).2]) seen ∧
      ∀ bag, (s.setEpoch i call checking newEpoch).2 = .deleted bag →
        ∀ ptr ∈ bag, ∀ j, ¬Guarded answers j ptr := by
  have hi := h.epochs.threads i
  have hbags := h.bags i
  rw [hat] at hi hbags
  have hempty : uses answers i = [] := List.eq_nil_iff_forall_not_mem.mpr fun ptr hptr => by
    have hready := h.users i ptr hptr
    rw [hat] at hready
    cases hready
  unfold EpochBasedMemoryReclamation.setEpoch
  dsimp only
  by_cases hrotates : (s.threads i).epoch / 2 ≠ newEpoch
  · rw [if_pos hrotates]
    refine ⟨h.turn event hempty (fun _ _ => rfl) (fun _ heq => by cases heq) (fun _ _ => rfl) rfl rfl
      (h.epochs.put_same hi.startEpoch) ((hbags.startEpoch hi.place).congr
        (guard_turn hempty (fun _ heq => by cases heq) fun _ _ => rfl)) ?_, ?_⟩
    · show Lib.Waiting (allBags (Function.update s.threads i ((s.threads i).startEpoch newEpoch))) _ _
      unfold ThreadData.startEpoch
      rw [if_pos hrotates, allBags_update s.threads i rfl]
      exact h.waiting.take _ (.refl _)
    · rintro bag ⟨⟩ ptr hptr j hj
      have hready := h.users j ptr hj.mem_uses
      have hj' := h.epochs.threads j
      rw [hready] at hj'
      obtain ⟨b, hb⟩ := Option.ne_none_iff_exists'.mp (hj'.published.mp hj'.place)
      exact hbags.nextBag hi.place (fun j b hb => (h.epochs.near j b hb).2) hrotates hj hb hptr
  · rw [if_neg hrotates]
    refine ⟨h.move event (.inr ⟨rfl, ?_⟩) (fun _ _ => rfl) rfl rfl (h.epochs.put_same hi.startEpoch) ?_ ?_ ?_
      fun _ hpending => (by cases hpending), fun _ heq => (by cases heq)⟩
    · rw [hat]
      exact fun heq => by cases heq
    · unfold ThreadData.startEpoch
      rw [if_neg hrotates]
    · unfold ThreadData.startEpoch
      rw [if_neg hrotates]
    · rw [hat]
      exact hi.place.1

/-- The store of `set_epoch`. -/
theorem Inv.publish (h : Inv s events answers seen) (event : Event n π ν) {call : Call} {checking : Bool}
    {newEpoch : ℕ} (hat : s.place i = .publish call checking newEpoch) :
    Inv (s.publish i call checking newEpoch) (events ++ [event]) (answers ++ [Answer.nothing])
      (Function.update seen i (some s.epoch)) := by
  have hi := h.epochs.threads i
  rw [hat] at hi
  have hstore : ∀ {data : ThreadData ν} {place : Place}, data.epoch = newEpoch * 2 →
      data.checkedThreadI = (s.threads i).checkedThreadI → data.toDelete = (s.threads i).toDelete →
      data.bagI = (s.threads i).bagI → place.Settled → place.InRange n (s.threads i).checkedThreadI →
      PlaceOk s.epoch data place →
      Inv (s.put i data place) (events ++ [event]) (answers ++ [Answer.nothing])
        (Function.update seen i (some s.epoch)) := by
    intro data place hepoch hchecked htoDelete hbagI hsettled hrange hplace
    refine h.move event (.inr ⟨rfl, ?_⟩) (fun j hj => Function.update_of_ne hj _ _) rfl rfl
      (h.epochs.put _ (fun b hb => .inl (Option.some.inj hb).symm) (hi.publish hepoch hchecked hrange hplace))
      htoDelete hbagI ?_ ?_
    · rw [hat]
      exact fun heq => by cases heq
    · rw [hat, hsettled.current]
      show newEpoch ≤ data.epoch / 2
      omega
    · rw [hsettled.pending]
      exact fun _ hpending => by cases hpending
  have heven : newEpoch * 2 % 2 = 0 := Nat.mul_mod_left newEpoch 2
  unfold EpochBasedMemoryReclamation.publish
  dsimp only
  split
  · exact hstore rfl rfl rfl rfl (settled_checked _ _ _) (inRange_checked hi.range _ _ _) (PlaceOk.checked _ heven _ _)
  · cases call with
    | lock =>
      unfold entered
      dsimp only
      split
      · exact hstore rfl rfl rfl rfl trivial hi.range heven
      · exact hstore rfl rfl rfl rfl trivial hi.range heven
    | retire locked => exact hstore rfl rfl rfl rfl trivial hi.range heven
    | retireSync => exact hstore rfl rfl rfl rfl trivial hi.range heven

theorem Inv.check (h : Inv s events answers seen) (event : Event n π ν) {call : Call} (hat : s.place i = .check call) :
    ∃ t, s.check i call = some t ∧ Inv t (events ++ [event]) (answers ++ [Answer.nothing]) seen := by
  have hi := h.epochs.threads i
  rw [hat] at hi
  have hlt : (s.threads i).checkedThreadI < n := hi.range
  have heven : (s.threads i).epoch % 2 = 0 := hi.place
  have hready : s.place i ≠ .ready true := by
    rw [hat]
    exact fun heq => by cases heq
  have hcurrent : ∀ {data : ThreadData ν} {place : Place}, place.Settled → data.epoch = (s.threads i).epoch →
      (s.place i).current (s.threads i) ≤ place.current data := by
    intro data place hsettled hepoch
    rw [hat, hsettled.current, hepoch]
    exact Nat.le_refl _
  have hpending : ∀ {place : Place}, place.Settled → ∀ epoch ∈ place.pending, ∀ j b, seen j = some b → b ≤ epoch := by
    intro place hsettled
    rw [hsettled.pending]
    exact fun _ hpending => by cases hpending
  unfold EpochBasedMemoryReclamation.check
  dsimp only
  rw [dif_pos hlt]
  split
  · rename_i hother
    have hseen := h.epochs.counts hother
    split
    · rename_i hend
      exact ⟨_, rfl, h.move event (.inr ⟨rfl, hready⟩) (fun _ _ => rfl) rfl rfl
        (h.epochs.put_same (hi.count hlt hseen hend heven)) rfl rfl (hcurrent trivial rfl) (hpending trivial)⟩
    · rename_i hend
      have hlt' : (s.threads i).checkedThreadI + 1 < n := Nat.lt_of_le_of_ne hlt hend
      exact ⟨_, rfl, h.move event (.inr ⟨rfl, hready⟩) (fun _ _ => rfl) rfl rfl
        (h.epochs.put_same (hi.count hlt hseen (inRange_checked hlt' _ _ _)
          (PlaceOk.checked { s.threads i with checkedThreadI := (s.threads i).checkedThreadI + 1 } heven _ _)))
        rfl rfl (hcurrent (settled_checked _ _ _) rfl) (hpending (settled_checked _ _ _))⟩
  · exact ⟨_, rfl, h.move event (.inr ⟨rfl, hready⟩) (fun _ _ => rfl) rfl rfl
      (h.epochs.put_same (hi.move (inRange_checked hlt _ _ _) (PlaceOk.checked _ heven _ _)))
      rfl rfl (hcurrent (settled_checked _ _ _) rfl) (hpending (settled_checked _ _ _))⟩

theorem Inv.advance (h : Inv s events answers seen) (event : Event n π ν) {call : Call}
    (hat : s.place i = .advance call) :
    Inv (s.advance i call) (events ++ [event]) (answers ++ [Answer.nothing]) seen := by
  have hepochs := h.epochs.advance hat
  have hready : s.place i ≠ .ready true := by
    rw [hat]
    exact fun heq => by cases heq
  have hcurrent : (s.place i).current (s.threads i) = (s.threads i).epoch / 2 := by rw [hat]; rfl
  unfold EpochBasedMemoryReclamation.advance at hepochs ⊢
  dsimp only at hepochs ⊢
  by_cases heq : s.epoch = (s.threads i).epoch / 2
  · rw [if_pos heq] at hepochs ⊢
    refine h.move event (.inr ⟨rfl, hready⟩) (fun _ _ => rfl) rfl rfl hepochs rfl rfl hcurrent.le ?_
    rintro epoch ⟨⟩ j b hb
    rw [← heq]
    exact Nat.le_succ_of_le (h.epochs.near j b hb).1
  · rw [if_neg heq] at hepochs ⊢
    refine h.move event (.inr ⟨rfl, hready⟩) (fun _ _ => rfl) rfl rfl hepochs rfl rfl hcurrent.le ?_
    rintro epoch ⟨⟩ j b hb
    exact (h.epochs.near j b hb).1

/-- A thread becomes idle. -/
theorem Inv.idle (h : Inv s events answers seen) (event : Event n π ν) {answer : Answer n ν}
    (hanswer : answer = .ended i ∨ (answer = .nothing ∧ s.place i ≠ .ready true)) (hsettled : (s.place i).Settled)
    (hbefore : (s.place i).InRange n (s.threads i).checkedThreadI → (s.threads i).checkedThreadI < n)
    (hplace : place = .ready false ∨ ∃ call, place = .load call) :
    Inv (s.put i (s.threads i).idle place) (events ++ [event]) (answers ++ [answer])
      (Function.update seen i none) := by
  have hi := h.epochs.threads i
  have hlt := hbefore hi.range
  have hrange : place.InRange n (s.threads i).checkedThreadI := by rcases hplace with rfl | ⟨call, rfl⟩ <;> exact hlt
  have hok : PlaceOk s.epoch (s.threads i).idle place := by rcases hplace with rfl | ⟨call, rfl⟩ <;> trivial
  have hnow : place.Settled := by rcases hplace with rfl | ⟨call, rfl⟩ <;> trivial
  refine h.move event hanswer (fun j hj => Function.update_of_ne hj _ _) rfl rfl
    (h.epochs.put _ (fun b hb => by cases hb) (hi.idle hrange hok)) rfl rfl ?_ ?_
  · rw [hsettled.current, hnow.current]
    show _ ≤ ((s.threads i).epoch ||| 1) / 2
    rw [or_one_div]
  · rw [hnow.pending]
    exact fun _ hpending => by cases hpending

/-! ### Objects -/

theorem Inv.read (h : Inv s events answers seen) (event : Event n π ν) (hat : s.place i = .ready true) (value : ν) :
    Inv s (events ++ [event]) (answers ++ [Answer.read i value]) seen := by
  refine ⟨h.epochs, fun j ptr hptr => ?_, fun j => (h.bags j).congr fun k ptr hk => ⟨?_, rfl⟩, ?_⟩
  · rw [uses_concat] at hptr
    dsimp only [Answer.uses] at hptr
    split at hptr
    · rename_i heq
      rw [← heq]
      exact hat
    · exact h.users j ptr hptr
  · rcases guarded_concat hk with ⟨hk, -⟩ | ⟨heq, -⟩
    · exact hk
    · cases heq
  · rw [deletes_concat]
    exact (List.append_nil _).symm ▸ h.waiting.more (filterMap_concat_subset events event)

theorem bag_push (data : ThreadData ν) (ptr : ν) :
    (data.push ptr).bag 1 = data.bag 1 ∧ (data.push ptr).bag 2 = data.bag 2 := by
  have hage : ∀ bagI : Fin maxBags, bagI - 1 ≠ bagI ∧ bagI - 2 ≠ bagI := by decide
  exact ⟨Function.update_of_ne (hage data.bagI).1 _ _, Function.update_of_ne (hage data.bagI).2 _ _⟩

/-- Those who use a new object are its guards from now on, and it is in the youngest bag. -/
theorem Inv.retirePtr (h : Inv s events answers seen) {ptr : ν} (hat : s.place i = .ready true)
    (honce : ptr ∉ events.filterMap Event.retired) :
    Inv (s.put i ((s.threads i).push ptr) (.ready true)) (events ++ [Event.retirePtr i ptr]) (answers ++ [Answer.retired ptr])
      seen := by
  have hi := h.epochs.threads i
  rw [hat] at hi
  have hguard : ∀ j k x, Guarded (answers ++ [Answer.retired ptr]) k x → ∀ age, x ∈ (s.threads j).bag age →
      Guarded answers k x := by
    intro j k x hk age hx
    rcases guarded_concat hk with ⟨hk, -⟩ | ⟨heq, -⟩
    · exact hk
    · cases heq
      exact absurd (h.waiting.origin ptr (.inl ⟨(j, (s.threads j).bagI - age), hx⟩)) honce
  refine ⟨h.epochs.put_same ⟨hi.range, hi.le, hi.published, hi.behind, hi.place⟩, fun j x hx => ?_, fun j => ?_, ?_⟩
  · rw [uses_concat] at hx
    show Function.update s.place i (.ready true) j = _
    by_cases hj : j = i
    · rw [hj, Function.update_self]
    · rw [Function.update_of_ne hj]
      exact h.users j x hx
  · show BagsOk seen _ (Function.update s.threads i _ j) (Function.update s.place i (.ready true) j)
    by_cases hj : j = i
    · rw [hj, Function.update_self, Function.update_self]
      have hbags := h.bags i
      rw [hat] at hbags
      obtain ⟨h1, h2⟩ := bag_push (s.threads i) ptr
      refine ⟨fun _ _ _ _ _ _ _ hpending => (by cases hpending), fun k x b hk hb hx => ?_, fun k x b hk hb hx => ?_⟩
      · rw [h1] at hx
        exact hbags.middle k x b (hguard i k x hk 1 hx) hb hx
      · rw [h2] at hx
        exact hbags.old k x b (hguard i k x hk 2 hx) hb hx
    · rw [Function.update_of_ne hj, Function.update_of_ne hj]
      exact ⟨fun k x b hk hb hx => (h.bags j).young k x b (hguard j k x hk 0 hx) hb hx,
        fun k x b hk hb hx => (h.bags j).middle k x b (hguard j k x hk 1 hx) hb hx,
        fun k x b hk hb hx => (h.bags j).old k x b (hguard j k x hk 2 hx) hb hx⟩
  · rw [deletes_concat, List.filterMap_append]
    show Lib.Waiting (allBags (Function.update s.threads i ((s.threads i).push ptr))) _ _
    rw [allBags_update s.threads i rfl]
    exact (List.append_nil _).symm ▸ h.waiting.push (i, (s.threads i).bagI) honce

/-! ### Whole runs -/

/-- Nobody has used what is deleted since before it was retired. -/
def Safe (answers : List (Answer n ν)) (answer : Answer n ν) : Prop :=
  ∀ bag, answer = .deleted bag → ∀ ptr ∈ bag, ∀ i, ¬Guarded answers i ptr

theorem Inv.threadStep (h : Inv s events answers seen) (event : Event n π ν) (i : Fin n) :
    ∃ t answer seen', s.threadStep i = some (t, answer) ∧ Inv t (events ++ [event]) (answers ++ [answer]) seen' ∧
      Safe answers answer := by
  have hsafe : Safe answers .nothing := fun _ heq => by cases heq
  unfold EpochBasedMemoryReclamation.threadStep
  cases hat : s.place i with
  | ready locked => exact ⟨_, _, _, rfl, h.same event, hsafe⟩
  | load call => exact ⟨_, _, _, rfl, h.load event hat, hsafe⟩
  | setEpoch call checking newEpoch =>
    obtain ⟨hinv, hdeleted⟩ := h.setEpoch event hat
    exact ⟨_, _, _, rfl, hinv, hdeleted⟩
  | publish call checking newEpoch => exact ⟨_, _, _, rfl, h.publish event hat, hsafe⟩
  | check call =>
    obtain ⟨t, ht, hinv⟩ := h.check event hat
    exact ⟨t, _, _, by dsimp only; rw [ht]; rfl, hinv, hsafe⟩
  | advance call => exact ⟨_, _, _, rfl, h.advance event hat, hsafe⟩
  | idle =>
    refine ⟨_, _, _, rfl, h.idle event (.inr ⟨rfl, ?_⟩) ?_ ?_ ?_, hsafe⟩
    · rw [hat]
      exact fun heq => by cases heq
    · rw [hat]
      trivial
    · rw [hat]
      exact fun hlt => hlt
    · split
      · exact .inl rfl
      · exact .inr ⟨_, rfl⟩

variable [DecidableEq π]

theorem Inv.step (h : Inv s events answers seen) {event : Event n π ν}
    (honce : ((events ++ [event]).filterMap Event.retired).Nodup) :
    ∃ t answer seen', s.step event = some (t, answer) ∧ Inv t (events ++ [event]) (answers ++ [answer]) seen' ∧
      Safe answers answer := by
  have hsame : ∃ t answer seen', some (s, Answer.nothing) = some (t, answer) ∧
      Inv t (events ++ [event]) (answers ++ [answer]) seen' ∧ Safe answers answer :=
    ⟨_, _, _, rfl, h.same event, fun _ heq => by cases heq⟩
  cases event with
  | exchange ptr value =>
    have hinv := h.same (.exchange ptr value)
    exact ⟨_, _, seen, rfl, ⟨⟨hinv.epochs.near, hinv.epochs.threads⟩, hinv.users, hinv.bags, hinv.waiting⟩,
      fun _ heq => by cases heq⟩
  | lock i =>
    dsimp only [EpochBasedMemoryReclamation.step]
    split
    · rename_i hat
      exact ⟨_, _, _, rfl, h.begin _ hat .lock (.inr ⟨rfl, rfl⟩), fun _ heq => by cases heq⟩
    · exact hsame
  | read i ptr =>
    dsimp only [EpochBasedMemoryReclamation.step]
    split
    · rename_i hat _
      exact ⟨_, _, _, rfl, h.read _ hat _, fun _ heq => by cases heq⟩
    · exact hsame
  | retirePtr i ptr =>
    dsimp only [EpochBasedMemoryReclamation.step]
    split
    · rename_i hat
      refine ⟨_, _, _, rfl, h.retirePtr hat fun hmem => ?_, fun _ heq => by cases heq⟩
      rw [List.filterMap_append] at honce
      exact (List.nodup_append.mp honce).2.2 ptr hmem ptr (List.mem_singleton_self ptr) rfl
    · exact hsame
  | unlock i =>
    dsimp only [EpochBasedMemoryReclamation.step]
    split
    · rename_i hat
      refine ⟨_, _, _, rfl, h.idle _ (.inl rfl) ?_ ?_ (.inl rfl), fun _ heq => by cases heq⟩
      · rw [hat]
        trivial
      · rw [hat]
        exact fun hlt => hlt
    · exact hsame
  | retire i =>
    dsimp only [EpochBasedMemoryReclamation.step]
    split
    · rename_i hat
      exact ⟨_, _, _, rfl, h.begin _ hat _ (.inl rfl), fun _ heq => by cases heq⟩
    · exact hsame
  | retireSync i =>
    dsimp only [EpochBasedMemoryReclamation.step]
    split
    · rename_i hat
      exact ⟨_, _, _, rfl, h.begin _ hat _ (.inl rfl), fun _ heq => by cases heq⟩
    · exact hsame
  | thread i => exact h.threadStep _ i

/-- When no object is passed to `retire` twice, none is deleted before all who had read it when it was retired, and so
all who had read it before it was unlinked, have ended their use of it; none is deleted twice; and the index of the
thread to check stays in the array. -/
theorem deleted_after_use (events : List (Event n π ν)) (honce : (events.filterMap Event.retired).Nodup) :
    ∃ s answers, (machine n π ν).run {} events = some (s, answers) ∧
      (∀ first ptr mid bag after, answers = first ++ .retired ptr :: mid ++ .deleted bag :: after → ptr ∈ bag →
        ∀ i, ptr ∈ uses first i → .ended i ∈ mid) ∧
      (answers.flatMap Answer.deletes).Nodup ∧ ∀ i, (s.place i).InRange n (s.threads i).checkedThreadI := by
  have halong : (machine n π ν).Along (fun _ _ => True) {} events :=
    Lib.Machine.along_of_forall events _ fun _ _ _ => trivial
  obtain ⟨s, answers, hrun, ⟨seen, h⟩, hsafe⟩ := (machine n π ν).run_history {} (fun _ _ => True)
    (fun events => (events.filterMap Event.retired).Nodup)
    (fun events answers s => (∃ seen, Inv s events answers seen) ∧
      ∀ before bag after, answers = before ++ .deleted bag :: after → ∀ ptr ∈ bag, ∀ i, ¬Guarded before i ptr)
    (fun events event honce => by
      rw [List.filterMap_append] at honce
      exact (List.nodup_append.mp honce).1)
    ⟨⟨_, inv_start⟩, fun before _ _ heq => by cases before <;> cases heq⟩ (by
      rintro events answers s event honce - ⟨⟨seen, h⟩, hsafe⟩
      obtain ⟨t, answer, seen', hstep, hinv, hdeleted⟩ := h.step honce
      refine ⟨t, answer, hstep, ⟨seen', hinv⟩, fun before bag after heq => ?_⟩
      rcases List.eq_nil_or_concat' after with rfl | ⟨after, last, rfl⟩
      · obtain ⟨rfl, hlast⟩ := List.append_inj' heq rfl
        exact hdeleted bag (List.cons.inj hlast).1
      · rw [← List.cons_append, ← List.append_assoc] at heq
        obtain ⟨heq, -⟩ := List.append_inj' heq rfl
        exact hsafe before bag after heq) events honce halong
  refine ⟨s, answers, hrun, fun first ptr mid bag after heq hptr i huses => ?_, h.waiting.nodup,
    fun i => (h.epochs.threads i).range⟩
  by_contra hended
  exact hsafe _ bag after heq ptr hptr i ⟨first, mid, rfl, huses, hended⟩

/-- An object is retired while another thread uses it, which then ends its use. -/
theorem deleted_after_use_two : ∃ s answers, (machine 2 Unit ℕ).run {}
    (([.exchange () (some 7), .lock 0] : List (Event 2 Unit ℕ)) ++ List.replicate 4 (.thread 0 : Event 2 Unit ℕ) ++
      ([.read 0 (), .lock 1] : List (Event 2 Unit ℕ)) ++ List.replicate 4 (.thread 1 : Event 2 Unit ℕ) ++
      ([.exchange () none, .retirePtr 1 7, .unlock 0, .retireSync 1] : List (Event 2 Unit ℕ)) ++
      List.replicate 40 (.thread 1 : Event 2 Unit ℕ)) = some (s, answers) ∧
    (∀ first ptr mid bag after, answers = first ++ .retired ptr :: mid ++ .deleted bag :: after → ptr ∈ bag →
      ∀ i, ptr ∈ uses first i → .ended i ∈ mid) ∧
    (answers.flatMap Answer.deletes).Nodup ∧ ∀ i, (s.place i).InRange 2 (s.threads i).checkedThreadI :=
  deleted_after_use _ (by decide)

end TdUtils.EpochBasedMemoryReclamation
