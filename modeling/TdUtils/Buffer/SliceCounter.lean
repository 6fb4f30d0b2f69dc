import Mathlib.Algebra.BigOperators.Group.List.Basic
import Mathlib.Algebra.Order.BigOperators.Group.List
import Mathlib.Data.Int.ModEq
import TdUtils.Buffer.BufferAllocator

/-!
# Buffer.SliceCounter — the counter is the sum of the sizes of the slices

The parts of the counter wrap around, each in its thread, so all is said modulo `2 ^ 64`.  `Counts s d` says that
the counter is ahead of the sizes by `d`: what tracks, untracks, makes and changes a slice moves `d`, and each
operation brings it back to 0.
-/

namespace TdUtils.BufferAllocator

open Lib

/-! ### Numbers -/

theorem int64_modEq (z : ℤ) : int64 z ≡ z [ZMOD 2 ^ 64] := Int.bmod_emod

theorem int64_congr {y z : ℤ} (h : y ≡ z [ZMOD 2 ^ 64]) : int64 y = int64 z := by
  unfold int64
  calc Int.bmod y (2 ^ 64) = Int.bmod (y % (2 ^ 64 : ℕ)) (2 ^ 64) := (Int.emod_bmod y _).symm
    _ = Int.bmod (z % (2 ^ 64 : ℕ)) (2 ^ 64) := congrArg (Int.bmod · (2 ^ 64)) h
    _ = Int.bmod z (2 ^ 64) := Int.emod_bmod z _

theorem int64_eq_self {z : ℤ} (hlow : 0 ≤ z) (hhigh : z < 2 ^ 63) : int64 z = z := by
  unfold int64
  rw [Int.bmod_def]
  omega

variable {α : Type} {f : α → ℤ} {old : α}

/-- One member changes. -/
theorem sum_map_set : ∀ {xs : List α} {i : ℕ}, xs[i]? = some old → ∀ new : α,
    ((xs.set i new).map f).sum = (xs.map f).sum - f old + f new
  | [], _, h, _ => by cases h
  | x :: xs, 0, h, new => by
    cases h
    rw [List.set_cons_zero, List.map_cons, List.map_cons, List.sum_cons, List.sum_cons]
    omega
  | x :: xs, i + 1, h, new => by
    have hi : xs[i]? = some old := h
    have hrest := sum_map_set hi new
    rw [List.set_cons_succ, List.map_cons, List.map_cons, List.sum_cons, List.sum_cons, hrest]
    omega

theorem sum_modify (size : ℤ) : ∀ {counters : List ℤ} {thread : ℕ}, thread < counters.length →
    (counters.modify thread fun counter => int64 (counter + size)).sum ≡ counters.sum + size [ZMOD 2 ^ 64]
  | [], _, h => absurd h (Nat.not_lt_zero _)
  | c :: counters, 0, _ => by
    rw [List.modify_zero_cons, List.sum_cons, List.sum_cons]
    have hadd := (int64_modEq (c + size)).add_right counters.sum
    rwa [add_right_comm] at hadd
  | c :: counters, thread + 1, h => by
    have hrest := sum_modify size (Nat.lt_of_succ_lt_succ h : thread < counters.length)
    rw [List.modify_succ_cons, List.sum_cons, List.sum_cons, add_assoc]
    exact hrest.add_left c

theorem foldl_int64 : ∀ (counters : List ℤ) (res : ℤ),
    counters.foldl (fun res value => int64 (res + value)) (int64 res) = int64 (res + counters.sum)
  | [], res => by rw [List.foldl_nil, List.sum_nil, add_zero]
  | c :: counters, res => by
    have hstep : int64 (int64 res + c) = int64 (res + c) := int64_congr ((int64_modEq res).add_right c)
    rw [List.foldl_cons, hstep, foldl_int64 counters, List.sum_cons, add_assoc]

namespace State

variable {s s' : State} {thread i j : ℕ} {d : ℤ} {x y : BufferSlice}

/-- The size of a slice that is there. -/
def liveSize (o : Option BufferSlice) : ℤ := (o.map fun x => (x.size : ℤ)).getD 0

theorem liveSize_some (x : BufferSlice) : liveSize (some x) = x.size := rfl

/-- The sum of `size()` over all slices. -/
def total (s : State) : ℤ := (s.slices.map liveSize).sum

structure Counts (s : State) (d : ℤ) : Prop where
  sum : s.counters.sum ≡ s.total + d [ZMOD 2 ^ 64]

/-- Only buffers and the pointers to them change. -/
def SameSlices (s s' : State) : Prop := s'.counters = s.counters ∧ s'.slices = s.slices

theorem Counts.same (h : Counts s d) (hsame : SameSlices s s') : Counts s' d := by
  refine ⟨?_⟩
  unfold total
  rw [hsame.1, hsame.2]
  exact h.sum

theorem SameSlices.trans {s'' : State} (h : SameSlices s s') (h' : SameSlices s' s'') : SameSlices s s'' :=
  ⟨h'.1.trans h.1, h'.2.trans h.2⟩

theorem SameSlices.get (h : SameSlices s s') (i : ℕ) : s'.get i = s.get i := by
  unfold State.get
  rw [h.2]

/-! ### What moves the counter -/

theorem Counts.track (h : Counts s d) (hthread : thread < s.counters.length) (size : ℤ) :
    Counts (s.track thread size) (d + size) := by
  unfold State.track
  split_ifs with hzero
  · rw [hzero, add_zero]
    exact h
  · have hmodify := (sum_modify size hthread).trans (Int.ModEq.add_right size h.sum)
    rw [add_assoc] at hmodify
    exact ⟨hmodify⟩

theorem Counts.congr {d' : ℤ} (h : Counts s d) (hd : d ≡ d' [ZMOD 2 ^ 64]) : Counts s d' :=
  ⟨Int.ModEq.trans h.sum (Int.ModEq.add_left _ hd)⟩

theorem Counts.debugTrack (h : Counts s d) (hthread : thread < s.counters.length) (x : BufferSlice) :
    Counts (s.debugTrack thread x) (d + x.size) :=
  (h.track hthread _).congr ((int64_modEq _).add_left d)

theorem Counts.debugUntrack (h : Counts s d) (hthread : thread < s.counters.length) (x : BufferSlice) :
    Counts (s.debugUntrack thread x) (d - x.size) := by
  refine (h.track hthread _).congr ?_
  rw [sub_eq_add_neg]
  exact ((int64_modEq _).trans (int64_modEq _).neg).add_left d

theorem slices_track (s : State) (thread : ℕ) (size : ℤ) : (s.track thread size).slices = s.slices := by
  unfold State.track
  split_ifs <;> rfl

theorem length_counters_track (s : State) (thread : ℕ) (size : ℤ) :
    (s.track thread size).counters.length = s.counters.length := by
  unfold State.track
  split_ifs
  · rfl
  · exact List.length_modify _ _ _

theorem length_counters_untrack (s : State) (thread : ℕ) (x : BufferSlice) :
    (s.debugUntrack thread x).counters.length = s.counters.length := by
  unfold State.debugUntrack
  rw [length_counters_track]

theorem counters_set (s : State) (i : ℕ) (o : Option BufferSlice) : (s.set i o).counters = s.counters := rfl

theorem getElem?_of_get (hx : s.get i = some x) : s.slices[i]? = some (some x) := by
  unfold State.get at hx
  cases hi : s.slices[i]? with
  | none =>
    rw [hi] at hx
    cases hx
  | some o =>
    rw [hi] at hx
    exact congrArg some hx

theorem Counts.set (h : Counts s d) (hx : s.get i = some x) (o : Option BufferSlice) :
    Counts (s.set i o) (d + x.size - liveSize o) := by
  have hsum : (s.set i o).total = s.total - x.size + liveSize o := sum_map_set (getElem?_of_get hx) o
  refine ⟨?_⟩
  rw [hsum]
  change s.counters.sum ≡ _ [ZMOD 2 ^ 64]
  have heq : s.total - x.size + liveSize o + (d + x.size - liveSize o) = s.total + d := by omega
  rw [heq]
  exact h.sum

theorem Counts.push (h : Counts s d) (x : BufferSlice) : Counts (s.push x) (d - x.size) := by
  have hsum : (s.push x).total = s.total + x.size := by
    unfold total State.push
    rw [List.map_append, List.sum_append, List.map_singleton, List.sum_singleton]
    rfl
  refine ⟨?_⟩
  rw [hsum]
  change s.counters.sum ≡ _ [ZMOD 2 ^ 64]
  have heq : s.total + x.size + (d - x.size) = s.total + d := by omega
  rw [heq]
  exact h.sum

/-- A slice is changed: its size goes out of the counter, and its new size comes in. -/
theorem Counts.retrack (h : Counts s d) (hthread : thread < s.counters.length) (hx : s.get i = some x)
    (y : BufferSlice) : Counts (((s.debugUntrack thread x).set i (some y)).debugTrack thread y) d := by
  have hx' : (s.debugUntrack thread x).get i = some x := by
    unfold State.get State.debugUntrack
    rw [slices_track]
    exact hx
  have hthread' : thread < ((s.debugUntrack thread x).set i (some y)).counters.length := by
    rw [counters_set, length_counters_untrack]
    exact hthread
  have hall := ((h.debugUntrack hthread x).set hx' (some y)).debugTrack hthread' y
  rw [liveSize_some, sub_add_cancel, sub_add_cancel] at hall
  exact hall

/-- A slice goes, and its size goes out of the counter. -/
theorem Counts.untrack (h : Counts s d) (hthread : thread < s.counters.length) (hx : s.get i = some x)
    {o : Option BufferSlice} (ho : liveSize o = 0) : Counts ((s.debugUntrack thread x).set i o) d := by
  have hx' : (s.debugUntrack thread x).get i = some x := by
    unfold State.get State.debugUntrack
    rw [slices_track]
    exact hx
  have hall := (h.debugUntrack hthread x).set hx' o
  rw [ho, sub_add_cancel, sub_zero] at hall
  exact hall

/-- A slice comes, and its size comes into the counter. -/
theorem Counts.pushTrack (h : Counts s d) (hthread : thread < s.counters.length) (x : BufferSlice) :
    Counts ((s.push x).debugTrack thread x) d := by
  have hall := (h.push x).debugTrack hthread x
  rwa [sub_add_cancel] at hall

/-! ### Buffers -/

variable {a size : ℕ} {raw : Raw} {ptr : Option ℕ}

theorem incRef_same (h : s.incRef a = some s') : SameSlices s s' := by
  obtain ⟨raw, -, rfl⟩ := Option.map_eq_some_iff.mp h
  exact ⟨rfl, rfl⟩

theorem decRef_same (h : s.decRef a = some s') : SameSlices s s' := by
  obtain ⟨raw, -, rfl⟩ := Option.map_eq_some_iff.mp h
  exact ⟨rfl, rfl⟩

theorem release_same (h : s.release ptr = some s') : SameSlices s s' := by
  cases ptr with
  | none =>
    cases h
    exact ⟨rfl, rfl⟩
  | some a => exact decRef_same h

theorem share_same (h : s.share ptr = some s') : SameSlices s s' := by
  cases ptr with
  | none =>
    cases h
    exact ⟨rfl, rfl⟩
  | some a => exact incRef_same h

theorem sharedBlock_same (h : s.sharedBlock thread size = some (s', a)) : SameSlices s s' := by
  unfold sharedBlock at h
  simp only [Option.bind_eq_bind, Option.bind_eq_some_iff] at h
  obtain ⟨block, -, fits, -, h⟩ := h
  split_ifs at h
  · obtain ⟨b, -, heq⟩ := Option.bind_eq_some_iff.mp h
    cases heq
    exact ⟨rfl, rfl⟩
  · obtain ⟨s₁, hrelease, heq⟩ := Option.bind_eq_some_iff.mp h
    cases heq
    have hsame := release_same hrelease
    exact ⟨hsame.1, hsame.2⟩

theorem createReaderFast_same (h : s.createReaderFast thread size = some (s', a)) : SameSlices s s' := by
  unfold createReaderFast at h
  simp only [Option.bind_eq_bind, Option.bind_eq_some_iff] at h
  obtain ⟨⟨s₁, b⟩, hblock, raw, -, s₂, hinc, heq⟩ := h
  dsimp only at hinc
  obtain ⟨rfl, -⟩ := Prod.mk.inj (Option.some.inj heq)
  have hput : SameSlices s₁ (s₁.put b { raw with end_ := Word.add 64 raw.end_ (BufferRaw.roundUp size) }) :=
    ⟨rfl, rfl⟩
  exact ((sharedBlock_same hblock).trans hput).trans (incRef_same hinc)

theorem createReader_same (h : s.createReader thread size = some (s', a)) : SameSlices s s' := by
  unfold createReader at h
  split_ifs at h
  · exact createReaderFast_same h
  · simp only [Option.bind_eq_bind, Option.bind_eq_some_iff] at h
    obtain ⟨raw, -, s₁, hinc, s₂, hdec, heq⟩ := h
    cases heq
    exact (SameSlices.trans ⟨rfl, rfl⟩ (incRef_same hinc)).trans (decRef_same hdec)

theorem createWriter_same {prepend append : ℕ} (h : s.createWriter size prepend append = some s') :
    SameSlices s s' := by
  obtain ⟨raw, -, heq⟩ := Option.bind_eq_some_iff.mp h
  obtain rfl := Option.some.inj heq
  exact ⟨rfl, rfl⟩

theorem confirmAppend_same (h : s.confirmAppend i size = some s') : SameSlices s s' := by
  unfold State.confirmAppend at h
  simp only [Option.bind_eq_bind, Option.bind_eq_some_iff] at h
  obtain ⟨a, -, raw, -, h⟩ := h
  split_ifs at h
  obtain rfl := Option.some.inj h
  exact ⟨rfl, rfl⟩

theorem confirmPrepend_same (h : s.confirmPrepend i size = some s') : SameSlices s s' := by
  unfold State.confirmPrepend at h
  simp only [Option.bind_eq_bind, Option.bind_eq_some_iff] at h
  obtain ⟨a, -, raw, -, h⟩ := h
  split_ifs at h
  obtain rfl := Option.some.inj h
  exact ⟨rfl, rfl⟩

theorem dropWriter_same (h : s.dropWriter i = some s') : SameSlices s s' := by
  obtain ⟨a, -, hdec⟩ := Option.bind_eq_some_iff.mp h
  have hset : SameSlices s { s with writers := s.writers.set i none } := ⟨rfl, rfl⟩
  exact hset.trans (decRef_same hdec)

theorem clearThreadLocal_same (h : s.clearThreadLocal thread = some s') : SameSlices s s' := by
  obtain ⟨block, -, hrelease⟩ := Option.bind_eq_some_iff.mp h
  have hset : SameSlices s { s with tls := s.tls.set thread none } := ⟨rfl, rfl⟩
  exact hset.trans (release_same hrelease)

/-! ### The operations -/

theorem Counts.ofSize (h : Counts s 0) (hthread : thread < s.counters.length)
    (hrun : s.ofSize thread size = some s') : Counts s' 0 := by
  unfold State.ofSize at hrun
  simp only [Option.bind_eq_bind, Option.bind_eq_some_iff] at hrun
  obtain ⟨⟨s₁, a⟩, hreader, raw, -, heq⟩ := hrun
  obtain rfl := Option.some.inj heq
  have hsame := createReader_same hreader
  exact (h.same hsame).pushTrack (hsame.1 ▸ hthread) _

theorem Counts.ofRange {begin_ end_ : ℕ} (h : Counts s 0) (hthread : thread < s.counters.length)
    (hrun : s.ofRange thread ptr begin_ end_ = some s') : Counts s' 0 := by
  unfold State.ofRange at hrun
  simp only [Option.bind_eq_bind, Option.bind_eq_some_iff] at hrun
  obtain ⟨s₁, hshare, heq⟩ := hrun
  obtain rfl := Option.some.inj heq
  have hsame := share_same hshare
  exact (h.same hsame).pushTrack (hsame.1 ▸ hthread) _

theorem Counts.syncWithWriter (h : Counts s d) (hthread : thread < s.counters.length)
    (hrun : s.syncWithWriter thread i = some s') : Counts s' d := by
  unfold State.syncWithWriter at hrun
  simp only [Option.bind_eq_bind, Option.bind_eq_some_iff] at hrun
  obtain ⟨x, hx, a, -, raw, -, heq⟩ := hrun
  obtain rfl := Option.some.inj heq
  exact h.retrack hthread hx _

theorem length_counters_retrack (s : State) (thread : ℕ) (x y : BufferSlice) (o : Option BufferSlice) :
    (((s.debugUntrack thread x).set i o).debugTrack thread y).counters.length = s.counters.length := by
  unfold State.debugTrack
  rw [length_counters_track, counters_set, length_counters_untrack]

theorem length_counters_ofReader (hrun : s.ofReader thread ptr = some s') :
    s'.counters.length = s.counters.length := by
  unfold State.ofReader at hrun
  obtain ⟨s₁, hshare, hrun⟩ := Option.bind_eq_some_iff.mp hrun
  rw [← (share_same hshare).1]
  cases ptr with
  | none =>
    obtain rfl := Option.some.inj hrun
    rfl
  | some a =>
    obtain ⟨raw, -, hsync⟩ := Option.bind_eq_some_iff.mp hrun
    unfold State.syncWithWriter at hsync
    simp only [Option.bind_eq_bind, Option.bind_eq_some_iff] at hsync
    obtain ⟨x, -, b, -, raw', -, heq⟩ := hsync
    obtain rfl := Option.some.inj heq
    exact length_counters_retrack _ thread x _ _

/-- A slice of a reader starts empty. -/
theorem Counts.ofReader (h : Counts s 0) (hthread : thread < s.counters.length)
    (hrun : s.ofReader thread ptr = some s') : Counts s' 0 := by
  unfold State.ofReader at hrun
  obtain ⟨s₁, hshare, hrun⟩ := Option.bind_eq_some_iff.mp hrun
  have hsame := share_same hshare
  have hshared := h.same hsame
  cases ptr with
  | none =>
    cases hrun
    exact hshared.push .null
  | some a =>
    obtain ⟨raw, -, hsync⟩ := Option.bind_eq_some_iff.mp hrun
    have hempty : (⟨some a, raw.begin_, raw.begin_⟩ : BufferSlice).size = 0 := by
      unfold BufferSlice.size
      rw [if_neg (Option.some_ne_none a), sub_self]
      rfl
    have hpush := hshared.push ⟨some a, raw.begin_, raw.begin_⟩
    rw [hempty, Nat.cast_zero, sub_zero] at hpush
    exact hpush.syncWithWriter (hsame.1 ▸ hthread) hsync

theorem size_of_null (h : x.buffer = none) : x.size = 0 := if_pos h

theorem get_set_ne {o : Option BufferSlice} (h : i ≠ j) : (s.set i o).get j = s.get j := by
  unfold State.get State.set
  rw [List.getElem?_set_ne h]

/-- Moving tracks the size twice and untracks it once. -/
theorem Counts.moveConstruct (h : Counts s 0) (hthread : thread < s.counters.length)
    (hrun : s.moveConstruct thread i = some s') : Counts s' 0 := by
  unfold State.moveConstruct at hrun
  obtain ⟨x, hx, heq⟩ := Option.bind_eq_some_iff.mp hrun
  obtain rfl := Option.some.inj heq
  have hset := h.set hx (some { x with buffer := none })
  rw [liveSize_some, size_of_null (x := { x with buffer := none }) rfl, Nat.cast_zero, sub_zero, zero_add] at hset
  have hpush := hset.push x
  rw [sub_self] at hpush
  have htrack := hpush.debugTrack hthread x
  rw [zero_add] at htrack
  have hthread' :
      thread < (((s.set i (some { x with buffer := none })).push x).debugTrack thread x).counters.length := by
    unfold State.debugTrack
    rw [length_counters_track]
    exact hthread
  have huntrack := htrack.debugUntrack hthread' x
  rwa [sub_self] at huntrack

theorem Counts.moveAssign (h : Counts s 0) (hthread : thread < s.counters.length)
    (hrun : s.moveAssign thread i j = some s') : Counts s' 0 := by
  unfold State.moveAssign at hrun
  obtain ⟨x, hx, hrun⟩ := Option.bind_eq_some_iff.mp hrun
  obtain ⟨y, hy, hrun⟩ := Option.bind_eq_some_iff.mp hrun
  split_ifs at hrun with hij
  · obtain rfl := Option.some.inj hrun
    exact h
  · obtain ⟨s₁, hrelease, heq⟩ := Option.bind_eq_some_iff.mp hrun
    obtain rfl := Option.some.inj heq
    have hget : ∀ k, (s.debugUntrack thread x).get k = s.get k := fun k => by
      unfold State.get State.debugUntrack
      rw [slices_track]
    have huntrack := h.debugUntrack hthread x
    have hleft := huntrack.set ((hget j).trans hy) (some { y with buffer := none })
    rw [liveSize_some, size_of_null (x := { y with buffer := none }) rfl, Nat.cast_zero, sub_zero] at hleft
    have hsame := release_same hrelease
    have hx' : s₁.get i = some x := by
      rw [hsame.get, get_set_ne (Ne.symm hij), hget]
      exact hx
    have hright := (hleft.same hsame).set hx' (some y)
    rw [liveSize_some, zero_sub, add_right_comm, neg_add_cancel, zero_add, sub_self] at hright
    exact hright

theorem Counts.confirmRead (h : Counts s 0) (hthread : thread < s.counters.length)
    (hrun : s.confirmRead thread i size = some s') : Counts s' 0 := by
  unfold State.confirmRead at hrun
  obtain ⟨x, hx, hrun⟩ := Option.bind_eq_some_iff.mp hrun
  dsimp only at hrun
  split_ifs at hrun
  obtain rfl := Option.some.inj hrun
  exact h.retrack hthread hx _

theorem Counts.truncate (h : Counts s 0) (hthread : thread < s.counters.length)
    (hrun : s.truncate thread i size = some s') : Counts s' 0 := by
  unfold State.truncate at hrun
  obtain ⟨x, hx, hrun⟩ := Option.bind_eq_some_iff.mp hrun
  split_ifs at hrun
  · obtain rfl := Option.some.inj hrun
    exact h.retrack hthread hx _
  · obtain rfl := Option.some.inj hrun
    exact h

theorem Counts.fromSlice {begin_ end_ : ℕ} (h : Counts s 0) (hthread : thread < s.counters.length)
    (hrun : s.fromSlice thread i begin_ end_ = some s') : Counts s' 0 := by
  unfold State.fromSlice at hrun
  simp only [Option.bind_eq_bind, Option.bind_eq_some_iff] at hrun
  obtain ⟨x, -, a, -, s₁, hreader, res, hres, raw, -, hrun⟩ := hrun
  split_ifs at hrun
  obtain rfl := Option.some.inj hrun
  exact (h.ofReader hthread hreader).retrack (length_counters_ofReader hreader ▸ hthread) hres _

theorem Counts.copy (h : Counts s 0) (hthread : thread < s.counters.length)
    (hrun : s.copy thread i = some s') : Counts s' 0 := by
  unfold State.copy at hrun
  obtain ⟨x, -, hrun⟩ := Option.bind_eq_some_iff.mp hrun
  split_ifs at hrun
  · exact h.ofRange hthread hrun
  · exact h.ofSize hthread hrun

theorem Counts.clone (h : Counts s 0) (hthread : thread < s.counters.length)
    (hrun : s.clone thread i = some s') : Counts s' 0 := by
  obtain ⟨x, -, hrange⟩ := Option.bind_eq_some_iff.mp hrun
  exact h.ofRange hthread hrange

theorem Counts.clear (h : Counts s 0) (hthread : thread < s.counters.length)
    (hrun : s.clear thread i = some s') : Counts s' 0 := by
  obtain ⟨x, hx, hrelease⟩ := Option.bind_eq_some_iff.mp hrun
  exact (h.untrack hthread hx rfl).same (release_same hrelease)

theorem Counts.destroy (h : Counts s 0) (hthread : thread < s.counters.length)
    (hrun : s.destroy thread i = some s') : Counts s' 0 := by
  obtain ⟨x, hx, hrelease⟩ := Option.bind_eq_some_iff.mp hrun
  exact (h.untrack hthread hx rfl).same (release_same hrelease)

/-- Every operation keeps the counter right. -/
theorem Counts.run (h : Counts s 0) (hthread : thread < s.counters.length) {op : Op}
    (hrun : s.run thread op = some s') : Counts s' 0 := by
  cases op with
  | create =>
    obtain rfl := Option.some.inj hrun
    exact h.push .null
  | ofSize size => exact h.ofSize hthread hrun
  | ofReader buffer => exact h.ofReader hthread hrun
  | ofRange buffer begin_ end_ => exact h.ofRange hthread hrun
  | moveConstruct i => exact h.moveConstruct hthread hrun
  | moveAssign i j => exact h.moveAssign hthread hrun
  | clone i => exact h.clone hthread hrun
  | copy i => exact h.copy hthread hrun
  | confirmRead i size => exact h.confirmRead hthread hrun
  | truncate i limit => exact h.truncate hthread hrun
  | fromSlice i begin_ end_ => exact h.fromSlice hthread hrun
  | syncWithWriter i => exact h.syncWithWriter hthread hrun
  | clear i => exact h.clear hthread hrun
  | destroy i => exact h.destroy hthread hrun
  | createWriter size prepend append => exact h.same (createWriter_same hrun)
  | confirmAppend w size => exact h.same (confirmAppend_same hrun)
  | confirmPrepend w size => exact h.same (confirmPrepend_same hrun)
  | dropWriter w => exact h.same (dropWriter_same hrun)
  | clearThreadLocal => exact h.same (clearThreadLocal_same hrun)

theorem counts_start (threads : ℕ) : Counts (start threads) 0 := by
  have hzero : (List.replicate threads (0 : ℤ)).sum = 0 :=
    List.sum_eq_zero fun z hz => List.eq_of_mem_replicate hz
  refine ⟨?_⟩
  change (List.replicate threads (0 : ℤ)).sum ≡ 0 + 0 [ZMOD 2 ^ 64]
  rw [hzero]
  rfl

/-- As an `int64` the counter is the sum of the sizes, also where the sum does not fit. -/
theorem Counts.getBufferSliceSize {s : State} (h : Counts s 0) : s.getBufferSliceSize = int64 s.total := by
  have hfold := foldl_int64 s.counters 0
  have hzero : int64 0 = 0 := rfl
  rw [hzero, zero_add] at hfold
  have hsum := h.sum
  rw [add_zero] at hsum
  unfold State.getBufferSliceSize
  rw [hfold]
  exact int64_congr hsum

theorem total_nonneg (s : State) : 0 ≤ s.total := by
  refine List.sum_nonneg fun z hz => ?_
  obtain ⟨o, -, rfl⟩ := List.mem_map.mp hz
  cases o with
  | none => exact le_rfl
  | some x => exact Int.natCast_nonneg _

theorem Counts.step {s s' : State} {call : Call} {answer : Unit} (h : Counts s 0)
    (hstep : machine.step s call = some (s', answer)) : Counts s' 0 := by
  change BufferAllocator.step s call = some (s', answer) at hstep
  unfold BufferAllocator.step at hstep
  split_ifs at hstep with hthread
  obtain ⟨t, hrun, heq⟩ := Option.map_eq_some_iff.mp hstep
  obtain ⟨rfl, -⟩ := Prod.mk.inj heq
  exact h.run hthread hrun

end State

open State

/-- After every run of operations of any threads the counter is the sum of the sizes of the slices that are there;
where that does not fit into an `int64`, up to the wrap. -/
theorem getBufferSliceSize_eq_total (threads : ℕ) (calls : List Call) {s : State} {answers : List Unit}
    (h : machine.run (start threads) calls = some (s, answers)) :
    s.getBufferSliceSize = int64 s.total ∧ (s.total < 2 ^ 63 → s.getBufferSliceSize = s.total) := by
  have hcounts : Counts s 0 :=
    Machine.run_inv (P := fun s => Counts s 0) (fun _ _ _ _ hs hstep => hs.step hstep) calls (counts_start threads) h
  have heq := hcounts.getBufferSliceSize
  refine ⟨heq, fun hfits => ?_⟩
  rw [heq, int64_eq_self s.total_nonneg hfits]

/-- Thread 1 destroys what thread 0 has made. -/
theorem getBufferSliceSize_eq_total_two :
    let s : State := ⟨[⟨16384, 16416, 0, 8, 2⟩], [some 0, none], [7, -5], [], [none, some ⟨some 0, 0, 2⟩, none]⟩
    s.getBufferSliceSize = int64 s.total ∧ (s.total < 2 ^ 63 → s.getBufferSliceSize = s.total) :=
  getBufferSliceSize_eq_total 2 [⟨0, .ofSize 5⟩, ⟨0, .clone 0⟩, ⟨0, .truncate 1 2⟩, ⟨1, .moveConstruct 0⟩,
    ⟨0, .destroy 0⟩, ⟨1, .destroy 2⟩] rfl

end TdUtils.BufferAllocator
