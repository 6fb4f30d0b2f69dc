import Mathlib.Data.Finset.Insert
import Mathlib.Logic.Function.Basic
import TdUtils.Lib.Machine
import TdUtils.Lib.Rings

/-!
# Container.ListNode — nodes of circular lists

A `Heap` has the pointers of all nodes, and a `State` says which nodes are constructed; what is in the memory of the
others is of no account.  Each operation does its assignments one after another, so nodes may be the same.  `none` is a
failed check, or an operation on a node that is not there.
-/

namespace TdUtils

open Lib Rings

universe u

variable {N : Type u} [DecidableEq N]

namespace ListNode

@[ext] structure Heap (N : Type u) where
  next : N → N
  prev : N → N

namespace Heap

variable (h : Heap N) (this other : N)

/-- `connect`; there are no null pointers. -/
def connect (to_ : N) : Heap N :=
  let h := { h with next := Function.update h.next this to_ }
  { h with prev := Function.update h.prev to_ this }

def clear : Heap N :=
  let h := { h with next := Function.update h.next this this }
  { h with prev := Function.update h.prev this this }

def remove : Heap N := (h.connect (h.prev this) (h.next this)).clear this

def empty : Bool := h.next this = this

def putUnsafe : Heap N := (h.connect other (h.next this)).connect this other

def put : Option (Heap N) := if h.empty other then some (h.putUnsafe this other) else none

def putBack : Option (Heap N) :=
  if h.empty other then some ((h.connect (h.prev this) other).connect other this) else none

/-- `get`; none is `nullptr`. -/
def get : Heap N × Option N :=
  let result := h.prev this
  if result = this then (h, none) else ((h.connect (h.prev result) this).clear result, some result)

def initFrom : Heap N :=
  let head := h.prev other
  (h.remove other).putUnsafe head this

/-- `ListNode(ListNode &&other)`. -/
def moveConstruct : Heap N := if h.empty other then h.clear this else h.initFrom this other

/-- `operator=(ListNode &&other)`. -/
def moveAssign : Heap N :=
  if this = other then h
  else
    let h := h.remove this
    if ¬ h.empty other then h.initFrom this other else h

end Heap

/-- The nodes that are constructed, and all pointers. -/
structure State (N : Type u) where
  heap : Heap N
  nodes : Finset N

/-- New nodes; what is in the rest of the memory is arbitrary. -/
def start (memory : Heap N) (nodes : Finset N) : State N :=
  ⟨⟨fun x => if x ∈ nodes then x else memory.next x, fun x => if x ∈ nodes then x else memory.prev x⟩, nodes⟩

inductive Call (N : Type u)
  | construct (this : N)
  | destroy (this : N)
  | put (this other : N)
  | putBack (this other : N)
  | get (this : N)
  | remove (this : N)
  | moveConstruct (this other : N)
  | moveAssign (this other : N)

/-- A call on nodes that are there; the answer is that of `get`. -/
def step (s : State N) : Call N → Option (State N × Option N)
  | .construct this => if this ∉ s.nodes then some (⟨s.heap.clear this, insert this s.nodes⟩, none) else none
  | .destroy this => if this ∈ s.nodes then some (⟨s.heap.remove this, s.nodes.erase this⟩, none) else none
  | .put this other =>
    if this ∈ s.nodes ∧ other ∈ s.nodes then (s.heap.put this other).map fun heap => ({ s with heap }, none) else none
  | .putBack this other =>
    if this ∈ s.nodes ∧ other ∈ s.nodes then (s.heap.putBack this other).map fun heap => ({ s with heap }, none)
    else none
  | .get this =>
    if this ∈ s.nodes then
      let (heap, result) := s.heap.get this
      some ({ s with heap }, result)
    else none
  | .remove this => if this ∈ s.nodes then some ({ s with heap := s.heap.remove this }, none) else none
  | .moveConstruct this other =>
    if this ∉ s.nodes ∧ other ∈ s.nodes then
      some (⟨s.heap.moveConstruct this other, insert this s.nodes⟩, none)
    else none
  | .moveAssign this other =>
    if this ∈ s.nodes ∧ other ∈ s.nodes then some ({ s with heap := s.heap.moveAssign this other }, none) else none

/-- Programs with nodes. -/
def machine : Machine (State N) (Call N) (Option N) := ⟨step⟩

/-! ### The two changes of rings -/

/-- The nodes of a ring of the heap. -/
abbrev Heap.Rings (h : Heap N) (c : Cycle N) : Prop := RingOf h.next h.prev c

/-- What comes in the place of a node when `x` is taken out. -/
def without (x b : N) : List N := if b = x then [] else [b]

/-- What comes in the place of a node when `x` is put behind `y`. -/
def behind (y x b : N) : List N := if b = y then [y, x] else [b]

/-- What comes in the place of a node when `x` takes the place of `y`. -/
def moved (x y b : N) : List N := if b = x then [] else if b = y then [x] else [b]

section Changes

variable {h : Heap N} {x y : N} {c : Cycle N} {l : List N}

theorem flatMap_without_of_not_mem (hx : x ∉ l) : l.flatMap (without x) = l :=
  flatMap_pure fun b hb => if_neg fun heq : b = x => hx (heq ▸ hb)

theorem flatMap_behind_of_not_mem (hy : y ∉ l) : l.flatMap (behind y x) = l :=
  flatMap_pure fun b hb => if_neg fun heq : b = y => hy (heq ▸ hb)

@[simp] theorem Heap.empty_iff (h : Heap N) (x : N) : h.empty x = true ↔ h.next x = x := decide_eq_true_iff

@[simp] theorem Heap.remove_next (h : Heap N) (x b : N) :
    (h.remove x).next b = if b = x then x else if b = h.prev x then h.next x else h.next b := by
  simp [Heap.remove, Heap.connect, Heap.clear, Function.update_apply]

@[simp] theorem Heap.remove_prev (h : Heap N) (x b : N) :
    (h.remove x).prev b = if b = x then x else if b = h.next x then h.prev x else h.prev b := by
  simp [Heap.remove, Heap.connect, Heap.clear, Function.update_apply]

@[simp] theorem Heap.putUnsafe_next (h : Heap N) (y x b : N) :
    (h.putUnsafe y x).next b = if b = y then x else if b = x then h.next y else h.next b := by
  simp [Heap.putUnsafe, Heap.connect, Function.update_apply]

@[simp] theorem Heap.putUnsafe_prev (h : Heap N) (y x b : N) :
    (h.putUnsafe y x).prev b = if b = x then y else if b = h.next y then x else h.prev b := by
  simp [Heap.putUnsafe, Heap.connect, Function.update_apply]

/-- A node that is removed leaves its ring and is one of its own. -/
theorem Heap.rings_remove (hc : h.Rings c) (hx : x ∈ c) : (h.remove x).Rings ([x] : List N) ∧
    ∀ l : List N, h.Rings l → l.flatMap (without x) ≠ [] → (h.remove x).Rings (l.flatMap (without x) : List N) := by
  refine ⟨ringOf_singleton.mpr (by simp), fun l hl hne => ?_⟩
  by_cases hxl : x ∈ l
  · refine flatMap_of_cons hxl fun m hm => ?_
    rw [hm] at hl
    have hxm : x ∉ m := hl.not_mem_tail
    have hflat : (x :: m).flatMap (without x) = m := by
      rw [List.flatMap_cons, flatMap_without_of_not_mem hxm, without, if_pos rfl, List.nil_append]
    have hm' : m ≠ [] := by
      rintro rfl
      obtain rfl := List.perm_singleton.mp (Cycle.coe_eq_coe.mp hm).perm
      exact hne hflat
    have hne' : ∀ b ∈ m, b ≠ x := fun b hb heq => hxm (heq ▸ hb)
    rw [hflat]
    refine hl.out hm' ?_ ?_ (fun b hb hbp => ?_) fun b hb hbn => ?_
    · simp [hl.prev_ne hm']
    · simp [hl.next_ne hm']
    · simp [hne' b hb, hbp]
    · simp [hne' b hb, hbn]
  · rw [flatMap_without_of_not_mem hxl]
    have hprev := hc.not_mem hl hx hxl (hc.prev_mem hx)
    have hnext := hc.not_mem hl hx hxl (hc.next_mem hx)
    refine hl.congr (fun b hb => ?_) fun b hb => ?_
    · have hbx : b ≠ x := fun heq => hxl (heq ▸ hb)
      have hbp : b ≠ h.prev x := fun heq => hprev (heq ▸ hb)
      simp [hbx, hbp]
    · have hbx : b ≠ x := fun heq => hxl (heq ▸ hb)
      have hbn : b ≠ h.next x := fun heq => hnext (heq ▸ hb)
      simp [hbx, hbn]

/-- A node that is put behind another one comes into its ring. -/
theorem Heap.rings_putUnsafe (hc : h.Rings c) (hy : y ∈ c) (hl : h.Rings (l : List N)) (hxl : x ∉ l) :
    (h.putUnsafe y x).Rings (l.flatMap (behind y x) : List N) := by
  by_cases hyl : y ∈ l
  · refine flatMap_of_cons hyl fun m hm => ?_
    have hxm : x ∉ y :: m := (Cycle.coe_eq_coe.mp hm).mem_iff.not.mp hxl
    rw [hm] at hl
    have hym : y ∉ m := hl.not_mem_tail
    have hflat : (y :: m).flatMap (behind y x) = y :: x :: m := by
      rw [List.flatMap_cons, flatMap_behind_of_not_mem hym, behind, if_pos rfl]
      rfl
    have hxy : x ≠ y := fun heq => hxm (heq ▸ List.mem_cons_self)
    have hnext := hl.next_mem (x := y) (by simp)
    have hxn : h.next y ≠ x := fun heq => hxm (heq ▸ hnext)
    rw [hflat]
    refine hl.insert hxm ?_ ?_ ?_ ?_ (fun b hb => ?_) fun b hb hbn => ?_
    · simp
    · simp
    · simp [hxy]
    · simp [hxn]
    · have hby : b ≠ y := fun heq => hym (heq ▸ hb)
      have hbx : b ≠ x := fun heq => hxm (heq ▸ List.mem_cons_of_mem _ hb)
      simp [hby, hbx]
    · have hbx : b ≠ x := fun heq => hxm (heq ▸ hb)
      simp [hbx, hbn]
  · have hnext := hc.not_mem hl hy hyl (hc.next_mem hy)
    rw [flatMap_behind_of_not_mem hyl]
    refine hl.congr (fun b hb => ?_) fun b hb => ?_
    · have hby : b ≠ y := fun heq => hyl (heq ▸ hb)
      have hbx : b ≠ x := fun heq => hxl (heq ▸ hb)
      simp [hby, hbx]
    · have hbx : b ≠ x := fun heq => hxl (heq ▸ hb)
      have hbn : b ≠ h.next y := fun heq => hnext (heq ▸ hb)
      simp [hbx, hbn]

theorem flatMap_moved_of_not_mem (hx : x ∉ l) (hy : y ∉ l) : l.flatMap (moved x y) = l := by
  refine flatMap_pure fun b hb => ?_
  have hbx : b ≠ x := fun heq => hx (heq ▸ hb)
  have hby : b ≠ y := fun heq => hy (heq ▸ hb)
  rw [moved, if_neg hbx, if_neg hby]

/-- A node of no ring takes the place of one that is not alone. -/
theorem Heap.rings_initFrom (hc : h.Rings c) (hy : y ∈ c) (halone : h.next y ≠ y) (hx : x ∉ c) :
    (h.initFrom x y).Rings ([y] : List N) ∧ ∀ l : List N, h.Rings l → x ∉ l →
      (h.initFrom x y).Rings (l.flatMap (moved x y) : List N) := by
  have hxy : x ≠ y := fun heq => hx (heq ▸ hy)
  obtain ⟨hone, hrings⟩ := Heap.rings_remove hc hy
  have hwithout : ∀ m : List N, h.Rings (y :: m : List N) → m ≠ [] ∧ y ∉ m ∧ h.prev y ∈ m ∧
      (h.remove y).Rings (m : List N) := by
    intro m hm
    have hym : y ∉ m := hm.not_mem_tail
    have hne : m ≠ [] := by
      rintro rfl
      exact halone (ringOf_singleton.mp hm).1
    have hflat : (y :: m).flatMap (without y) = m := by
      rw [List.flatMap_cons, flatMap_without_of_not_mem hym, without, if_pos rfl, List.nil_append]
    have hring := hrings (y :: m) hm (by rwa [hflat])
    rw [hflat] at hring
    have hprev := hm.prev_mem (x := y) (by simp)
    exact ⟨hne, hym, (List.mem_cons.mp hprev).resolve_left (hm.prev_ne hne), hring⟩
  obtain ⟨m, rfl⟩ := exists_eq_cons hy
  obtain ⟨-, -, hhead, hm⟩ := hwithout m hc
  have hput : ∀ l : List N, (h.remove y).Rings l → x ∉ l →
      (h.initFrom x y).Rings (l.flatMap (behind (h.prev y) x) : List N) :=
    fun l hl hxl => Heap.rings_putUnsafe hm hhead hl hxl
  constructor
  · have hlast : h.prev y ∉ [y] := by
      rw [List.mem_singleton]
      intro heq
      have hnext := hc.next_prev (x := y) (by simp)
      rw [heq] at hnext
      exact halone hnext
    have hring := hput [y] hone (by simpa using hxy)
    rwa [flatMap_behind_of_not_mem hlast] at hring
  · intro l hl hxl
    by_cases hyl : y ∈ l
    · refine flatMap_of_cons hyl fun m hm => ?_
      have hxm : x ∉ y :: m := (Cycle.coe_eq_coe.mp hm).mem_iff.not.mp hxl
      rw [hm] at hl
      obtain ⟨hne, hym, -, hring⟩ := hwithout m hl
      have hxm : x ∉ m := List.not_mem_of_not_mem_cons hxm
      have hflat : (y :: m).flatMap (moved x y) = x :: m := by
        rw [List.flatMap_cons, flatMap_moved_of_not_mem hxm hym, moved, if_neg hxy.symm, if_pos rfl]
        rfl
      obtain ⟨k, rfl, hlast⟩ := hl.exists_concat hne
      have hbehind : (k ++ [h.prev y]).flatMap (behind (h.prev y) x) = k ++ [h.prev y] ++ [x] := by
        rw [List.flatMap_append, flatMap_behind_of_not_mem hlast, List.flatMap_singleton, behind, if_pos rfl,
          List.append_assoc]
        rfl
      have hring := hput _ hring hxm
      rw [hbehind, coe_append] at hring
      rw [hflat]
      exact hring
    · have hne : l ≠ [] := fun hnil => hl.ne_nil (by rw [hnil]; rfl)
      have hlast := hc.not_mem hl hy hyl (hc.prev_mem hy)
      have hring := hrings l hl (by rwa [flatMap_without_of_not_mem hyl])
      rw [flatMap_without_of_not_mem hyl] at hring
      have hring := hput l hring hxl
      rw [flatMap_behind_of_not_mem hlast] at hring
      rw [flatMap_moved_of_not_mem hxl hyl]
      exact hring

end Changes

end ListNode

end TdUtils
