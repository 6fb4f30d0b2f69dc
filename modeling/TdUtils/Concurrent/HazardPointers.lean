import Mathlib.Data.Fintype.Basic
import Mathlib.Data.List.FinRange
import Mathlib.Data.List.Nodup
import Mathlib.Data.List.ProdSigma
import Mathlib.Logic.Function.Basic
import TdUtils.Lib.Machine

/-!
# Concurrent.HazardPointers — what some thread has protected is not deleted

A thread publishes a pointer in its slot and looks again at where it has read it; `retire` looks at all slots before
it deletes.  Each event of a running call is one operation on an atomic, or the deletion of an object.
-/

namespace TdUtils

namespace HazardPointers

/-- A thread is between two calls, before one of the two operations of the loop of `do_protect`, or in the loop of
`retire`, with the slots that `is_protected` has not read for the object at `it`. -/
inductive Place (n m : ℕ) (π ν : Type) where
  | idle
  | load (pos : Fin m) (toProtect : π) (saved : Option ν)
  | store (pos : Fin m) (toProtect : π) (toSave : Option ν)
  | scan (it : ℕ) (slots : List (Fin n × Fin m))

end HazardPointers

open HazardPointers in
/-- `shared` are the pointers that are passed to `protect`. -/
structure HazardPointers (n m : ℕ) (π ν : Type) where
  shared : π → Option ν := fun _ => none
  hazard : Fin n → Fin m → Option ν := fun _ _ => none
  toDelete : Fin n → List ν := fun _ => []
  place : Fin n → Place n m π ν := fun _ => .idle

namespace HazardPointers

/-- `exchange` is a store to a shared pointer by anyone. -/
inductive Event (n m : ℕ) (π ν : Type) where
  | exchange (ptr : π) (value : Option ν)
  | protect (i : Fin n) (pos : Fin m) (ptr : π)
  | clear (i : Fin n) (pos : Fin m)
  | retire (i : Fin n) (ptr : Option ν)
  | thread (i : Fin n)

inductive Answer (n m : ℕ) (ν : Type) where
  | nothing
  | overwrote (i : Fin n) (pos : Fin m)
  | obtained (i : Fin n) (pos : Fin m) (ptr : ν)
  | cleared (i : Fin n) (pos : Fin m)
  | deleted (ptr : ν)
deriving DecidableEq

variable {n m : ℕ} {π ν : Type}

/-- In the order of `is_protected`. -/
def allSlots (n m : ℕ) : List (Fin n × Fin m) := (List.finRange n).product (List.finRange m)

def goes (s : HazardPointers n m π ν) (i : Fin n) (place : Place n m π ν) : HazardPointers n m π ν :=
  { s with place := Function.update s.place i place }

def setHazard (s : HazardPointers n m π ν) (i : Fin n) (pos : Fin m) (ptr : Option ν) : HazardPointers n m π ν :=
  { s with hazard := Function.update s.hazard i (Function.update (s.hazard i) pos ptr) }

def setToDelete (s : HazardPointers n m π ν) (i : Fin n) (toDelete : List ν) : HazardPointers n m π ν :=
  { s with toDelete := Function.update s.toDelete i toDelete }

def retire (s : HazardPointers n m π ν) (i : Fin n) (ptr : Option ν) : HazardPointers n m π ν :=
  (s.setToDelete i (s.toDelete i ++ ptr.toList)).goes i (.scan 0 (allSlots n m))

variable [DecidableEq π] [DecidableEq ν]

/-- The load of `do_protect`, and what it returns when the pointer is the saved one. -/
def load (s : HazardPointers n m π ν) (i : Fin n) (pos : Fin m) (toProtect : π) (saved : Option ν) :
    HazardPointers n m π ν × Answer n m ν :=
  if s.shared toProtect = saved then
    (s.goes i .idle, match saved with
      | none => .nothing
      | some ptr => .obtained i pos ptr)
  else (s.goes i (.store pos toProtect (s.shared toProtect)), .nothing)

/-- `is_protected` reads one slot, or the object is deleted. -/
def scan (s : HazardPointers n m π ν) (i : Fin n) (it : ℕ) (slots : List (Fin n × Fin m)) :
    HazardPointers n m π ν × Answer n m ν :=
  match (s.toDelete i)[it]? with
  | none => (s.goes i .idle, .nothing)
  | some ptr =>
    match slots with
    | [] => ((s.setToDelete i ((s.toDelete i).eraseIdx it)).goes i (.scan it (allSlots n m)), .deleted ptr)
    | slot :: slots =>
      if s.hazard slot.1 slot.2 = some ptr then (s.goes i (.scan (it + 1) (allSlots n m)), .nothing)
      else (s.goes i (.scan it slots), .nothing)

def threadStep (s : HazardPointers n m π ν) (i : Fin n) : HazardPointers n m π ν × Answer n m ν :=
  match s.place i with
  | .idle => (s, .nothing)
  | .load pos toProtect saved => s.load i pos toProtect saved
  | .store pos toProtect toSave =>
    ((s.setHazard i pos toSave).goes i (.load pos toProtect toSave), .overwrote i pos)
  | .scan it slots => s.scan i it slots

/-- A thread that is in a call goes on with it. -/
def step (s : HazardPointers n m π ν) : Event n m π ν → HazardPointers n m π ν × Answer n m ν
  | .exchange ptr value => ({ s with shared := Function.update s.shared ptr value }, .nothing)
  | .protect i pos ptr => match s.place i with
    | .idle => (s.goes i (.load pos ptr none), .nothing)
    | _ => (s, .nothing)
  | .clear i pos => match s.place i with
    | .idle => (s.setHazard i pos none, .cleared i pos)
    | _ => (s, .nothing)
  | .retire i ptr => match s.place i with
    | .idle => (s.retire i ptr, .nothing)
    | _ => (s, .nothing)
  | .thread i => s.threadStep i

def machine (n m : ℕ) (π ν : Type) [DecidableEq π] [DecidableEq ν] :
    Lib.Machine (HazardPointers n m π ν) (Event n m π ν) (Answer n m ν) := ⟨fun s event => some (s.step event)⟩

/-! ### How it is used -/

def Event.retired : Event n m π ν → Option ν
  | .retire _ ptr => ptr
  | _ => none

def Event.linked : Event n m π ν → Option ν
  | .exchange _ value => value
  | _ => none

/-- An object is passed to `retire` once, and not linked again. -/
def Once (events : List (Event n m π ν)) : Prop :=
  events.Pairwise fun earlier later => ∀ ptr ∈ earlier.retired, later.retired ≠ some ptr ∧ later.linked ≠ some ptr

instance (events : List (Event n m π ν)) : Decidable (Once events) :=
  inferInstanceAs (Decidable (events.Pairwise _))

/-- An object is unlinked before it is passed to `retire`. -/
def Unlinked (s : HazardPointers n m π ν) (event : Event n m π ν) : Prop :=
  ∀ ptr ∈ event.retired, ∀ shared, s.shared shared ≠ some ptr

instance [Fintype π] (s : HazardPointers n m π ν) (event : Event n m π ν) :
    Decidable (Unlinked s event) :=
  inferInstanceAs (Decidable (∀ ptr ∈ event.retired, ∀ shared, s.shared shared ≠ some ptr))

/-! ### What was answered -/

/-- What a thread has obtained from `protect` in a slot, and has neither cleared nor overwritten. -/
def Answer.holds (i : Fin n) (pos : Fin m) (held : Option ν) : Answer n m ν → Option ν
  | .obtained j q ptr => if j = i ∧ q = pos then some ptr else held
  | .overwrote j q | .cleared j q => if j = i ∧ q = pos then none else held
  | _ => held

def holds (answers : List (Answer n m ν)) (i : Fin n) (pos : Fin m) : Option ν :=
  answers.foldl (Answer.holds i pos) none

def Answer.deletes : Answer n m ν → Option ν
  | .deleted ptr => some ptr
  | _ => none

end HazardPointers

end TdUtils
