import Mathlib.Algebra.GroupWithZero.Nat
import Mathlib.Data.Fintype.Basic
import Mathlib.Data.List.Nodup
import Mathlib.Logic.Function.Basic
import TdUtils.Lib.Machine

/-!
# Concurrent.EpochReclamation — objects are deleted when the epoch has moved on

A thread publishes the epoch in which it reads.  What it retires waits in one of three bags, and the bags rotate
when its own epoch changes.  Each event of a running call is one operation on an atomic, or the rotation of the bags.
-/

namespace TdUtils

namespace EpochBasedMemoryReclamation

abbrev maxBags : ℕ := 3

/-- `epoch` is odd while the thread is idle, and else twice an epoch; the epochs do not exhaust an `int64`. -/
structure ThreadData (ν : Type) where
  epoch : ℕ := 1
  toSkip : ℕ := 0
  checkedThreadI : ℕ := 0
  bagI : Fin maxBags := 0
  toDelete : Fin maxBags → List ν := fun _ => []

namespace ThreadData

variable {ν : Type}

/-- The bag that `rotate_bags` turns to, and clears. -/
def nextBag (data : ThreadData ν) : List ν := data.toDelete (data.bagI + 1)

def rotateBags (data : ThreadData ν) : ThreadData ν :=
  { data with bagI := data.bagI + 1, toDelete := Function.update data.toDelete (data.bagI + 1) [] }

/-- What `set_epoch` does before its store. -/
def startEpoch (data : ThreadData ν) (newEpoch : ℕ) : ThreadData ν :=
  if data.epoch / 2 ≠ newEpoch then { data with checkedThreadI := 0, toSkip := 0 }.rotateBags else data

def idle (data : ThreadData ν) : ThreadData ν := { data with epoch := data.epoch ||| 1 }

def undeleted (data : ThreadData ν) : ℕ := ((List.finRange maxBags).map fun i => (data.toDelete i).length).sum

def push (data : ThreadData ν) (ptr : ν) : ThreadData ν :=
  { data with toDelete := Function.update data.toDelete data.bagI (data.toDelete data.bagI ++ [ptr]) }

end ThreadData

/-- `retire()` leaves a thread locked or not, as it was. -/
inductive Call where
  | lock
  | retire (locked : Bool)
  | retireSync
deriving DecidableEq

/-- A thread is between two calls, or before one of the operations of a call: the load of the epoch, the two halves
of `set_epoch`, the load and the exchange of `step_check`, and `idle` in `retire_sync`. -/
inductive Place where
  | ready (locked : Bool)
  | load (call : Call)
  | setEpoch (call : Call) (checking : Bool) (newEpoch : ℕ)
  | publish (call : Call) (checking : Bool) (newEpoch : ℕ)
  | check (call : Call)
  | advance (call : Call)
  | idle
deriving DecidableEq

end EpochBasedMemoryReclamation

open EpochBasedMemoryReclamation in
/-- `shared` are the pointers through which threads find objects. -/
structure EpochBasedMemoryReclamation (n : ℕ) (π ν : Type) where
  shared : π → Option ν := fun _ => none
  epoch : ℕ := 1
  threads : Fin n → ThreadData ν := fun _ => {}
  place : Fin n → Place := fun _ => .ready false

namespace EpochBasedMemoryReclamation

/-- `exchange` is a store to a shared pointer by anyone. -/
inductive Event (n : ℕ) (π ν : Type) where
  | exchange (ptr : π) (value : Option ν)
  | lock (i : Fin n)
  | read (i : Fin n) (ptr : π)
  | retirePtr (i : Fin n) (ptr : ν)
  | unlock (i : Fin n)
  | retire (i : Fin n)
  | retireSync (i : Fin n)
  | thread (i : Fin n)

/-- `ended` is where a thread gives up what it has read. -/
inductive Answer (n : ℕ) (ν : Type) where
  | nothing
  | read (i : Fin n) (ptr : ν)
  | retired (ptr : ν)
  | ended (i : Fin n)
  | deleted (bag : List ν)
deriving DecidableEq

variable {n : ℕ} {π ν : Type}

def put (s : EpochBasedMemoryReclamation n π ν) (i : Fin n) (data : ThreadData ν) (place : Place) :
    EpochBasedMemoryReclamation n π ν :=
  { s with threads := Function.update s.threads i data, place := Function.update s.place i place }

def goes (s : EpochBasedMemoryReclamation n π ν) (i : Fin n) (place : Place) : EpochBasedMemoryReclamation n π ν :=
  s.put i (s.threads i) place

/-- Where a call goes on when its `step_check` has returned. -/
def checked (data : ThreadData ν) (result : Bool) : Call → Place
  | .lock => .ready true
  | .retire locked => if result ∧ data.undeleted ≠ 0 then .check (.retire locked) else .ready locked
  | .retireSync => if result ∧ data.undeleted ≠ 0 then .check .retireSync else .idle

/-- Where a call goes on when its own `set_epoch` has returned. -/
def entered (data : ThreadData ν) : Call → ThreadData ν × Place
  | .lock =>
    if data.toSkip = 0 then ({ data with toSkip := 30 }, .check .lock)
    else ({ data with toSkip := data.toSkip - 1 }, .ready true)
  | call => (data, .check call)

def setEpoch (s : EpochBasedMemoryReclamation n π ν) (i : Fin n) (call : Call) (checking : Bool) (newEpoch : ℕ) :
    EpochBasedMemoryReclamation n π ν × Answer n ν :=
  (s.put i ((s.threads i).startEpoch newEpoch) (.publish call checking newEpoch),
    if (s.threads i).epoch / 2 ≠ newEpoch then .deleted (s.threads i).nextBag else .nothing)

def publish (s : EpochBasedMemoryReclamation n π ν) (i : Fin n) (call : Call) (checking : Bool) (newEpoch : ℕ) :
    EpochBasedMemoryReclamation n π ν :=
  let data : ThreadData ν := { s.threads i with epoch := newEpoch * 2 }
  if checking then s.put i data (checked data true call)
  else s.put i (entered data call).1 (entered data call).2

/-- `step_check` up to the exchange. -/
def check (s : EpochBasedMemoryReclamation n π ν) (i : Fin n) (call : Call) :
    Option (EpochBasedMemoryReclamation n π ν) :=
  let data := s.threads i
  if h : data.checkedThreadI < n then
    let checkedThreadEpoch := (s.threads ⟨data.checkedThreadI, h⟩).epoch
    if checkedThreadEpoch % 2 = 1 ∨ checkedThreadEpoch / 2 = data.epoch / 2 then
      let data := { data with checkedThreadI := data.checkedThreadI + 1 }
      if data.checkedThreadI = n then some (s.put i data (.advance call))
      else some (s.put i data (checked data true call))
    else some (s.goes i (checked data false call))
  else none

/-- `compare_exchange_strong` gives `set_epoch` the next epoch, or the one that it has found. -/
def advance (s : EpochBasedMemoryReclamation n π ν) (i : Fin n) (call : Call) :
    EpochBasedMemoryReclamation n π ν :=
  let epoch := (s.threads i).epoch / 2
  if s.epoch = epoch then { s with epoch := epoch + 1 }.goes i (.setEpoch call true (epoch + 1))
  else s.goes i (.setEpoch call true s.epoch)

def threadStep (s : EpochBasedMemoryReclamation n π ν) (i : Fin n) :
    Option (EpochBasedMemoryReclamation n π ν × Answer n ν) :=
  match s.place i with
  | .ready _ => some (s, .nothing)
  | .load call => some (s.goes i (.setEpoch call false s.epoch), .nothing)
  | .setEpoch call checking newEpoch => some (s.setEpoch i call checking newEpoch)
  | .publish call checking newEpoch => some (s.publish i call checking newEpoch, .nothing)
  | .check call => (s.check i call).map fun t => (t, .nothing)
  | .advance call => some (s.advance i call, .nothing)
  | .idle =>
    some (s.put i (s.threads i).idle (if (s.threads i).undeleted = 0 then .ready false else .load .retireSync),
      .nothing)

variable [DecidableEq π]

/-- A thread that is in a call goes on with it; one that is not locked reads and retires nothing, and one that is
locked does not lock. -/
def step (s : EpochBasedMemoryReclamation n π ν) :
    Event n π ν → Option (EpochBasedMemoryReclamation n π ν × Answer n ν)
  | .exchange ptr value => some ({ s with shared := Function.update s.shared ptr value }, .nothing)
  | .lock i => match s.place i with
    | .ready false => some (s.goes i (.load .lock), .nothing)
    | _ => some (s, .nothing)
  | .read i ptr => match s.place i, s.shared ptr with
    | .ready true, some value => some (s, .read i value)
    | _, _ => some (s, .nothing)
  | .retirePtr i ptr => match s.place i with
    | .ready true => some (s.put i ((s.threads i).push ptr) (.ready true), .retired ptr)
    | _ => some (s, .nothing)
  | .unlock i => match s.place i with
    | .ready _ => some (s.put i (s.threads i).idle (.ready false), .ended i)
    | _ => some (s, .nothing)
  | .retire i => match s.place i with
    | .ready locked => some (s.goes i (.load (.retire locked)), .ended i)
    | _ => some (s, .nothing)
  | .retireSync i => match s.place i with
    | .ready _ => some (s.goes i (.load .retireSync), .ended i)
    | _ => some (s, .nothing)
  | .thread i => s.threadStep i

def machine (n : ℕ) (π ν : Type) [DecidableEq π] :
    Lib.Machine (EpochBasedMemoryReclamation n π ν) (Event n π ν) (Answer n ν) := ⟨step⟩

/-! ### How it is used, and what was answered -/

def Event.retired : Event n π ν → Option ν
  | .retirePtr _ ptr => some ptr
  | _ => none

/-- What a thread has read and may still use. -/
def Answer.uses (i : Fin n) (used : List ν) : Answer n ν → List ν
  | .read j ptr => if j = i then used ++ [ptr] else used
  | .ended j => if j = i then [] else used
  | _ => used

def uses (answers : List (Answer n ν)) (i : Fin n) : List ν := answers.foldl (Answer.uses i) []

def Answer.deletes : Answer n ν → List ν
  | .deleted bag => bag
  | _ => []

/-- The index of the thread that is checked next, or the end of the array in a call that is about to set it to 0. -/
def Place.InRange (n checkedThreadI : ℕ) : Place → Prop
  | .advance _ | .setEpoch _ true _ => checkedThreadI = n
  | _ => checkedThreadI < n

end EpochBasedMemoryReclamation

end TdUtils
