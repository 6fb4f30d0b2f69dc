import Mathlib.Algebra.Group.Int.Defs
import Mathlib.Algebra.Group.Nat.Defs
import Mathlib.Data.Fin.Basic
import Mathlib.Logic.Function.Basic
import TdUtils.Lib.Machine

/-!
# Concurrent.MpmcSleepyWaiter — workers that park in a list, and notifications that unpark the last of them

A worker searches the queue between the calls of `wait` and calls `stop_wait` when it has found an item; a
producer publishes an item and calls `notify`.  Each event is one operation on an atomic or on the queue, or
one access to what `sleepers_mutex_` protects; `none` is a failed check.
-/

namespace TdUtils

namespace MpmcSleepyWaiter

/-! ### The word -/

/-- `(1 << PARKING_SHIFT) - 1`: one worker more is parked, and one less is searching. -/
def oneParked : ℤ := 2 ^ 16 - 1

def fetchAdd (state add : ℤ) : ℤ := (state + add).bmod (2 ^ 32)

def fetchSub (state sub : ℤ) : ℤ := (state - sub).bmod (2 ^ 32)

def parkedCount (state : ℤ) : ℤ := state >>> (16 : ℕ)

def searchingCount (state : ℤ) : ℤ := state % 2 ^ 16

inductive SlotState where
  | search
  | work
  | sleep
deriving DecidableEq

/-- The load, the lock, the second load with the list, the `fetch_sub`, and `unpark`. -/
inductive NotifyAt (n : ℕ) where
  | load
  | lock
  | check
  | fetchSub (sleeper : Fin n)
  | unpark (sleeper : Fin n)
deriving DecidableEq

/-- `fetchAdd` and `push` are in the critical section of `wait`, `find` and `fetchSub` in that of `stop_wait`;
`stop` is the `fetch_sub` at its end. -/
inductive WorkerAt (n : ℕ) where
  | search
  | wait
  | fetchAdd
  | push (shouldSearch : Bool)
  | park
  | stopWait
  | find
  | fetchSub
  | cancelPark
  | stop
  | notify (place : NotifyAt n)
  | working
deriving DecidableEq

inductive ProducerAt (n : ℕ) where
  | idle
  | notify (place : NotifyAt n)
deriving DecidableEq

end MpmcSleepyWaiter

open MpmcSleepyWaiter in
/-- `queue` are the items that are published and not claimed. -/
structure MpmcSleepyWaiter (n : ℕ) (π : Type) where
  state : ℤ := 0
  sleepersMutex : Option (Fin n ⊕ π) := none
  sleepers : List (Fin n) := []
  slotState : Fin n → SlotState := fun _ => .work
  unparkFlag : Fin n → Bool := fun _ => false
  queue : List ℕ := []
  published : ℕ := 0
  worker : Fin n → WorkerAt n := fun _ => .search
  producer : π → ProducerAt n := fun _ => .idle

namespace MpmcSleepyWaiter

/-- What happens next; `pick` chooses among the items of a search. -/
inductive Event (n : ℕ) (π : Type) where
  | worker (w : Fin n) (pick : ℕ)
  | publish (p : π)
  | producer (p : π)

variable {n : ℕ} {π : Type}

def goes (s : MpmcSleepyWaiter n π) (w : Fin n) (place : WorkerAt n) : MpmcSleepyWaiter n π :=
  { s with worker := Function.update s.worker w place }

def slot (s : MpmcSleepyWaiter n π) (w : Fin n) (state : SlotState) : MpmcSleepyWaiter n π :=
  { s with slotState := Function.update s.slotState w state }

def flag (s : MpmcSleepyWaiter n π) (w : Fin n) (unparkFlag : Bool) : MpmcSleepyWaiter n π :=
  { s with unparkFlag := Function.update s.unparkFlag w unparkFlag }

/-- One step of `notify` by a thread, and where it is then; `none` there is its return. -/
def notifyStep (s : MpmcSleepyWaiter n π) (t : Fin n ⊕ π) :
    NotifyAt n → Option (MpmcSleepyWaiter n π × Option (NotifyAt n))
  | .load =>
    if 0 < searchingCount s.state ∨ parkedCount s.state = 0 then some (s, none) else some (s, some .lock)
  | .lock =>
    match s.sleepersMutex with
    | none => some ({ s with sleepersMutex := some t }, some .check)
    | some _ => some (s, some .lock)
  | .check =>
    if 0 < searchingCount s.state then some ({ s with sleepersMutex := none }, none)
    else if parkedCount s.state ≠ s.sleepers.length then none
    else
      match s.sleepers.getLast? with
      | none => some ({ s with sleepersMutex := none }, none)
      | some sleeper => some ({ s with sleepers := s.sleepers.dropLast }, some (.fetchSub sleeper))
  | .fetchSub sleeper => some ({ s with state := fetchSub s.state oneParked }, some (.unpark sleeper))
  | .unpark sleeper => some ({ s with sleepersMutex := none }.flag sleeper true, none)

/-- `wait` up to the end of its first atomic operation, or to its critical section. -/
def wait (s : MpmcSleepyWaiter n π) (w : Fin n) : MpmcSleepyWaiter n π :=
  match s.slotState w with
  | .work => ({ s with state := fetchAdd s.state 1 }.slot w .search).goes w .search
  | .search =>
    match s.sleepersMutex with
    | none => ({ s with sleepersMutex := some (.inl w) }.slot w .sleep).goes w .fetchAdd
    | some _ => s
  | .sleep => s.goes w .park

/-- `stop_wait` up to its critical section, or to its last `fetch_sub`. -/
def stopWait (s : MpmcSleepyWaiter n π) (w : Fin n) : MpmcSleepyWaiter n π :=
  match s.slotState w with
  | .work => s.goes w .working
  | .search => s.goes w .stop
  | .sleep =>
    match s.sleepersMutex with
    | none => ({ s with sleepersMutex := some (.inl w) }.slot w .work).goes w .find
    | some _ => s

variable [DecidableEq π]

/-- A thread goes on in `notify`, or returns from it. -/
def resumes (s : MpmcSleepyWaiter n π) : Fin n ⊕ π → Option (NotifyAt n) → MpmcSleepyWaiter n π
  | .inl w, some place => s.goes w (.notify place)
  | .inl w, none => (s.slot w .work).goes w .working
  | .inr p, some place => { s with producer := Function.update s.producer p (.notify place) }
  | .inr p, none => { s with producer := Function.update s.producer p .idle }

def notify (s : MpmcSleepyWaiter n π) (t : Fin n ⊕ π) (place : NotifyAt n) : Option (MpmcSleepyWaiter n π) :=
  match s.notifyStep t place with
  | none => none
  | some (s', next) => some (s'.resumes t next)

def workerStep (s : MpmcSleepyWaiter n π) (w : Fin n) (pick : ℕ) : Option (MpmcSleepyWaiter n π) :=
  match s.worker w with
  | .search =>
    if s.queue = [] then some (s.goes w .wait)
    else some ({ s with queue := s.queue.eraseIdx (pick % s.queue.length) }.goes w .stopWait)
  | .wait => some (s.wait w)
  | .fetchAdd =>
    if searchingCount s.state = 0 then none
    else some ({ s with state := fetchAdd s.state oneParked }.goes w (.push (searchingCount s.state = 1)))
  | .push shouldSearch =>
    if s.unparkFlag w then none
    else
      some ({ s with sleepers := s.sleepers ++ [w], sleepersMutex := none }.goes w
        (if shouldSearch then .search else .park))
  | .park => if s.unparkFlag w then some (((s.flag w false).slot w .search).goes w .search) else some s
  | .stopWait => some (s.stopWait w)
  | .find =>
    if w ∈ s.sleepers then some ({ s with sleepers := s.sleepers.erase w }.goes w .fetchSub)
    else some ({ s with sleepersMutex := none }.goes w .cancelPark)
  | .fetchSub =>
    some (({ s with state := fetchSub s.state oneParked, sleepersMutex := none }.slot w .search).goes w .stop)
  | .cancelPark => if s.unparkFlag w then some (((s.flag w false).slot w .search).goes w .stop) else none
  | .stop =>
    if searchingCount s.state = 0 ∨ 1000 ≤ searchingCount s.state then none
    else if searchingCount s.state = 1 then
      some ({ s with state := fetchSub s.state 1 }.goes w (.notify .load))
    else some (({ s with state := fetchSub s.state 1 }.slot w .work).goes w .working)
  | .notify place => s.notify (.inl w) place
  | .working => some (s.goes w .search)

def publish (s : MpmcSleepyWaiter n π) (p : π) : MpmcSleepyWaiter n π :=
  match s.producer p with
  | .idle =>
    { s with
      queue := s.queue ++ [s.published]
      published := s.published + 1
      producer := Function.update s.producer p (.notify .load) }
  | .notify _ => s

def producerStep (s : MpmcSleepyWaiter n π) (p : π) : Option (MpmcSleepyWaiter n π) :=
  match s.producer p with
  | .idle => some s
  | .notify place => s.notify (.inr p) place

def step (s : MpmcSleepyWaiter n π) : Event n π → Option (MpmcSleepyWaiter n π)
  | .worker w pick => s.workerStep w pick
  | .publish p => some (s.publish p)
  | .producer p => s.producerStep p

def machine (n : ℕ) (π : Type) [DecidableEq π] : Lib.Machine (MpmcSleepyWaiter n π) (Event n π) Unit :=
  ⟨fun s event => (s.step event).map fun t => (t, ())⟩

def start (n : ℕ) (π : Type) : MpmcSleepyWaiter n π := {}

/-- An item is published and unclaimed, no `notify` and no `stop_wait` is in progress, and every worker is
blocked in `park`. -/
def Lost (s : MpmcSleepyWaiter n π) : Prop :=
  s.queue ≠ [] ∧ (∀ p, s.producer p = .idle) ∧ ∀ w, s.worker w = .park ∧ s.unparkFlag w = false

end MpmcSleepyWaiter

end TdUtils
