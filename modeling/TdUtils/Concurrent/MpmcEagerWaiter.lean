import Mathlib.Algebra.Group.Nat.Defs
import Mathlib.Data.Fin.Basic
import Mathlib.Logic.Function.Basic
import TdUtils.Lib.Machine

/-!
# Concurrent.MpmcEagerWaiter — workers that fall asleep one after another, and producers that wake them

A worker searches the queue before every call of `wait` and calls `stop_wait` when it finds an item; a
producer publishes an item and calls `notify`.  Each event is an atomic operation or a critical section of
one thread.
-/

namespace TdUtils

namespace MpmcEagerWaiter

/-! ### The word -/

def awake : ℕ := 0

def asleep : ℕ := 1

def isAsleep (state : ℕ) : Bool := state &&& 1 ≠ 0

def hasWorker (state : ℕ) : Bool := state >>> 1 ≠ 0

def withWorker (state worker : ℕ) : ℕ := (state ||| ((worker + 1) <<< 1)) % 2 ^ 32

def stillSleepy (state worker : ℕ) : Bool := state >>> 1 = (worker + 1) % 2 ^ 32

def roundsTillSleepy : ℕ := 32

def roundsTillAsleep : ℕ := 64

/-- `register` and `sleep` are the two compare-exchanges, with the state that was loaded; `blocked` is in
`condition_variable_.wait`; `cold` and `wakeAll` are the exchange and the critical section of
`notify_cold`. -/
inductive WorkerAt where
  | search
  | wait
  | register (state : ℕ)
  | sleep (state : ℕ)
  | blocked
  | found
  | cold
  | wakeAll
  | working
deriving DecidableEq

inductive ProducerAt where
  | idle
  | notify (item : ℕ)
  | cold (item : ℕ)
  | wakeAll (item : ℕ)
deriving DecidableEq

end MpmcEagerWaiter

open MpmcEagerWaiter in
/-- `queue` are the items that are published and not claimed. -/
structure MpmcEagerWaiter (n : ℕ) (π : Type) where
  state : ℕ := awake
  queue : List ℕ := []
  published : ℕ := 0
  yields : Fin n → ℕ := fun _ => 0
  worker : Fin n → WorkerAt := fun _ => .search
  producer : π → ProducerAt := fun _ => .idle

namespace MpmcEagerWaiter

/-- What happens next; `pick` chooses among the items of a search, and `wake` is a spurious wakeup. -/
inductive Event (n : ℕ) (π : Type) where
  | worker (w : Fin n) (pick : ℕ)
  | wake (w : Fin n)
  | publish (p : π)
  | producer (p : π)

variable {n : ℕ} {π : Type}

def goes (s : MpmcEagerWaiter n π) (w : Fin n) (place : WorkerAt) : MpmcEagerWaiter n π :=
  { s with worker := Function.update s.worker w place }

def count (s : MpmcEagerWaiter n π) (w : Fin n) (yields : ℕ) : MpmcEagerWaiter n π :=
  { s with yields := Function.update s.yields w yields }

/-- `condition_variable_.notify_all`. -/
def notifyAll (s : MpmcEagerWaiter n π) : MpmcEagerWaiter n π :=
  { s with
    yields := fun w => if s.worker w = .blocked then 0 else s.yields w
    worker := fun w => if s.worker w = .blocked then .search else s.worker w }

/-- `wait` up to its first atomic operation. -/
def wait (s : MpmcEagerWaiter n π) (w : Fin n) : MpmcEagerWaiter n π :=
  if s.yields w < roundsTillSleepy then (s.count w (s.yields w + 1)).goes w .search
  else if s.yields w = roundsTillSleepy then
    if !hasWorker s.state then s.goes w (.register s.state) else (s.count w 0).goes w .search
  else if s.yields w < roundsTillAsleep then
    if stillSleepy s.state w then (s.count w (s.yields w + 1)).goes w .search
    else (s.count w 0).goes w .search
  else if stillSleepy s.state w then s.goes w (.sleep s.state)
  else (s.count w 0).goes w .search

def workerStep (s : MpmcEagerWaiter n π) (w : Fin n) (pick : ℕ) : MpmcEagerWaiter n π :=
  match s.worker w with
  | .search =>
    if s.queue = [] then s.goes w .wait
    else { s with queue := s.queue.eraseIdx (pick % s.queue.length) }.goes w .found
  | .wait => s.wait w
  | .register state =>
    if s.state = state then
      ({ s with state := withWorker state w }.count w (s.yields w + 1)).goes w .search
    else (s.count w 0).goes w .search
  | .sleep state =>
    if s.state = state then { s with state := asleep }.goes w .blocked
    else (s.count w 0).goes w .search
  | .blocked => s
  | .found => if roundsTillSleepy < s.yields w then s.goes w .cold else (s.count w 0).goes w .working
  | .cold =>
    if isAsleep s.state then { s with state := awake }.goes w .wakeAll
    else ({ s with state := awake }.count w 0).goes w .working
  | .wakeAll => (s.notifyAll.count w 0).goes w .working
  | .working => s.goes w .search

def wake (s : MpmcEagerWaiter n π) (w : Fin n) : MpmcEagerWaiter n π :=
  if s.worker w = .blocked then (s.count w 0).goes w .search else s

variable [DecidableEq π]

def leads (s : MpmcEagerWaiter n π) (p : π) (place : ProducerAt) : MpmcEagerWaiter n π :=
  { s with producer := Function.update s.producer p place }

def publish (s : MpmcEagerWaiter n π) (p : π) : MpmcEagerWaiter n π :=
  if s.producer p = .idle then
    { s with queue := s.queue ++ [s.published], published := s.published + 1 }.leads p (.notify s.published)
  else s

def producerStep (s : MpmcEagerWaiter n π) (p : π) : MpmcEagerWaiter n π :=
  match s.producer p with
  | .idle => s
  | .notify item => if s.state = awake then s.leads p .idle else s.leads p (.cold item)
  | .cold item =>
    if isAsleep s.state then { s with state := awake }.leads p (.wakeAll item)
    else { s with state := awake }.leads p .idle
  | .wakeAll _ => s.notifyAll.leads p .idle

def step (s : MpmcEagerWaiter n π) : Event n π → MpmcEagerWaiter n π
  | .worker w pick => s.workerStep w pick
  | .wake w => s.wake w
  | .publish p => s.publish p
  | .producer p => s.producerStep p

def machine (n : ℕ) (π : Type) [DecidableEq π] : Lib.Machine (MpmcEagerWaiter n π) (Event n π) Unit :=
  ⟨fun s event => some (s.step event, ())⟩

def start (n : ℕ) (π : Type) : MpmcEagerWaiter n π := {}

/-- `notify` has returned for a published item that nobody has claimed. -/
def Notified (s : MpmcEagerWaiter n π) (item : ℕ) : Prop :=
  item ∈ s.queue ∧ ∀ p, s.producer p ≠ .notify item ∧ s.producer p ≠ .cold item ∧ s.producer p ≠ .wakeAll item

/-- Some thread is about to call `notify_all`. -/
def Pending (s : MpmcEagerWaiter n π) : Prop :=
  (∃ w, s.worker w = .wakeAll) ∨ ∃ p item, s.producer p = .wakeAll item

/-- Everybody is asleep, and an item is waiting. -/
def Lost (s : MpmcEagerWaiter n π) : Prop :=
  (∃ item, Notified s item) ∧ (∀ w, s.worker w = .blocked) ∧ ¬Pending s

end MpmcEagerWaiter

end TdUtils
