import Mathlib.Algebra.BigOperators.Group.Finset.Basic
import Mathlib.Data.Int.Basic
import Mathlib.Data.Multiset.AddSub
import TdUtils.Lib.Machine

/-!
# Concurrent.StealingQueue — ring buffers of which only the owner puts, and the others steal

Values are copied first and then claimed by a compare-exchange on the head.  Each event of a running call is one
operation on an atomic; the counters are the numbers that are in the `int64`s, as long as these do not overflow.
-/

namespace TdUtils

structure StealingQueue (α : Type) where
  head : ℕ := 0
  tail : ℕ := 0
  buf : ℕ → α

namespace StealingQueue

/-- The next operation of an owner.  `push`, `pop` and `steal` load its own tail and `pushHead`, `popHead` and
`stealHead` its own head; `n` in `last` is what was claimed, and in `stealPublish` what of it stays in the queue. -/
inductive Place (ι α : Type) where
  | idle
  | push (value : α)
  | pushHead (value : α) (tail : ℕ)
  | store (value : α) (tail : ℕ)
  | publish (value : α) (tail : ℕ)
  | overflow (value : α) (head : ℕ)
  | spill (value : α) (head i : ℕ)
  | spillValue (value : α)
  | pop
  | popHead (tail : ℕ)
  | popLoad (head : ℕ)
  | popExchange (head : ℕ) (value : α)
  | steal (other : ι)
  | stealHead (other : ι) (tail : ℕ)
  | otherHead (other : ι) (tail head : ℕ)
  | otherTail (other : ι) (tail head otherHead : ℕ)
  | copyLoad (other : ι) (tail otherHead n i : ℕ)
  | copyStore (other : ι) (tail otherHead n i : ℕ) (value : α)
  | stealExchange (other : ι) (tail otherHead n : ℕ)
  | last (tail n : ℕ)
  | stealPublish (tail n : ℕ) (value : α)

structure System (ι α : Type) where
  queues : ι → StealingQueue α
  place : ι → Place ι α := fun _ => .idle

inductive Event (ι α : Type) where
  | localPush (i : ι) (value : α)
  | localPop (i : ι)
  | steal (i other : ι)
  | owner (i : ι)

/-- `entered` and `stole` also answer with what is in the queue from then on. -/
inductive Answer (ι α : Type) where
  | nothing
  | entered (i : ι) (value : α)
  | overflowed (value : α)
  | popped (i : ι) (value : α)
  | stole (i : ι) (value : α) (moved : List α)
  | failed

variable {ι α : Type}

/-- `k & MASK`. -/
def slot (p k : ℕ) : ℕ := k &&& (2 ^ p - 1)

/-- `static_cast<size_t>` of a difference of counters. -/
def size (n : ℤ) : ℕ := (n % 2 ^ 64).toNat

/-- What is in `n` slots. -/
def slots (p : ℕ) (q : StealingQueue α) (k n : ℕ) : List α := (List.range' k n).map fun j => q.buf (slot p j)

/-- How many values `local_push` takes out of a full queue. -/
def overflowSize (p : ℕ) : ℕ := 2 ^ p / 2 + 1

/-- How many values `steal` tries to claim, when it does not look again. -/
def stealSize (p tail head otherHead otherTail : ℕ) : ℕ :=
  min (otherTail - otherHead - (otherTail - otherHead) / 2) (size (head + (2 ^ p : ℕ) - tail))

variable [DecidableEq ι]

def goes (s : System ι α) (i : ι) (place : Place ι α) : System ι α :=
  { s with place := Function.update s.place i place }

def onQueue (s : System ι α) (i : ι) (q : StealingQueue α) : System ι α :=
  { s with queues := Function.update s.queues i q }

/-- The owner stores into its own buffer. -/
def stores (p : ℕ) (s : System ι α) (i : ι) (k : ℕ) (value : α) : System ι α :=
  onQueue s i { s.queues i with buf := Function.update (s.queues i).buf (slot p k) value }

/-- One operation of an owner. -/
def ownerStep (p : ℕ) (s : System ι α) (i : ι) : System ι α × Answer ι α :=
  match s.place i with
  | .idle => (s, .nothing)
  | .push value => (goes s i (.pushHead value (s.queues i).tail), .nothing)
  | .pushHead value tail =>
    if size (tail - (s.queues i).head) < 2 ^ p then (goes s i (.store value tail), .nothing)
    else (goes s i (.overflow value (s.queues i).head), .nothing)
  | .store value tail => (goes (stores p s i tail value) i (.publish value tail), .nothing)
  | .publish value tail => (goes (onQueue s i { s.queues i with tail := tail + 1 }) i .idle, .entered i value)
  | .overflow value head =>
    if (s.queues i).head = head then
      (goes (onQueue s i { s.queues i with head := head + overflowSize p }) i (.spill value head 0), .nothing)
    else (goes s i (.push value), .nothing)
  | .spill value head j =>
    if j + 1 < overflowSize p then
      (goes s i (.spill value head (j + 1)), .overflowed ((s.queues i).buf (slot p (j + head))))
    else (goes s i (.spillValue value), .overflowed ((s.queues i).buf (slot p (j + head))))
  | .spillValue value => (goes s i .idle, .overflowed value)
  | .pop => (goes s i (.popHead (s.queues i).tail), .nothing)
  | .popHead tail =>
    if (s.queues i).head = tail then (goes s i .idle, .failed)
    else (goes s i (.popLoad (s.queues i).head), .nothing)
  | .popLoad head => (goes s i (.popExchange head ((s.queues i).buf (slot p head))), .nothing)
  | .popExchange head value =>
    if (s.queues i).head = head then
      (goes (onQueue s i { s.queues i with head := head + 1 }) i .idle, .popped i value)
    else (goes s i .idle, .failed)
  | .steal other => (goes s i (.stealHead other (s.queues i).tail), .nothing)
  | .stealHead other tail => (goes s i (.otherHead other tail (s.queues i).head), .nothing)
  | .otherHead other tail head => (goes s i (.otherTail other tail head (s.queues other).head), .nothing)
  | .otherTail other tail head otherHead =>
    if (s.queues other).tail < otherHead then (goes s i (.steal other), .nothing)
    else if 2 ^ p < (s.queues other).tail - otherHead then (goes s i (.steal other), .nothing)
    else if stealSize p tail head otherHead (s.queues other).tail = 0 then (goes s i .idle, .failed)
    else
      (goes s i (.copyLoad other tail otherHead (stealSize p tail head otherHead (s.queues other).tail) 0), .nothing)
  | .copyLoad other tail otherHead n j =>
    (goes s i (.copyStore other tail otherHead n j ((s.queues other).buf (slot p (j + otherHead)))), .nothing)
  | .copyStore other tail otherHead n j value =>
    if j + 1 < n then (goes (stores p s i (j + tail) value) i (.copyLoad other tail otherHead n (j + 1)), .nothing)
    else (goes (stores p s i (j + tail) value) i (.stealExchange other tail otherHead n), .nothing)
  | .stealExchange other tail otherHead n =>
    if (s.queues other).head = otherHead then
      (goes (onQueue s other { s.queues other with head := otherHead + n }) i (.last tail n), .nothing)
    else (goes s i (.steal other), .nothing)
  | .last tail n =>
    (goes s i (.stealPublish tail (n - 1) ((s.queues i).buf (slot p (tail + (n - 1))))), .nothing)
  | .stealPublish tail n value =>
    (goes (onQueue s i { s.queues i with tail := tail + n }) i .idle, .stole i value (slots p (s.queues i) tail n))

/-- An owner that is in a call goes on with it; nobody steals from itself. -/
def step (p : ℕ) (s : System ι α) : Event ι α → System ι α × Answer ι α
  | .localPush i value => match s.place i with
    | .idle => (goes s i (.push value), .nothing)
    | _ => (s, .nothing)
  | .localPop i => match s.place i with
    | .idle => (goes s i .pop, .nothing)
    | _ => (s, .nothing)
  | .steal i other => match s.place i with
    | .idle => if other = i then (s, .nothing) else (goes s i (.steal other), .nothing)
    | _ => (s, .nothing)
  | .owner i => ownerStep p s i

def machine (p : ℕ) (ι α : Type) [DecidableEq ι] : Lib.Machine (System ι α) (Event ι α) (Answer ι α) :=
  ⟨fun s event => some (step p s event)⟩

def start (ι α : Type) [Inhabited α] : System ι α where
  queues := fun _ => { buf := fun _ => default }

/-! ### What was pushed and answered, and what is where -/

/-- A call of `local_push` begins. -/
def Event.pushed (s : System ι α) : Event ι α → List α
  | .localPush i value => match s.place i with
    | .idle => [value]
    | _ => []
  | _ => []

/-- The values of all calls of `local_push`. -/
def pushed (p : ℕ) : System ι α → List (Event ι α) → List α
  | _, [] => []
  | s, event :: events => event.pushed s ++ pushed p (step p s event).1 events

/-- The result of a pop or of a steal, or an argument of the overflow callback. -/
def Answer.delivered : Answer ι α → List α
  | .overflowed value => [value]
  | .popped _ value => [value]
  | .stole _ value _ => [value]
  | _ => []

def Answer.enteredIn (i : ι) : Answer ι α → List α
  | .entered j value => if j = i then [value] else []
  | .stole j _ moved => if j = i then moved else []
  | _ => []

def Answer.poppedFrom (i : ι) : Answer ι α → List α
  | .popped j value => if j = i then [value] else []
  | _ => []

def stored (p : ℕ) (q : StealingQueue α) : Multiset α := slots p q q.head (q.tail - q.head)

/-- What an owner has to put into its queue, to deliver or to give to the callback before its call ends. -/
def inHand (p : ℕ) (q : StealingQueue α) : Place ι α → List α
  | .push value | .pushHead value _ | .store value _ | .publish value _ | .overflow value _ => [value]
  | .spill value head j => slots p q (head + j) (overflowSize p - j) ++ [value]
  | .spillValue value => [value]
  | .last tail n => slots p q tail n
  | .stealPublish tail n value => slots p q tail n ++ [value]
  | _ => []

def held [Fintype ι] (p : ℕ) (s : System ι α) : Multiset α :=
  ∑ i, (stored p (s.queues i) + (inHand p (s.queues i) (s.place i) : Multiset α))

end StealingQueue

end TdUtils
