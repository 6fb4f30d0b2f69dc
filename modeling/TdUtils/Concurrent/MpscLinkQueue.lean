import Mathlib.Logic.Function.Basic
import TdUtils.Lib.Machine

/-!
# Concurrent.MpscLinkQueue — an intrusive stack that a reader drains, and the list of the reader

Each event is one atomic operation, or one round of a loop of the reader, on its own memory.  A thread that
is asked to do what it cannot do at that moment does nothing; `none` is a null pointer that is followed.
-/

namespace TdUtils

namespace MpscLinkQueue

/-- A pusher is between two calls, or at the compare-exchange with `node->next_` as the expected head. -/
inductive PusherAt (ν : Type) where
  | idle
  | exchange (node : ν)
deriving DecidableEq

/-- The reader is between two calls, in the loop of `add`, or in the loop of `calc_size`. -/
inductive ReaderAt (ν : Type) where
  | idle
  | reverse (node head : Option ν) (tail : ν)
  | count (it : Option ν) (res : ℕ)
deriving DecidableEq

end MpscLinkQueue

open MpscLinkQueue in
/-- `next` is `next_` of every node; `head` belongs to the queue, `readerHead` and `readerTail` to its
reader. -/
structure MpscLinkQueue (ι ν : Type) where
  next : ν → Option ν := fun _ => none
  head : Option ν := none
  readerHead : Option ν := none
  readerTail : Option ν := none
  pusher : ι → PusherAt ν := fun _ => .idle
  reader : ReaderAt ν := .idle

namespace MpscLinkQueue

inductive Event (ι ν : Type) where
  | push (i : ι) (node : ν)
  | exchange (i : ι)
  | popAll
  | read
  | delay (node : ν)
  | calcSize
  | step
deriving DecidableEq

inductive Answer (ν : Type) where
  | nothing
  | started
  | pushed (node : ν)
  | popped
  | read (node : Option ν)
  | delayed
  | size (n : ℕ)
deriving DecidableEq

variable {ι ν : Type} [DecidableEq ι] [DecidableEq ν]

/-- `compare_exchange_strong` of a pusher; it stores the head it found into `node->next_`. -/
def exchange (s : MpscLinkQueue ι ν) (i : ι) (node : ν) : MpscLinkQueue ι ν × Answer ν :=
  if s.head = s.next node then
    ({ s with head := some node, pusher := Function.update s.pusher i .idle }, .pushed node)
  else ({ s with next := Function.update s.next node s.head }, .nothing)

/-- The end of `add`. -/
def attach (s : MpscLinkQueue ι ν) (head : Option ν) (tail : ν) : Option (MpscLinkQueue ι ν) :=
  match s.readerHead with
  | none => some { s with readerHead := head, readerTail := some tail, reader := .idle }
  | some _ =>
    s.readerTail.map fun oldTail =>
      { s with next := Function.update s.next oldTail head, readerTail := some tail, reader := .idle }

def delay (s : MpscLinkQueue ι ν) (node : ν) : MpscLinkQueue ι ν :=
  { s with
    next := Function.update s.next node s.readerHead
    readerTail := if s.readerHead.isNone then some node else s.readerTail
    readerHead := some node }

/-- A call that the reader makes when it is in no other. -/
def call (s : MpscLinkQueue ι ν) : Event ι ν → MpscLinkQueue ι ν × Answer ν
  | .popAll =>
    match s.head with
    | none => (s, .popped)
    | some node => ({ s with head := none, reader := .reverse (some node) none node }, .popped)
  | .read =>
    match s.readerHead with
    | none => (s, .read none)
    | some node => ({ s with readerHead := s.next node }, .read (some node))
  | .delay node => (s.delay node, .delayed)
  | .calcSize => ({ s with reader := .count s.readerHead 0 }, .started)
  | _ => (s, .nothing)

/-- A round of the loop the reader is in. -/
def round (s : MpscLinkQueue ι ν) : Option (MpscLinkQueue ι ν × Answer ν) :=
  match s.reader with
  | .idle => some (s, .nothing)
  | .reverse none head tail => (s.attach head tail).map fun t => (t, .nothing)
  | .reverse (some node) head tail =>
    some ({ s with
      next := Function.update s.next node head
      reader := .reverse (s.next node) (some node) tail }, .nothing)
  | .count none res => some ({ s with reader := .idle }, .size res)
  | .count (some node) res => some ({ s with reader := .count (s.next node) (res + 1) }, .nothing)

def step (s : MpscLinkQueue ι ν) : Event ι ν → Option (MpscLinkQueue ι ν × Answer ν)
  | .push i node =>
    match s.pusher i with
    | .idle =>
      some ({ s with
        next := Function.update s.next node s.head
        pusher := Function.update s.pusher i (.exchange node) }, .started)
    | .exchange _ => some (s, .nothing)
  | .exchange i =>
    match s.pusher i with
    | .idle => some (s, .nothing)
    | .exchange node => some (s.exchange i node)
  | .step => s.round
  | event =>
    match s.reader with
    | .idle => some (s.call event)
    | _ => some (s, .nothing)

def machine (ι ν : Type) [DecidableEq ι] [DecidableEq ν] :
    Lib.Machine (MpscLinkQueue ι ν) (Event ι ν) (Answer ν) := ⟨step⟩

def start (ι ν : Type) : MpscLinkQueue ι ν := {}

/-! ### The deque -/

/-- What was pushed and not popped, in the order of the pushes, and the deque of the reader. -/
structure Deque (ν : Type) where
  pending : List ν
  nodes : List ν

/-- What an answered event does to the deque. -/
inductive Change : Deque ν → Event ι ν × Answer ν → Deque ν → Prop where
  | nothing (d : Deque ν) (event : Event ι ν) : Change d (event, .nothing) d
  | started (d : Deque ν) (event : Event ι ν) : Change d (event, .started) d
  | pushed (d : Deque ν) (i : ι) (node : ν) :
    Change d (.exchange i, .pushed node) { d with pending := d.pending ++ [node] }
  | popped (d : Deque ν) : Change d (.popAll, .popped) ⟨[], d.nodes ++ d.pending⟩
  | read (d : Deque ν) : Change d (.read, .read d.nodes.head?) { d with nodes := d.nodes.tail }
  | delayed (d : Deque ν) (node : ν) : Change d (.delay node, .delayed) { d with nodes := node :: d.nodes }
  | size (d : Deque ν) : Change d (.step, .size d.nodes.length) d

/-- The calls that are running: the node that each pusher pushes with the pending nodes it saw last, and the rounds
that are left of the loop of the reader, which is that of `calc_size` when `counting`. -/
structure Calls (ι ν : Type) where
  pushing : ι → Option (ν × List ν) := fun _ => none
  rounds : ℕ := 0
  counting : Bool := false

/-- The one who is asked is in another call, or in none. -/
def Calls.Waits (k : Calls ι ν) : Event ι ν → Prop
  | .push i _ => k.pushing i ≠ none
  | .exchange i => k.pushing i = none
  | .step => k.rounds = 0
  | .popAll | .read | .delay _ | .calcSize => k.rounds ≠ 0

/-- How the running calls go on: a pusher starts over only when the pending nodes are not those it saw, and a call of
the reader takes one round for each node of its loop, and one to leave it. -/
inductive Calls.Answered (d : Deque ν) (k : Calls ι ν) : Event ι ν × Answer ν → Calls ι ν → Prop where
  | waits (event : Event ι ν) (h : k.Waits event) : Answered d k (event, .nothing) k
  | push (i : ι) (node : ν) (h : k.pushing i = none) : Answered d k (.push i node, .started)
    { k with pushing := Function.update k.pushing i (some (node, d.pending)) }
  | pushed (i : ι) (node : ν) (seen : List ν) (h : k.pushing i = some (node, seen)) :
    Answered d k (.exchange i, .pushed node) { k with pushing := Function.update k.pushing i none }
  | disturbed (i : ι) (node : ν) (seen : List ν) (h : k.pushing i = some (node, seen)) (hseen : d.pending ≠ seen) :
    Answered d k (.exchange i, .nothing)
      { k with pushing := Function.update k.pushing i (some (node, d.pending)) }
  | popAll (h : k.rounds = 0) : Answered d k (.popAll, .popped)
    { k with rounds := if d.pending.isEmpty then 0 else d.pending.length + 1, counting := false }
  | read (node : Option ν) (h : k.rounds = 0) : Answered d k (.read, .read node) k
  | delay (node : ν) (h : k.rounds = 0) : Answered d k (.delay node, .delayed) k
  | calcSize (h : k.rounds = 0) : Answered d k (.calcSize, .started)
    { k with rounds := d.nodes.length + 1, counting := true }
  | round (m : ℕ) (h : k.rounds = m + 1) (hcounting : k.counting = true → m ≠ 0) :
    Answered d k (.step, .nothing) { k with rounds := m }
  | size (n : ℕ) (h : k.rounds = 1) (hcounting : k.counting = true) :
    Answered d k (.step, .size n) { k with rounds := 0 }

/-- The deque and the running calls after a history. -/
inductive Follows : List (Event ι ν × Answer ν) → Deque ν → Calls ι ν → Prop where
  | nil : Follows [] ⟨[], []⟩ {}
  | concat {history : List (Event ι ν × Answer ν)} {d d' : Deque ν} {k k' : Calls ι ν} {e : Event ι ν × Answer ν}
    (h : Follows history d k) (he : Change d e d') (hk : k.Answered d e k') : Follows (history ++ [e]) d' k'

def holds (node : ν) (h : Bool) : Event ι ν × Answer ν → Bool
  | (.push _ n, .started) | (.delay n, .delayed) => if n = node then true else h
  | (.read, .read (some n)) => if n = node then false else h
  | _ => h

/-- The node was pushed or delayed, and not read since. -/
def held (node : ν) (history : List (Event ι ν × Answer ν)) : Bool := history.foldl (holds node) false

/-- A node is not pushed or delayed before it has been read. -/
def Fresh (past : List (Event ι ν × Answer ν)) : Event ι ν → Prop
  | .push _ node | .delay node => held node past = false
  | _ => True

/-- The nodes that were put into the queue or the deque. -/
def entered (history : List (Event ι ν × Answer ν)) : List ν :=
  history.filterMap fun
    | (.exchange _, .pushed node) | (.delay node, .delayed) => some node
    | _ => none

/-- The nodes that were read. -/
def left (history : List (Event ι ν × Answer ν)) : List ν :=
  history.filterMap fun
    | (.read, .read node) => node
    | _ => none

end MpscLinkQueue

end TdUtils
