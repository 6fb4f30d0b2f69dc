import Mathlib.Algebra.BigOperators.Fin
import Mathlib.Data.Multiset.Basic
import TdUtils.Concurrent.HazardPointers

/-!
# Concurrent.MpmcQueue — many threads push into and pop from a list of blocks

A node is named by the number of its allocation.  Each event of a running call is one operation on an atomic; `none` is
an access to a node that was deleted.
-/

namespace TdUtils

namespace MpmcQueue

def blockSize : ℕ := 1024

/-- `OneValue`. -/
inductive Cell (α : Type) where
  | empty
  | taken
  | value (value : α)
deriving DecidableEq

structure Node (α : Type) where
  writePos : ℕ := 0
  readPos : ℕ := 0
  data : List (Cell α) := List.replicate blockSize .empty
  next : Option ℕ := none
deriving DecidableEq

inductive Pointer where
  | writePos
  | readPos
deriving DecidableEq

inductive Call (α : Type) where
  | push (value : α)
  | pop
deriving DecidableEq

/-- Before which operation a thread is: between two calls, before `protect` or in it, in `push`, in `try_pop`, in
`retire`, from which it goes on to pop or returns, or before the `clear` at the end. -/
inductive Place (α : Type) where
  | idle
  | protect (call : Call α)
  | protecting (call : Call α)
  | claim (node : ℕ) (value : α)
  | next (node : ℕ) (value : α)
  | link (node newNode : ℕ) (value : α)
  | publish (node newNode : ℕ)
  | help (node next : ℕ) (value : α)
  | set (node pos : ℕ) (value : α)
  | compare (node : ℕ)
  | compareRead (node writePos : ℕ)
  | compareWrite (node readPos : ℕ)
  | last (node : ℕ)
  | claimRead (node : ℕ)
  | nextRead (node : ℕ)
  | moveRead (node next : ℕ)
  | unprotect (node : ℕ)
  | retire (node : ℕ)
  | scan (popping : Bool)
  | get (node pos : ℕ)
  | leave
deriving DecidableEq

end MpmcQueue

open MpmcQueue in
/-- `write_pos_` and `read_pos_` are the shared pointers of the hazard pointers. -/
structure MpmcQueue (n : ℕ) (α : Type) where
  nodes : List (Node α) := [{}]
  deleted : List ℕ := []
  hazardPointers : HazardPointers n 1 Pointer ℕ := { shared := fun _ => some 0 }
  place : Fin n → Place α := fun _ => .idle

namespace MpmcQueue

/-- The two loads of the comparison in `try_pop` come in either order. -/
inductive Event (n : ℕ) (α : Type) where
  | push (i : Fin n) (value : α)
  | tryPop (i : Fin n)
  | gc (i : Fin n)
  | thread (i : Fin n) (readFirst : Bool)
deriving DecidableEq

inductive Answer (α : Type) where
  | nothing
  | popped (value : α)
deriving DecidableEq

variable {n : ℕ} {α : Type}

/-! ### Cells and nodes -/

namespace Node

def setValue (node : Node α) (pos : ℕ) (value : α) : Node α × Bool :=
  match node.data[pos]? with
  | some .empty => ({ node with data := node.data.set pos (.value value) }, true)
  | _ => (node, false)

def getValue (node : Node α) (pos : ℕ) : Node α × Option α :=
  ({ node with data := node.data.set pos .taken },
    match node.data[pos]? with
    | some (.value value) => some value
    | _ => none)

end Node

/-- `new Node{}`, with the value in its first cell. -/
def newNode (value : α) : Node α := (({ writePos := 1 } : Node α).setValue 0 value).1

/-- An access. -/
def node (s : MpmcQueue n α) (a : ℕ) : Option (Node α) := if a ∈ s.deleted then none else s.nodes[a]?

def setNode (s : MpmcQueue n α) (a : ℕ) (node : Node α) : MpmcQueue n α := { s with nodes := s.nodes.set a node }

def alloc (s : MpmcQueue n α) (node : Node α) : MpmcQueue n α := { s with nodes := s.nodes ++ [node] }

def delete (s : MpmcQueue n α) (a : ℕ) : MpmcQueue n α := { s with deleted := a :: s.deleted }

def goes (s : MpmcQueue n α) (i : Fin n) (place : Place α) : MpmcQueue n α :=
  { s with place := Function.update s.place i place }

/-- A step of the hazard pointers. -/
def hazard (s : MpmcQueue n α) (event : HazardPointers.Event n 1 Pointer ℕ) :
    MpmcQueue n α × HazardPointers.Answer n 1 ℕ :=
  ({ s with hazardPointers := (s.hazardPointers.step event).1 }, (s.hazardPointers.step event).2)

def compareExchange (s : MpmcQueue n α) (ptr : Pointer) (expected desired : ℕ) : MpmcQueue n α × Bool :=
  if s.hazardPointers.shared ptr = some expected then ((s.hazard (.exchange ptr (some desired))).1, true)
  else (s, false)

/-! ### The calls -/

def Call.pointer : Call α → Pointer
  | .push _ => .writePos
  | .pop => .readPos

/-- The first operation on a node that was obtained from `protect`. -/
def Call.first (a : ℕ) : Call α → Place α
  | .push value => .claim a value
  | .pop => .compare a

def protectStep (s : MpmcQueue n α) (i : Fin n) (call : Call α) : MpmcQueue n α :=
  match s.hazard (.thread i) with
  | (s, .obtained _ _ a) => s.goes i (call.first a)
  | (s, _) => s

/-- `is_protected` for one slot, or a deletion, or the end of `retire`. -/
def scanStep (s : MpmcQueue n α) (i : Fin n) (popping : Bool) : MpmcQueue n α :=
  match s.hazard (.thread i) with
  | (s, .deleted a) => s.delete a
  | (s, _) =>
    match s.hazardPointers.place i with
    | .idle => s.goes i (if popping then .protect .pop else .idle)
    | _ => s

/-- The new node is linked, or is deleted again and the value taken back. -/
def linkStep (s : MpmcQueue n α) (i : Fin n) (a b : ℕ) (value : α) (node : Node α) : Option (MpmcQueue n α) :=
  match node.next with
  | none => some ((s.setNode a { node with next := some b }).goes i (.publish a b))
  | some _ => (s.node b).map fun new =>
    ((s.setNode b (new.getValue 0).1).delete b).goes i (.protect (.push ((new.getValue 0).2.getD value)))

/-- A value is put into a cell, or the next one is tried. -/
def setStep (s : MpmcQueue n α) (i : Fin n) (a pos : ℕ) (value : α) (node : Node α) : MpmcQueue n α :=
  match node.setValue pos value with
  | (node, true) => (s.setNode a node).goes i .leave
  | (_, false) => s.goes i (.protect (.push value))

def getStep (s : MpmcQueue n α) (i : Fin n) (a pos : ℕ) (node : Node α) : MpmcQueue n α × Answer α :=
  match node.getValue pos with
  | (node, some value) => ((s.setNode a node).goes i .leave, .popped value)
  | (node, none) => ((s.setNode a node).goes i (.protect .pop), .nothing)

/-- The next operation on the node that the thread has protected. -/
def nodeStep (s : MpmcQueue n α) (i : Fin n) (readFirst : Bool) (node : Node α) :
    Place α → Option (MpmcQueue n α × Answer α)
  | .claim a value =>
    some ((s.setNode a { node with writePos := node.writePos + 1 }).goes i
      (if blockSize ≤ node.writePos then .next a value else .set a node.writePos value), .nothing)
  | .next a value =>
    match node.next with
    | none => some ((s.alloc (newNode value)).goes i (.link a s.nodes.length value), .nothing)
    | some b => some (s.goes i (.help a b value), .nothing)
  | .link a b value => (s.linkStep i a b value node).map fun s => (s, .nothing)
  | .set a pos value => some (s.setStep i a pos value node, .nothing)
  | .compare a =>
    some (s.goes i (if readFirst then .compareWrite a node.readPos else .compareRead a node.writePos), .nothing)
  | .compareRead a writePos => some (s.goes i (if writePos ≤ node.readPos then .last a else .claimRead a), .nothing)
  | .compareWrite a readPos => some (s.goes i (if node.writePos ≤ readPos then .last a else .claimRead a), .nothing)
  | .last a => some (s.goes i (if node.next = none then .leave else .claimRead a), .nothing)
  | .claimRead a =>
    some ((s.setNode a { node with readPos := node.readPos + 1 }).goes i
      (if blockSize ≤ node.readPos then .nextRead a else .get a node.readPos), .nothing)
  | .nextRead a =>
    match node.next with
    | none => some (s.goes i .leave, .nothing)
    | some b => some (s.goes i (.moveRead a b), .nothing)
  | .get a pos => some (s.getStep i a pos node)
  | _ => none

/-- The node that the next operation is on. -/
def Place.node : Place α → Option ℕ
  | .claim a _ | .next a _ | .link a _ _ | .set a _ _ | .compare a | .compareRead a _ | .compareWrite a _ | .last a
  | .claimRead a | .nextRead a | .get a _ => some a
  | _ => none

def threadStep (s : MpmcQueue n α) (i : Fin n) (readFirst : Bool) : Option (MpmcQueue n α × Answer α) :=
  match s.place i with
  | .idle => some (s, .nothing)
  | .protect call => some ((s.hazard (.protect i 0 call.pointer)).1.goes i (.protecting call), .nothing)
  | .protecting call => some (s.protectStep i call, .nothing)
  | .publish a b => some ((s.compareExchange .writePos a b).1.goes i .leave, .nothing)
  | .help a b value => some ((s.compareExchange .writePos a b).1.goes i (.protect (.push value)), .nothing)
  | .moveRead a b =>
    match s.compareExchange .readPos a b with
    | (s, true) => some (s.goes i (.unprotect a), .nothing)
    | (s, false) => some (s.goes i (.protect .pop), .nothing)
  | .unprotect a => some ((s.hazard (.clear i 0)).1.goes i (.retire a), .nothing)
  | .retire a => some ((s.hazard (.retire i (some a))).1.goes i (.scan true), .nothing)
  | .scan popping => some (s.scanStep i popping, .nothing)
  | .leave => some ((s.hazard (.clear i 0)).1.goes i .idle, .nothing)
  | place => place.node.bind fun a => (s.node a).bind fun node => s.nodeStep i readFirst node place

/-- A thread that is in a call goes on with it. -/
def step (s : MpmcQueue n α) : Event n α → Option (MpmcQueue n α × Answer α)
  | .push i value => match s.place i with
    | .idle => some (s.goes i (.protect (.push value)), .nothing)
    | _ => some (s, .nothing)
  | .tryPop i => match s.place i with
    | .idle => some (s.goes i (.protect .pop), .nothing)
    | _ => some (s, .nothing)
  | .gc i => match s.place i with
    | .idle => some ((s.hazard (.retire i none)).1.goes i (.scan false), .nothing)
    | _ => some (s, .nothing)
  | .thread i readFirst => s.threadStep i readFirst

def machine (n : ℕ) (α : Type) : Lib.Machine (MpmcQueue n α) (Event n α) (Answer α) := ⟨step⟩

/-- Where the thread is in the hazard pointers. -/
def InStep (place : HazardPointers.Place n 1 Pointer ℕ) : Place α → Prop
  | .protecting call => (∃ saved, place = .load 0 call.pointer saved) ∨ ∃ toSave, place = .store 0 call.pointer toSave
  | .scan _ => ∃ it slots, place = .scan it slots
  | _ => place = .idle

/-! ### Where the values are -/

def Cell.held : Cell α → Multiset α
  | .value x => {x}
  | _ => 0

def Node.held (node : Node α) : Multiset α := (node.data.map Cell.held).sum

/-- The value that a call to `push` has in its hand; a value in a node that is not linked yet is in the node. -/
def Place.held : Place α → Multiset α
  | .protect (.push value) | .protecting (.push value) | .claim _ value | .next _ value | .help _ _ value
  | .set _ _ value => {value}
  | _ => 0

def stored (s : MpmcQueue n α) : Multiset α := (s.nodes.map Node.held).sum

def inHand (s : MpmcQueue n α) : Multiset α := ∑ i, (s.place i).held

/-- A call to `push` begins. -/
def Event.pushed (s : MpmcQueue n α) : Event n α → Multiset α
  | .push i value => match s.place i with
    | .idle => {value}
    | _ => 0
  | _ => 0

/-- The values of all calls to `push`. -/
def pushed : MpmcQueue n α → List (Event n α) → Multiset α
  | _, [] => 0
  | s, event :: events =>
    match s.step event with
    | some (t, _) => event.pushed s + pushed t events
    | none => event.pushed s

def Answer.out : Answer α → Multiset α
  | .popped value => {value}
  | _ => 0

/-- Each node is the next one of the node before, from `read_pos_` on. -/
def Ahead (s : MpmcQueue n α) (b : ℕ) : Prop :=
  ∃ a, s.hazardPointers.shared .readPos = some a ∧
    Relation.ReflTransGen (fun a b => ∃ node, s.nodes[a]? = some node ∧ node.next = some b) a b

/-- A value in a cell is still to come, a call to `try_pop` has claimed the cell, or the node is not linked yet. -/
def Deliverable (s : MpmcQueue n α) (a pos : ℕ) (node : Node α) : Prop :=
  (node.readPos ≤ pos ∧ s.Ahead a) ∨ (∃ i, s.place i = .get a pos) ∨ ∃ i c value, s.place i = .link c a value

/-- `read_pos_` is moved off a node when `write_pos_` does not point to it any more. -/
def Advanced (s : MpmcQueue n α) : Event n α → Prop
  | .thread i _ => ∀ a b, s.place i = .moveRead a b → s.hazardPointers.shared .readPos = some a →
    s.hazardPointers.shared .writePos ≠ some a
  | _ => True

end MpmcQueue

end TdUtils
