import Mathlib.Logic.Function.Basic
import TdUtils.Flow.ByteFlow
import TdUtils.Lib.Machine

/-!
# Flow.ByteFlowChain — a source, `n` flows and a sink that call each other

Flow `k` calls what comes after it, another flow or the sink, and is on the stack of calls while that runs.  What
a flow does in `loop` is left open.  `none` is a failed check.
-/

namespace TdUtils

namespace ByteFlowChain

open ByteFlow

/-- What is left to do of a call: all of it, the loop of `wakeup` from its check on, the rest of `loop`, or what
`finish` does after its call. -/
inductive Call where
  | closeInput (k : ℕ) (status : Status)
  | wakeup (k : ℕ)
  | check (k : ℕ)
  | loop (k : ℕ)
  | onOutputUpdated (k : ℕ)
  | finish (k : ℕ) (status : Status)
  | closed (k : ℕ)
deriving DecidableEq

/-- The input of a flow, or the buffer of the sink; `ahead` is there for the next `sync_with_writer`. -/
structure Input where
  size : ℕ := 0
  ahead : ℕ := 0
deriving DecidableEq

end ByteFlowChain

open ByteFlowChain ByteFlow in
/-- `source` is whether the `parent_` of the source is set, which nobody reads during its call; `input n` belongs
to the sink. -/
structure ByteFlowChain (n : ℕ) where
  source : Bool := true
  flow : ℕ → Base
  input : ℕ → Input := fun _ => {}
  sink : ByteFlowSink := ⟨true, .ok⟩
  calls : List Call := []

namespace ByteFlowChain

open ByteFlow

/-- What a flow can do in `loop`. -/
inductive Action where
  | consume (size : ℕ)
  | produce (size : ℕ)
  | setNeedSize (needSize : ℕ)
  | finish (status : Status)
  | consumeInput
  | return (result : Bool)
deriving DecidableEq

/-- What the owner of the source does, and the steps of a call. -/
inductive Event where
  | write (size : ℕ)
  | wakeup
  | closeInput (status : Status)
  | act (action : Action)
  | go
deriving DecidableEq

/-- `checks` calls `get_read_size` of the parent, and says whether `loop` is entered; `wakes` calls its `wakeup`;
`finishes` calls its `close_input`, when `parent_` is still set. -/
inductive Answer where
  | nothing
  | checks (k : ℕ) (enters : Bool)
  | wakes (k : ℕ)
  | finishes (k : ℕ) (status : Status) (closes : Bool)
  | sourceCloses (status : Status)
deriving DecidableEq

variable {n : ℕ}

def onFlow (s : ByteFlowChain n) (k : ℕ) (f : Base → Base) : ByteFlowChain n :=
  { s with flow := Function.update s.flow k (f (s.flow k)) }

def onInput (s : ByteFlowChain n) (k : ℕ) (f : Input → Input) : ByteFlowChain n :=
  { s with input := Function.update s.input k (f (s.input k)) }

def syncWithWriter (s : ByteFlowChain n) (k : ℕ) : ByteFlowChain n :=
  s.onInput k fun input => ⟨input.size + input.ahead, 0⟩

def calling (s : ByteFlowChain n) (call : Call) : ByteFlowChain n := { s with calls := call :: s.calls }

def returning (s : ByteFlowChain n) (calls : List Call) : ByteFlowChain n := { s with calls := calls }

/-- Call `wakeup` of flow `k`, or of the sink. -/
def wakeupAt (s : ByteFlowChain n) (k : ℕ) : ByteFlowChain n :=
  if k < n then s.calling (.wakeup k) else s.syncWithWriter n

/-- Call `close_input` of flow `k`, or of the sink. -/
def closeInputAt (s : ByteFlowChain n) (k : ℕ) (status : Status) : Option (ByteFlowChain n) :=
  if k < n then some (s.calling (.closeInput k status))
  else if s.sink.active then some ({ s with sink := ⟨false, status⟩ }.syncWithWriter n)
  else none

def closeInput (s : ByteFlowChain n) (k : ℕ) : Status → ByteFlowChain n
  | .ok => (s.onFlow k fun b => { b with isInputActive := false }).calling (.wakeup k)
  | .error message => s.calling (.finish k (.error message))

def wakeup (s : ByteFlowChain n) (k : ℕ) : ByteFlowChain n :=
  if (s.flow k).stopFlag then s
  else if (s.flow k).waitingFlag then
    if (s.flow k).isInputActive then s.syncWithWriter k
    else (s.syncWithWriter k).calling (.finish k .ok)
  else (s.syncWithWriter k).calling (.check k)

/-- `get_read_size`, unless the input is closed. -/
def updateCanRead (s : ByteFlowChain n) (k : ℕ) : ByteFlowChain n :=
  if (s.flow k).isInputActive then
    (s.syncWithWriter k).onFlow k fun b => b.updateCanRead ((s.syncWithWriter k).input k).size
  else s.onFlow k fun b => b.updateCanRead 0

/-- `get_write_size`. -/
def updateCanWrite (s : ByteFlowChain n) (k : ℕ) : Option (ByteFlowChain n) :=
  if (s.flow k).parent then
    some ((s.syncWithWriter (k + 1)).onFlow k fun b =>
      b.updateCanWrite ((s.syncWithWriter (k + 1)).input (k + 1)).size)
  else none

def check (s : ByteFlowChain n) (k : ℕ) : Option (ByteFlowChain n × Answer) :=
  if (s.flow k).stopFlag then some (s.calling (.onOutputUpdated k), .nothing)
  else
    ((s.updateCanRead k).updateCanWrite k).map fun s =>
      if !(s.flow k).canRead || !(s.flow k).canWrite then (s.calling (.onOutputUpdated k), .checks k false)
      else ((s.onFlow k fun b => { b with needSize := 0 }).calling (.loop k), .checks k true)

def onOutputUpdated (s : ByteFlowChain n) (k : ℕ) : ByteFlowChain n × Answer :=
  if (s.flow k).parent then (s.wakeupAt (k + 1), .wakes k) else (s, .nothing)

def finish (s : ByteFlowChain n) (k : ℕ) (status : Status) : Option (ByteFlowChain n × Answer) :=
  let s := s.onFlow k fun b => { b with stopFlag := true, needSize := 0 }
  if (s.flow k).parent then
    ((s.calling (.closed k)).closeInputAt (k + 1) status).map fun s => (s, .finishes k status true)
  else some (s, .finishes k status false)

/-- After `loop` has returned. -/
def looped (s : ByteFlowChain n) (k : ℕ) (result : Bool) : ByteFlowChain n :=
  if result then s
  else
    let s := s.syncWithWriter k
    if (s.flow k).needSize ≤ (s.input k).size then s.onFlow k fun b => { b with needSize := (s.input k).size + 1 }
    else s

/-- The flow does something in `loop`. -/
def act (s : ByteFlowChain n) (k : ℕ) : Action → ByteFlowChain n
  | .consume size => (s.onInput k fun input => { input with size := input.size - size }).calling (.loop k)
  | .produce size => (s.onInput (k + 1) fun input => { input with ahead := input.ahead + size }).calling (.loop k)
  | .setNeedSize needSize => (s.onFlow k fun b => { b with needSize := needSize }).calling (.loop k)
  | .finish status => (s.calling (.loop k)).calling (.finish k status)
  | .consumeInput =>
    if (s.flow k).isInputActive then (s.onFlow k fun b => { b with waitingFlag := true }).calling (.loop k)
    else ((s.onFlow k fun b => { b with waitingFlag := true }).calling (.loop k)).calling (.finish k .ok)
  | .return result => (s.looped k result).calling (.check k)

/-- The innermost call goes on, in the state without it. -/
def go (s : ByteFlowChain n) : Call → Option (ByteFlowChain n × Answer)
  | .closeInput k status => some (s.closeInput k status, .nothing)
  | .wakeup k => some (s.wakeup k, .nothing)
  | .check k => s.check k
  | .loop k => some (s.calling (.loop k), .nothing)
  | .onOutputUpdated k => some (s.onOutputUpdated k)
  | .finish k status => s.finish k status
  | .closed k => some (s.onFlow k fun b => { b with parent := false }, .nothing)

/-- The owner of the source waits for its calls. -/
def step (s : ByteFlowChain n) : Event → Option (ByteFlowChain n × Answer)
  | .write size => some (s.onInput 0 fun input => { input with ahead := input.ahead + size }, .nothing)
  | .wakeup => match s.calls with
    | [] => some (if s.source then s.wakeupAt 0 else s, .nothing)
    | _ :: _ => some (s, .nothing)
  | .closeInput status => match s.calls with
    | [] =>
      if s.source then ({ s with source := false }.closeInputAt 0 status).map fun s => (s, .sourceCloses status)
      else none
    | _ :: _ => some (s, .nothing)
  | .act action => match s.calls with
    | .loop k :: calls => some ((s.returning calls).act k action, .nothing)
    | _ => some (s, .nothing)
  | .go => match s.calls with
    | [] => some (s, .nothing)
    | call :: calls => (s.returning calls).go call

def machine (n : ℕ) : Lib.Machine (ByteFlowChain n) Event Answer := ⟨step⟩

/-- `source >> flow 0 >> ... >> sink`. -/
def start (n : ℕ) (options : ℕ → Options) : ByteFlowChain n where
  flow := fun k => { options := options k }

/-! ### What was answered -/

def Event.closes : Event → Bool
  | .closeInput _ => true
  | _ => false

def Answer.finished (k : ℕ) : Answer → Bool
  | .finishes j _ _ => j = k
  | _ => false

/-- The flow calls something of its parent, or its `loop` is entered. -/
def Answer.calls (k : ℕ) : Answer → Bool
  | .checks j _ | .wakes j => j = k
  | .finishes j _ closes => j = k && closes
  | _ => false

/-- The status with which `close_input` of the sink is called. -/
def Answer.reached (n : ℕ) : Answer → Option Status
  | .finishes k status closes => if k + 1 = n ∧ closes then some status else none
  | .sourceCloses status => if n = 0 then some status else none
  | _ => none

end ByteFlowChain

end TdUtils
