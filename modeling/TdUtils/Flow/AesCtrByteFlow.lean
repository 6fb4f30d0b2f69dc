import TdUtils.Buffer.Overwrite
import TdUtils.Crypto.AesCtr
import TdUtils.Flow.ByteFlow
import TdUtils.Lib.Machine

/-!
# Flow.AesCtrByteFlow — a source, an AES-CTR flow that works in place, and a sink

The source's reader is the input of the flow, and the output of the flow is the buffer of the sink; both
read the chain of one writer.  `none` is a failed `CHECK`, or a loop that is out of fuel.
-/

namespace TdUtils

open ByteFlow ChainBuffer

/-- `source` is whether the `parent_` of the source is set. -/
structure AesCtrByteFlow where
  chain : ChainBuffer
  input : ChainBufferReader
  source : Bool
  base : Base
  state : AesCtrState
  output : ChainBufferReader
  sink : ByteFlowSink
deriving DecidableEq

namespace AesCtrByteFlow

variable (E : AesBlock → AesBlock)

/-- `source >> flow >> sink`, on the reader of a chain. -/
def connect (iv : AesBlock) (chain : ChainBuffer) (input : ChainBufferReader) : AesCtrByteFlow :=
  ⟨chain, input, true, {}, .init E iv, ⟨input.begin_, input.begin_, false⟩, ⟨true, .ok⟩⟩

/-- With a new writer. -/
def start (iv : AesBlock) : AesCtrByteFlow :=
  let input := ChainBufferIterator.ofHead .init 0
  connect E iv { ChainBuffer.init with head := false } ⟨input, input, true⟩

/-! ### The flow -/

/-- `close_input` of the sink. -/
def closeSink (s : AesCtrByteFlow) (status : Status) : Option AesCtrByteFlow :=
  if s.sink.active then
    (s.output.syncWithWriter s.chain).map fun output => { s with output := output, sink := ⟨false, status⟩ }
  else none

def finish (s : AesCtrByteFlow) (status : Status) : Option AesCtrByteFlow :=
  let s := { s with base := { s.base with stopFlag := true, needSize := 0 } }
  if s.base.parent then
    (s.closeSink status).map fun s => { s with base := { s.base with parent := false } }
  else some s

/-- With the input synced; its size. -/
def getReadSize (s : AesCtrByteFlow) : Option (AesCtrByteFlow × ℕ) :=
  (s.input.syncWithWriter s.chain).map fun input => ({ s with input := input }, input.size)

def getWriteSize (s : AesCtrByteFlow) : Option (AesCtrByteFlow × ℕ) :=
  if s.base.parent then
    (s.output.syncWithWriter s.chain).map fun output => ({ s with output := output }, output.size)
  else none

def loop (s : AesCtrByteFlow) : Option (AesCtrByteFlow × Bool) :=
  (s.input.prepareRead s.chain).bind fun (input, ready) =>
    (if ready.size = 0 then some ({ s with input := input }, false)
      else
        (s.state.encrypt E (ready.asSlice s.chain.raws)).bind fun (state, bytes) =>
          let chain := s.chain.overwrite ready bytes
          (input.confirmRead ready.size).bind fun input =>
            (s.output.advanceEnd chain ready.size).map fun output =>
              ({ s with chain := chain, input := input, state := state, output := output }, true)).bind
      fun (s, result) =>
        if s.base.isInputActive then some (s, result) else (s.finish .ok).map fun s => (s, result)

def updateCanRead (s : AesCtrByteFlow) : Option AesCtrByteFlow :=
  if s.base.isInputActive then
    s.getReadSize.map fun (s, readSize) => { s with base := s.base.updateCanRead readSize }
  else some { s with base := s.base.updateCanRead 0 }

def updateCanWrite (s : AesCtrByteFlow) : Option AesCtrByteFlow :=
  s.getWriteSize.map fun (s, writeSize) => { s with base := s.base.updateCanWrite writeSize }

def wakeupLoop : ℕ → AesCtrByteFlow → Option AesCtrByteFlow
  | 0, _ => none
  | fuel + 1, s =>
    if s.base.stopFlag then some s
    else
      (s.updateCanRead.bind updateCanWrite).bind fun s =>
        if !s.base.canRead || !s.base.canWrite then some s
        else
          (loop E { s with base := { s.base with needSize := 0 } }).bind fun (s, result) =>
            if result then wakeupLoop fuel s
            else
              s.getReadSize.bind fun (s, readSize) =>
                wakeupLoop fuel (if s.base.needSize ≤ readSize
                  then { s with base := { s.base with needSize := readSize + 1 } } else s)

/-- `wakeup` of the sink, if it is still connected. -/
def onOutputUpdated (s : AesCtrByteFlow) : Option AesCtrByteFlow :=
  if s.base.parent then
    (s.output.syncWithWriter s.chain).map fun output => { s with output := output }
  else some s

def wakeupFlow (s : AesCtrByteFlow) : Option AesCtrByteFlow :=
  if s.base.stopFlag then some s
  else
    s.getReadSize.bind fun (s, _) =>
      if s.base.waitingFlag then if s.base.isInputActive then some s else s.finish .ok
      else (wakeupLoop E (s.chain.contents.length + 3) s).bind onOutputUpdated

def closeFlow (s : AesCtrByteFlow) (status : Status) : Option AesCtrByteFlow :=
  match status with
  | .ok => wakeupFlow E { s with base := { s.base with isInputActive := false } }
  | .error _ => s.finish status

/-! ### The source -/

def wakeup (s : AesCtrByteFlow) : Option AesCtrByteFlow := if s.source then wakeupFlow E s else some s

def closeInput (s : AesCtrByteFlow) (status : Status) : Option AesCtrByteFlow :=
  if s.source then (closeFlow E s status).map fun s => { s with source := false } else none

/-- What the owner of the writer and of the source does before the end of the input. -/
inductive Op where
  | append (slice : List UInt8) (hint : UInt64)
  | newBuffer (bytes : List UInt8)
  | appendBuffer (slice : BufferSlice)
  | prepareAppend (hint : UInt64)
  | prepareAppendAtLeast (size : UInt64)
  | prepareAppendAlloc (hint : UInt64)
  | confirmAppend (bytes : List UInt8)
  | wakeup
deriving DecidableEq

/-- The bytes that the call puts into the input; a slice of a buffer shows what stands there by now. -/
def Op.bytes (s : AesCtrByteFlow) : Op → List UInt8
  | .append bytes _ | .confirmAppend bytes => bytes
  | .appendBuffer slice => slice.asSlice s.chain.raws
  | _ => []

def step (s : AesCtrByteFlow) : Op → Option (AesCtrByteFlow × Unit)
  | .append slice hint => (s.chain.append slice hint.toNat).map fun c => ({ s with chain := c }, ())
  | .newBuffer bytes => some ({ s with chain := (s.chain.newSlice bytes).1 }, ())
  | .appendBuffer slice =>
    if slice.holds s.chain.raws then (s.chain.appendBuffer slice).map fun c => ({ s with chain := c }, ()) else none
  | .prepareAppend hint => some ({ s with chain := s.chain.prepareAppend hint.toNat }, ())
  | .prepareAppendAtLeast size => some ({ s with chain := s.chain.prepareAppendAtLeast size.toNat }, ())
  | .prepareAppendAlloc hint => some ({ s with chain := s.chain.prepareAppendAlloc hint.toNat }, ())
  | .confirmAppend bytes => (s.chain.confirmAppend bytes).map fun c => ({ s with chain := c }, ())
  | .wakeup => (wakeup E s).map fun s => (s, ())

def machine : Lib.Machine AesCtrByteFlow Op Unit := ⟨step E⟩

/-- The whole input of a run. -/
def given : AesCtrByteFlow → List Op → List UInt8
  | _, [] => []
  | s, op :: ops => op.bytes s ++
    match step E s op with
    | none => []
    | some (s, _) => given s ops

/-- A slice is a region of memory, and not more is confirmed than was prepared. -/
def Allowed (s : AesCtrByteFlow) : Op → Prop
  | .append slice _ => slice.length < 2 ^ 63
  | .appendBuffer slice => slice.holds s.chain.raws = true
  | .confirmAppend bytes => bytes.length ≤ s.chain.prepareAppendInplace
  | _ => True

/-- A slice that becomes a node shares no byte with the other nodes, and the size of a new buffer does not wrap when it
is rounded up and the header is added. -/
def Fits (s : AesCtrByteFlow) : Op → Prop
  | .append slice hint => hint.toNat ≤ 2 ^ 64 - 40 ∨ slice.length ≤ s.chain.prepareAppendInplace
  | .appendBuffer slice =>
    slice.size < 1 <<< 8 ∨ slice.size ≤ s.chain.prepareAppendInplace ∨ Unshared s.chain slice
  | .prepareAppend hint => hint.toNat ≤ 2 ^ 64 - 40 ∨ 0 < s.chain.prepareAppendInplace
  | .prepareAppendAtLeast size => size.toNat ≤ 2 ^ 64 - 40 ∨ size.toNat ≤ s.chain.prepareAppendInplace
  | .prepareAppendAlloc hint => hint.toNat ≤ 2 ^ 64 - 40
  | _ => True

instance (s : AesCtrByteFlow) (op : Op) : Decidable (Allowed s op) := by
  cases op <;> unfold Allowed <;> infer_instance

instance (s : AesCtrByteFlow) (op : Op) : Decidable (Fits s op) := by
  cases op <;> unfold Fits Unshared <;> infer_instance

/-- The bytes that have not been read stand in one node. -/
def OneNode (s : AesCtrByteFlow) : Prop :=
  ∃ i < s.chain.nodes.length, s.chain.start i ≤ s.input.begin_.offset ∧
    s.chain.contents.length ≤ s.chain.start (i + 1)

/-- The sink is ready, with these bytes. -/
def Delivers (s : AesCtrByteFlow) (bytes : List UInt8) : Prop :=
  s.sink.active = false ∧ s.sink.status = .ok ∧
    (s.output.moveAsBufferSlice s.chain).map Prod.snd = some bytes

end AesCtrByteFlow

end TdUtils
