import Mathlib.Algebra.Group.Int.Defs
import TdUtils.Buffer.ChainBuffer
import TdUtils.Lib.Machine
import TdUtils.Lib.Word

/-!
# Buffer.BufferAllocator — buffers, the pointers that hold them, and the counter of slices

A small slice takes its place in the block of its thread, a large one has a buffer of its own; `BufferSlice(size)`
finds out where it is from the end of the buffer.  Every `BufferSlice` adds its size to the counter of the thread
that makes it and subtracts it in the thread that changes or destroys it.  The bytes are not looked at.  `none` is
a failed `CHECK`, a null pointer, an object that is no more, or a buffer that was deleted.
-/

namespace TdUtils.BufferAllocator

open Lib

/-- `BufferRaw`; `bufSize` are the bytes that were allocated for it.  With no references it is deleted. -/
structure Raw where
  dataSize : ℕ
  bufSize : ℕ
  begin_ : ℕ
  end_ : ℕ
  refCnt : ℕ
deriving DecidableEq

structure BufferSlice where
  buffer : Option ℕ
  begin_ : ℕ
  end_ : ℕ
deriving DecidableEq

/-- The buffers; for each thread its block and its part of the counter; the writers and the slices, which are
`none` when they are destroyed. -/
structure State where
  raws : List Raw
  tls : List (Option ℕ)
  counters : List ℤ
  writers : List (Option ℕ)
  slices : List (Option BufferSlice)
deriving DecidableEq

def start (threads : ℕ) : State := ⟨[], List.replicate threads none, List.replicate threads 0, [], []⟩

namespace State

/-! ### Buffers -/

/-- The buffer, if it is not deleted. -/
def access (s : State) (a : ℕ) : Option Raw :=
  s.raws[a]?.bind fun raw => if raw.refCnt = 0 then none else some raw

def put (s : State) (a : ℕ) (raw : Raw) : State := { s with raws := s.raws.set a raw }

/-- `create_reader(raw)`. -/
def incRef (s : State) (a : ℕ) : Option State :=
  (s.access a).map fun raw => s.put a { raw with refCnt := raw.refCnt + 1 }

/-- `dec_ref_cnt`. -/
def decRef (s : State) (a : ℕ) : Option State :=
  (s.access a).map fun raw => s.put a { raw with refCnt := raw.refCnt - 1 }

/-- A pointer goes. -/
def release (s : State) : Option ℕ → Option State
  | none => some s
  | some a => s.decRef a

/-- A copy of a pointer. -/
def share (s : State) : Option ℕ → Option State
  | none => some s
  | some a => s.incRef a

/-- `create_buffer_raw`. -/
def createBufferRaw (s : State) (size : ℕ) : State × ℕ :=
  let size := BufferRaw.roundUp size
  ({ s with raws := s.raws ++ [⟨size, BufferRaw.bufSize size, 0, 0, 1⟩] }, s.raws.length)

/-- Whether there is a block that has room. -/
def hasRoom (s : State) (size : ℕ) : Option ℕ → Option Bool
  | none => some false
  | some a => (s.access a).map fun raw => ¬ Word.sub 64 raw.dataSize raw.end_ < size

/-- The block of the thread, or a new one in its place if it has not enough room. -/
def sharedBlock (s : State) (thread size : ℕ) : Option (State × ℕ) := do
  let block ← s.tls[thread]?
  let fits ← s.hasRoom size block
  if fits then
    let a ← block
    some (s, a)
  else
    let (s, a) := s.createBufferRaw (4096 * 4)
    let s ← { s with tls := s.tls.set thread (some a) }.release block
    some (s, a)

def createReaderFast (s : State) (thread size : ℕ) : Option (State × ℕ) := do
  let size := BufferRaw.roundUp size
  let (s, a) ← s.sharedBlock thread size
  let raw ← s.access a
  let s ← (s.put a { raw with end_ := Word.add 64 raw.end_ size }).incRef a
  some (s, a)

/-- `create_reader(size)`. -/
def createReader (s : State) (thread size : ℕ) : Option (State × ℕ) :=
  if size < 512 then s.createReaderFast thread size
  else do
    let (s, a) := s.createBufferRaw size
    let raw ← s.access a
    let s ← (s.put a { raw with end_ := Word.add 64 raw.end_ (BufferRaw.roundUp size) }).incRef a
    let s ← s.decRef a  -- the writer goes
    some (s, a)

/-- `create_writer(size, prepend, append)`. -/
def createWriter (s : State) (size prepend append : ℕ) : Option State := do
  let size' := Word.add 64 (Word.add 64 size prepend) append
  let (s, a) := s.createBufferRaw (if size' < 512 then 512 else size')
  let raw ← s.access a
  let raw := { raw with begin_ := Word.add 64 raw.begin_ prepend, end_ := Word.add 64 raw.end_ (Word.add 64 prepend size) }
  some { s.put a raw with writers := s.writers ++ [some a] }

end State

/-! ### The counter -/

/-- The value of an `int64`. -/
def int64 (z : ℤ) : ℤ := Int.bmod z (2 ^ 64)

namespace BufferSlice

def null : BufferSlice := ⟨none, 0, 0⟩

def size (x : BufferSlice) : ℕ := if x.buffer = none then 0 else (((x.end_ : ℤ) - x.begin_) % 2 ^ 64).toNat

end BufferSlice

namespace State

/-- `track_buffer_slice`. -/
def track (s : State) (thread : ℕ) (size : ℤ) : State :=
  if size = 0 then s
  else { s with counters := s.counters.modify thread fun counter => int64 (counter + size) }

def debugTrack (s : State) (thread : ℕ) (x : BufferSlice) : State := s.track thread (int64 x.size)

def debugUntrack (s : State) (thread : ℕ) (x : BufferSlice) : State := s.track thread (int64 (-int64 x.size))

/-- `get_buffer_slice_size`. -/
def getBufferSliceSize (s : State) : ℤ := s.counters.foldl (fun res value => int64 (res + value)) 0

/-! ### Slices -/

def get (s : State) (i : ℕ) : Option BufferSlice := s.slices[i]?.join

def set (s : State) (i : ℕ) (x : Option BufferSlice) : State := { s with slices := s.slices.set i x }

def push (s : State) (x : BufferSlice) : State := { s with slices := s.slices ++ [some x] }

/-- `BufferSlice(size)`. -/
def ofSize (s : State) (thread size : ℕ) : Option State := do
  let (s, a) ← s.createReader thread size
  let raw ← s.access a
  let begin_ := Word.sub 64 raw.end_ (BufferRaw.roundUp size)
  let x : BufferSlice := ⟨some a, begin_, Word.add 64 begin_ size⟩
  some ((s.push x).debugTrack thread x)

/-- `BufferSlice(buffer_ptr, begin, end)`, with a new pointer to the buffer. -/
def ofRange (s : State) (thread : ℕ) (buffer : Option ℕ) (begin_ end_ : ℕ) : Option State := do
  let s ← s.share buffer
  let x : BufferSlice := ⟨buffer, begin_, end_⟩
  some ((s.push x).debugTrack thread x)

def syncWithWriter (s : State) (thread i : ℕ) : Option State := do
  let x ← s.get i
  let s := s.debugUntrack thread x
  let a ← x.buffer
  let raw ← s.access a
  let x := { x with end_ := raw.end_ }
  some ((s.set i (some x)).debugTrack thread x)

/-- `BufferSlice(buffer_ptr)`, with a new pointer to the buffer. -/
def ofReader (s : State) (thread : ℕ) (buffer : Option ℕ) : Option State := do
  let s ← s.share buffer
  match buffer with
  | none => some (s.push .null)
  | some a =>
    let raw ← s.access a
    (s.push ⟨some a, raw.begin_, raw.begin_⟩).syncWithWriter thread s.slices.length

/-- `BufferSlice(BufferSlice &&)`. -/
def moveConstruct (s : State) (thread i : ℕ) : Option State := do
  let x ← s.get i
  let s := (s.set i (some { x with buffer := none })).push x
  some ((s.debugTrack thread x).debugUntrack thread x)  -- yes, debug_untrack

/-- `operator=(BufferSlice &&)`. -/
def moveAssign (s : State) (thread i j : ℕ) : Option State := do
  let x ← s.get i
  let y ← s.get j
  if i = j then some s
  else
    let s := s.debugUntrack thread x
    let s ← (s.set j (some { y with buffer := none })).release x.buffer
    some (s.set i (some y))

def clone (s : State) (thread i : ℕ) : Option State := do
  let x ← s.get i
  s.ofRange thread x.buffer x.begin_ x.end_

def copy (s : State) (thread i : ℕ) : Option State := do
  let x ← s.get i
  if x.buffer = none then s.ofRange thread none x.begin_ x.end_
  else s.ofSize thread x.size

def confirmRead (s : State) (thread i size : ℕ) : Option State := do
  let x ← s.get i
  let s := s.debugUntrack thread x
  let x := { x with begin_ := Word.add 64 x.begin_ size }
  if x.begin_ ≤ x.end_ then some ((s.set i (some x)).debugTrack thread x) else none

def truncate (s : State) (thread i limit : ℕ) : Option State := do
  let x ← s.get i
  if limit < x.size then
    let s := s.debugUntrack thread x
    let x := { x with end_ := Word.add 64 x.begin_ limit }
    some ((s.set i (some x)).debugTrack thread x)
  else some s

/-- `from_slice` of what stands between two positions of the buffer. -/
def fromSlice (s : State) (thread i begin_ end_ : ℕ) : Option State := do
  let x ← s.get i
  let a ← x.buffer
  let r := s.slices.length
  let s ← s.ofReader thread (some a)
  let res ← s.get r
  let s := s.debugUntrack thread res
  let res := { res with begin_, end_ }
  let s := (s.set r (some res)).debugTrack thread res
  let raw ← s.access a
  if raw.begin_ ≤ begin_ ∧ begin_ ≤ end_ ∧ end_ ≤ raw.end_ then some s else none

def clear (s : State) (thread i : ℕ) : Option State := do
  let x ← s.get i
  (((s.debugUntrack thread x).set i (some .null))).release x.buffer

def destroy (s : State) (thread i : ℕ) : Option State := do
  let x ← s.get i
  ((s.debugUntrack thread x).set i none).release x.buffer

/-! ### Writers -/

/-- The buffer of a writer. -/
def writer (s : State) (w : ℕ) : Option ℕ := s.writers[w]?.join

def confirmAppend (s : State) (w size : ℕ) : Option State := do
  let a ← s.writer w
  let raw ← s.access a
  let newEnd := Word.add 64 raw.end_ size
  if newEnd ≤ raw.dataSize then some (s.put a { raw with end_ := newEnd }) else none

def confirmPrepend (s : State) (w size : ℕ) : Option State := do
  let a ← s.writer w
  let raw ← s.access a
  if size ≤ raw.begin_ then some (s.put a { raw with begin_ := raw.begin_ - size }) else none

def dropWriter (s : State) (w : ℕ) : Option State := do
  let a ← s.writer w
  { s with writers := s.writers.set w none }.decRef a

def clearThreadLocal (s : State) (thread : ℕ) : Option State := do
  let block ← s.tls[thread]?
  { s with tls := s.tls.set thread none }.release block

end State

inductive Op where
  | create
  | ofSize (size : ℕ)
  | ofReader (buffer : Option ℕ)
  | ofRange (buffer : Option ℕ) (begin_ end_ : ℕ)
  | moveConstruct (i : ℕ)
  | moveAssign (i j : ℕ)
  | clone (i : ℕ)
  | copy (i : ℕ)
  | confirmRead (i size : ℕ)
  | truncate (i limit : ℕ)
  | fromSlice (i begin_ end_ : ℕ)
  | syncWithWriter (i : ℕ)
  | clear (i : ℕ)
  | destroy (i : ℕ)
  | createWriter (size prepend append : ℕ)
  | confirmAppend (w size : ℕ)
  | confirmPrepend (w size : ℕ)
  | dropWriter (w : ℕ)
  | clearThreadLocal
deriving DecidableEq

/-- An operation of a thread. -/
structure Call where
  thread : ℕ
  op : Op
deriving DecidableEq

def State.run (s : State) (thread : ℕ) : Op → Option State
  | .create => some (s.push .null)
  | .ofSize size => s.ofSize thread size
  | .ofReader buffer => s.ofReader thread buffer
  | .ofRange buffer begin_ end_ => s.ofRange thread buffer begin_ end_
  | .moveConstruct i => s.moveConstruct thread i
  | .moveAssign i j => s.moveAssign thread i j
  | .clone i => s.clone thread i
  | .copy i => s.copy thread i
  | .confirmRead i size => s.confirmRead thread i size
  | .truncate i limit => s.truncate thread i limit
  | .fromSlice i begin_ end_ => s.fromSlice thread i begin_ end_
  | .syncWithWriter i => s.syncWithWriter thread i
  | .clear i => s.clear thread i
  | .destroy i => s.destroy thread i
  | .createWriter size prepend append => s.createWriter size prepend append
  | .confirmAppend w size => s.confirmAppend w size
  | .confirmPrepend w size => s.confirmPrepend w size
  | .dropWriter w => s.dropWriter w
  | .clearThreadLocal => s.clearThreadLocal thread

/-- One call of one of the threads. -/
def step (s : State) (call : Call) : Option (State × Unit) :=
  if call.thread < s.counters.length then (s.run call.thread call.op).map fun s => (s, ()) else none

def machine : Machine State Call Unit := ⟨step⟩

end TdUtils.BufferAllocator
