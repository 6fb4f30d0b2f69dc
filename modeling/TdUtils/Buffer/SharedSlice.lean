import Mathlib.Algebra.Group.Nat.Defs
import Mathlib.Data.List.Basic
import TdUtils.Lib.Machine
import TdUtils.Lib.Pointers

/-!
# Buffer.SharedSlice — slices that share a buffer, and slices that have one for themselves

A buffer is freed when its counter goes to zero, and its address is not used again.  An access to a buffer that is
freed or behind the end of a block, or a second free, is a step that is not answered.
-/

namespace TdUtils

/-- `SharedSliceHeader` and the bytes behind it. -/
structure SharedBuffer where
  refcnt : ℕ := 1
  bytes : List UInt8
deriving DecidableEq

/-- The buffers at their addresses; `none` is freed. -/
abbrev SharedHeap := List (Option SharedBuffer)

namespace UnsafeSharedSlice

def lookup (heap : SharedHeap) (b : ℕ) : Option SharedBuffer := heap[b]?.join

/-- `sizeof(HeaderT)`. -/
def headerSize : ℕ := 16

/-- The block of `sizeof(HeaderT) + size` bytes, which is computed in `size_t`, holds the header and `size` bytes. -/
def Fits (size : ℕ) : Prop := headerSize + size ≤ (headerSize + size) % 2 ^ 64

instance (size : ℕ) : Decidable (Fits size) := inferInstanceAs (Decidable (_ ≤ _))

def alloc (heap : SharedHeap) (slice : List UInt8) : SharedHeap × Option ℕ :=
  (heap ++ [some { bytes := slice }], some heap.length)

/-- A header behind the end of its block is not written. -/
def create (heap : SharedHeap) (slice : List UInt8) : Option (SharedHeap × Option ℕ) :=
  if Fits slice.length then some (alloc heap slice) else none

/-- The counter of the buffer goes up. -/
def clone (heap : SharedHeap) : Option ℕ → Option (SharedHeap × Option ℕ)
  | none => some (heap, none)
  | some b => (lookup heap b).map fun buffer =>
    (heap.set b (some { buffer with refcnt := buffer.refcnt + 1 }), some b)

def isUnique (heap : SharedHeap) : Option ℕ → Option Bool
  | none => some true
  | some b => (lookup heap b).map fun buffer => buffer.refcnt = 1

def asSlice (heap : SharedHeap) : Option ℕ → Option (List UInt8)
  | none => some []
  | some b => (lookup heap b).map SharedBuffer.bytes

/-- `SharedSliceDestructor`, with the buffer that it frees. -/
def reset (heap : SharedHeap) : Option ℕ → Option (SharedHeap × List ℕ)
  | none => some (heap, [])
  | some b => (lookup heap b).map fun buffer =>
    if buffer.refcnt = 1 then (heap.set b none, [b])
    else (heap.set b (some { buffer with refcnt := buffer.refcnt - 1 }), [])

/-- A write to one byte of the mutable slice. -/
def write (heap : SharedHeap) (pos : ℕ) (byte : UInt8) : Option ℕ → Option SharedHeap
  | none => some heap
  | some b => (lookup heap b).map fun buffer =>
    heap.set b (some { buffer with bytes := buffer.bytes.set pos byte })

end UnsafeSharedSlice

/-- A variable of one of the two classes, or one that is destroyed. -/
inductive SliceHandle where
  | shared (ptr : Option ℕ)
  | unique (ptr : Option ℕ)
  | destroyed
deriving DecidableEq

def SliceHandle.ptr : SliceHandle → Option ℕ
  | .shared ptr | .unique ptr => ptr
  | .destroyed => none

/-- The variables are named by their numbers. -/
structure SharedSlices where
  heap : SharedHeap := []
  slices : List SliceHandle := []
deriving DecidableEq

namespace SharedSlices

open UnsafeSharedSlice

inductive Op where
  | sharedNull
  | uniqueNull
  | shared (slice : List UInt8)
  | unique (slice : List UInt8)
  | uniqueSize (size : UInt64)
  | clone (h : ℕ)
  | copy (h : ℕ)
  | move (h : ℕ)
  | assign (dest src : ℕ)
  | toUnique (h : ℕ)
  | toShared (h : ℕ)
  | clear (h : ℕ)
  | destroy (h : ℕ)
  | write (h pos : ℕ) (byte : UInt8)
deriving DecidableEq

def push (s : SharedSlices) (slice : SliceHandle) : SharedSlices := { s with slices := s.slices ++ [slice] }

def put (s : SharedSlices) (h : ℕ) (slice : SliceHandle) : SharedSlices := { s with slices := s.slices.set h slice }

/-- A variable lets go of a pointer. -/
def drop (s : SharedSlices) (ptr : Option ℕ) : Option (SharedSlices × List ℕ) :=
  (reset s.heap ptr).map fun after => ({ s with heap := after.1 }, after.2)

/-- `UniqueSharedSlice` from a `SharedSlice` that has `ptr`, and is destroyed. -/
def pushUnique (s : SharedSlices) (ptr : Option ℕ) : Option (SharedSlices × List ℕ) :=
  match isUnique s.heap ptr, asSlice s.heap ptr with
  | some true, _ => some (s.push (.unique ptr), [])
  | some false, some slice => (create s.heap slice).bind fun after =>
    { s with heap := after.1 }.push (.unique after.2) |>.drop ptr
  | _, _ => none

/-- A new variable on a new buffer. -/
def pushCreated (s : SharedSlices) (slice : List UInt8) (handle : Option ℕ → SliceHandle) :
    Option (SharedSlices × List ℕ) :=
  (create s.heap slice).map fun after => ({ s with heap := after.1 }.push (handle after.2), [])

/-- What the assignment of a pointer frees is what the variable had when the pointer was taken from the other one. -/
def assign (s : SharedSlices) (dest : ℕ) (slice : SliceHandle) : Option (SharedSlices × List ℕ) :=
  match s.slices[dest]? with
  | none => some (s, [])
  | some old => (s.put dest slice).drop old.ptr

/-- A call on a variable of the wrong class, or on none, is not a program and changes nothing. -/
def step (s : SharedSlices) : Op → Option (SharedSlices × List ℕ)
  | .sharedNull => some (s.push (.shared none), [])
  | .uniqueNull => some (s.push (.unique none), [])
  | .shared slice => s.pushCreated slice .shared
  | .unique slice => s.pushCreated slice .unique
  | .uniqueSize size => s.pushCreated (List.replicate size.toNat 0) .unique
  | .clone h => match s.slices[h]? with
    | some (.shared ptr) =>
      (UnsafeSharedSlice.clone s.heap ptr).map fun after => ({ s with heap := after.1 }.push (.shared after.2), [])
    | _ => some (s, [])
  | .copy h => match s.slices[h]? with
    | some (.unique ptr) => (asSlice s.heap ptr).bind fun slice => s.pushCreated slice .unique
    | _ => some (s, [])
  | .move h => match s.slices[h]? with
    | some (.shared ptr) => some ((s.put h (.shared none)).push (.shared ptr), [])
    | some (.unique ptr) => some ((s.put h (.unique none)).push (.unique ptr), [])
    | _ => some (s, [])
  | .assign dest src => match s.slices[dest]?, s.slices[src]? with
    | some (.shared _), some (.shared ptr) => (s.put src (.shared none)).assign dest (.shared ptr)
    | some (.unique _), some (.unique ptr) => (s.put src (.unique none)).assign dest (.unique ptr)
    | _, _ => some (s, [])
  | .toUnique h => match s.slices[h]? with
    | some (.shared ptr) => (s.put h (.shared none)).pushUnique ptr
    | _ => some (s, [])
  | .toShared h => match s.slices[h]? with
    | some (.unique ptr) => some ((s.put h (.unique none)).push (.shared ptr), [])
    | _ => some (s, [])
  | .clear h => match s.slices[h]? with
    | some (.shared ptr) => (s.put h (.shared none)).drop ptr
    | some (.unique ptr) => (s.put h (.unique none)).drop ptr
    | _ => some (s, [])
  | .destroy h => match s.slices[h]? with
    | some slice => (s.put h .destroyed).drop slice.ptr
    | none => some (s, [])
  | .write h pos byte => match s.slices[h]? with
    | some (.unique ptr) => (UnsafeSharedSlice.write s.heap pos byte ptr).map fun heap => ({ s with heap := heap }, [])
    | _ => some (s, [])

/-- The answers are the buffers that are freed. -/
def machine : Lib.Machine SharedSlices Op (List ℕ) := ⟨step⟩

/-- The size that is asked for fits with its header; a slice is in memory, and does. -/
def Op.Fits : Op → Prop
  | .shared slice | .unique slice => UnsafeSharedSlice.Fits slice.length
  | .uniqueSize size => UnsafeSharedSlice.Fits size.toNat
  | _ => True

/-- The live variables on a buffer. -/
def refs (slices : List SliceHandle) (b : ℕ) : ℕ := Lib.refs SliceHandle.ptr slices b

/-- The bytes that are seen through a variable. -/
def view (s : SharedSlices) (h : ℕ) : Option (List UInt8) :=
  s.slices[h]?.bind fun slice => asSlice s.heap slice.ptr

/-- The counter of each buffer is the number of the variables on it, the buffers that were freed, each of them once, are
those that no variable is on, and a write through a variable changes what is seen through none of the others. -/
structure Counts (s : SharedSlices) (freed : List ℕ) : Prop where
  refcnt : ∀ b buffer, lookup s.heap b = some buffer → buffer.refcnt = refs s.slices b
  once : freed.Nodup
  freed : ∀ b, b ∈ freed ↔ b < s.heap.length ∧ refs s.slices b = 0
  write : ∀ h pos byte, ∃ t, s.step (.write h pos byte) = some (t, []) ∧ ∀ k, k ≠ h → t.view k = s.view k

end SharedSlices

end TdUtils
