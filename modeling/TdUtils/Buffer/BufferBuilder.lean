import TdUtils.Buffer.ChainBuffer
import TdUtils.Lib.Machine
import TdUtils.Lib.Part
import TdUtils.Lib.Word

/-!
# Buffer.BufferBuilder — a buffer that grows on both sides

The slice of a `BufferBuilder` has reserves in front of it and behind it.  A piece is copied there as long as there
is room on its side; then it goes to the list of its side, and so do all that follow.  `none` is a failed `CHECK`, a
null pointer, or bytes outside of the memory of a buffer.
-/

namespace TdUtils

open Lib

namespace BufferBuilder

/-- `BufferRaw`; `data` is all the memory behind its header. -/
structure Raw where
  dataSize : ℕ
  begin_ : ℕ
  end_ : ℕ
  wasReader : Bool
  data : List UInt8
deriving DecidableEq

/-- `BufferWriter`. -/
abbrev BufferWriter := Option Raw

/-- A `MutableSlice` in the buffer of a writer. -/
structure MutableSlice where
  begin_ : ℕ
  size : ℕ

namespace MutableSlice

def removePrefix (dest : MutableSlice) (n : ℕ) : Option MutableSlice :=
  if n ≤ dest.size then some ⟨dest.begin_ + n, dest.size - n⟩ else none

def removeSuffix (dest : MutableSlice) (n : ℕ) : Option MutableSlice :=
  if n ≤ dest.size then some ⟨dest.begin_, dest.size - n⟩ else none

def truncate (dest : MutableSlice) (size : ℕ) : MutableSlice :=
  if size < dest.size then ⟨dest.begin_, size⟩ else dest

end MutableSlice

/-- `create_writer(size, prepend, append)`. -/
def createWriter (size prepend append : ℕ) : Raw :=
  let total := Word.add 64 (Word.add 64 size prepend) append
  let dataSize := BufferRaw.roundUp (if total < 512 then 512 else total)
  ⟨dataSize, Word.add 64 0 prepend, Word.add 64 0 (Word.add 64 prepend size), false,
    List.replicate (BufferRaw.memory dataSize) 0⟩

/-! ### Writers -/

namespace Raw

/-- The bytes between `begin_` and `end_`. -/
def asSlice (raw : Raw) : Option (List UInt8) :=
  if raw.begin_ = raw.end_ then some []
  else if raw.begin_ ≤ raw.end_ ∧ raw.end_ ≤ raw.data.length then some (part raw.data raw.begin_ raw.end_)
  else none

end Raw

namespace BufferWriter

def preparePrepend : BufferWriter → Option MutableSlice
  | none => some ⟨0, 0⟩
  | some raw => if raw.wasReader then none else some ⟨0, raw.begin_⟩

def prepareAppend : BufferWriter → MutableSlice
  | none => ⟨0, 0⟩
  | some raw => ⟨raw.end_, Word.sub 64 raw.dataSize raw.end_⟩

def confirmAppend (w : BufferWriter) (size : ℕ) : Option BufferWriter :=
  match w with
  | none => if size = 0 then some none else none
  | some raw =>
    let newEnd := Word.add 64 raw.end_ size
    if newEnd ≤ raw.dataSize then some (some { raw with end_ := newEnd }) else none

def confirmPrepend (w : BufferWriter) (size : ℕ) : Option BufferWriter :=
  match w with
  | none => if size = 0 then some none else none
  | some raw => if size ≤ raw.begin_ then some (some { raw with begin_ := raw.begin_ - size }) else none

/-- `dest.copy_from(slice)`. -/
def copyFrom (w : BufferWriter) (dest : MutableSlice) (slice : List UInt8) : Option BufferWriter :=
  if dest.size < slice.length then none
  else if slice = [] then some w
  else match w with
    | none => none
    | some raw =>
      if dest.begin_ + slice.length ≤ raw.data.length then
        some (some { raw with data := overwrite raw.data dest.begin_ slice })
      else none

/-- `BufferWriter(slice, prepend, append)`. -/
def ofSlice (slice : List UInt8) (prepend append : ℕ) : Option BufferWriter :=
  let raw := createWriter slice.length prepend append
  copyFrom (some raw) ⟨raw.begin_, Word.sub 64 raw.end_ raw.begin_⟩ slice

def isEmpty : BufferWriter → Bool
  | none => true
  | some raw => raw.begin_ = raw.end_

/-- `as_buffer_slice`, with the bytes of the slice; it marks the buffer. -/
def asBufferSlice : BufferWriter → Option (BufferWriter × List UInt8)
  | none => none
  | some raw => raw.asSlice.map fun bytes => (some { raw with wasReader := true }, bytes)

end BufferWriter

/-- What is appended or prepended. -/
inductive Piece where
  | slice (bytes : List UInt8)
  | bufferSlice (bytes : List UInt8)
deriving DecidableEq

namespace Piece

def bytes : Piece → List UInt8
  | slice bytes => bytes
  | bufferSlice bytes => bytes

/-- The `BufferSlice` that goes to a list; that of a `Slice` is made there, with the bytes copied into a buffer that
must have the memory for them. -/
def toBufferSlice : Piece → Option (List UInt8)
  | slice bytes => if bytes.length ≤ 2 ^ 64 - 40 then some bytes else none
  | bufferSlice bytes => some bytes

end Piece

end BufferBuilder

/-! ### Builders -/

structure BufferBuilder where
  bufferWriter : BufferBuilder.BufferWriter
  toAppend : List (List UInt8)
  toPrepend : List (List UInt8)
deriving DecidableEq

namespace BufferBuilder

/-- `BufferBuilder()`. -/
def empty : BufferBuilder := ⟨none, [], []⟩

/-- `BufferBuilder(slice, prepend_size, append_size)`. -/
def ofSlice (slice : List UInt8) (prependSize appendSize : ℕ) : Option BufferBuilder :=
  (BufferWriter.ofSlice slice prependSize appendSize).map fun w => ⟨w, [], []⟩

/-- `BufferBuilder(buffer_writer)`. -/
def ofWriter (bufferWriter : BufferWriter) : BufferBuilder := ⟨bufferWriter, [], []⟩

/-- The builder, and whether the bytes are in place. -/
def appendInplace (b : BufferBuilder) (slice : List UInt8) : Option (BufferBuilder × Bool) :=
  if b.toAppend ≠ [] then some (b, false)
  else
    let dest := b.bufferWriter.prepareAppend
    if dest.size < slice.length then some (b, false)
    else do
      let dest ← dest.removeSuffix (dest.size - slice.length)
      let w ← b.bufferWriter.copyFrom dest slice
      let w ← w.confirmAppend slice.length
      some ({ b with bufferWriter := w }, true)

def prependInplace (b : BufferBuilder) (slice : List UInt8) : Option (BufferBuilder × Bool) :=
  if b.toPrepend ≠ [] then some (b, false)
  else do
    let dest ← b.bufferWriter.preparePrepend
    if dest.size < slice.length then some (b, false)
    else do
      let dest ← dest.removePrefix (dest.size - slice.length)
      let w ← b.bufferWriter.copyFrom dest slice
      let w ← w.confirmPrepend slice.length
      some ({ b with bufferWriter := w }, true)

def append (b : BufferBuilder) (piece : Piece) : Option BufferBuilder := do
  let (b, done) ← b.appendInplace piece.bytes
  if done then some b
  else do
    let slice ← piece.toBufferSlice
    some { b with toAppend := b.toAppend ++ [slice] }

def prepend (b : BufferBuilder) (piece : Piece) : Option BufferBuilder := do
  let (b, done) ← b.prependInplace piece.bytes
  if done then some b
  else do
    let slice ← piece.toBufferSlice
    some { b with toPrepend := b.toPrepend ++ [slice] }

/-- What the writer contributes to `for_each`. -/
def written (b : BufferBuilder) : Option (List (List UInt8)) :=
  match b.bufferWriter with
  | none => some []
  | some raw => if raw.begin_ = raw.end_ then some [] else raw.asSlice.map fun bytes => [bytes]

/-- The slices that `for_each` visits. -/
def forEach (b : BufferBuilder) : Option (List (List UInt8)) :=
  b.written.map fun written => b.toPrepend.reverse ++ written ++ b.toAppend

def size (b : BufferBuilder) : Option ℕ :=
  b.forEach.map fun slices => slices.foldl (fun total slice => Word.add 64 total slice.length) 0

/-- What `extract` does with each slice. -/
def copySlice (w : BufferWriter) (slice : List UInt8) : Option BufferWriter := do
  let w ← w.copyFrom (w.prepareAppend.truncate slice.length) slice
  w.confirmAppend slice.length

/-- The builder, and the bytes of the slice that is returned. -/
def extract (b : BufferBuilder) : Option (BufferBuilder × List UInt8) :=
  if b.toAppend = [] ∧ b.toPrepend = [] then
    b.bufferWriter.asBufferSlice.map fun r => ({ b with bufferWriter := r.1 }, r.2)
  else do
    let totalSize ← b.size
    let slices ← b.forEach
    let writer ← slices.foldlM copySlice (some (createWriter 0 0 totalSize))
    let (_, bytes) ← writer.asBufferSlice
    some (empty, bytes)

inductive Edit where
  | append (piece : Piece)
  | prepend (piece : Piece)
deriving DecidableEq

namespace Edit

def piece : Edit → Piece
  | append piece => piece
  | prepend piece => piece

def appended : Edit → Option (List UInt8)
  | append piece => some piece.bytes
  | prepend _ => none

def prepended : Edit → Option (List UInt8)
  | append _ => none
  | prepend piece => some piece.bytes

end Edit

inductive Op where
  | edit (edit : Edit)
  | extract
deriving DecidableEq

def edit (b : BufferBuilder) : Edit → Option BufferBuilder
  | .append piece => b.append piece
  | .prepend piece => b.prepend piece

/-- An operation, and what it returns. -/
def step (b : BufferBuilder) : Op → Option (BufferBuilder × Option (List UInt8))
  | .edit e => (b.edit e).map fun b => (b, none)
  | .extract => b.extract.map fun r => (r.1, some r.2)

def machine : Machine BufferBuilder Op (Option (List UInt8)) := ⟨step⟩

end BufferBuilder

end TdUtils
