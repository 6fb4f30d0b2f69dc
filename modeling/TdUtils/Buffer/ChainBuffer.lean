import Mathlib.Algebra.Group.Nat.Defs
import Mathlib.Data.Nat.Notation
import TdUtils.Lib.Word

/-!
# Buffer.ChainBuffer — a chain of buffers, its writer and its readers

A `BufferRaw` is named by its number.  Node `i + 1` is the `next_` of node `i`, and the last node is the
`tail_` of the writer, the one node whose `has_writer_` is set.  A `Slice` into a buffer is written as a
`BufferSlice`.  `none` is a failed `CHECK`, bytes that are written outside of the memory of a buffer, or a loop that
is out of fuel.
-/

namespace TdUtils

open Lib

/-- `data` is what stands before `end_`; `begin_` is 0 in the buffers of a chain. -/
structure BufferRaw where
  dataSize : ℕ
  data : List UInt8
deriving DecidableEq

namespace BufferRaw

/-- `(size + 7) & -8` on 64 bits. -/
def roundUp (size : ℕ) : ℕ := (size + 7) % 2 ^ 64 / 8 * 8

/-- Where `data_` starts, and the size of a `BufferRaw`. -/
def dataOffset : ℕ := 32
def rawSize : ℕ := 40

/-- What `create_buffer_raw` allocates for so many bytes of data. -/
def bufSize (dataSize : ℕ) : ℕ :=
  let bufSize := Word.add 64 dataOffset dataSize
  if bufSize < rawSize then rawSize else bufSize

/-- How much of that is behind the header. -/
def memory (dataSize : ℕ) : ℕ := bufSize dataSize - dataOffset

theorem memory_of_lt {dataSize : ℕ} (h : dataOffset + dataSize < 2 ^ 64) : memory dataSize = max 8 dataSize := by
  unfold memory bufSize
  rw [Word.add_of_lt h]
  unfold dataOffset rawSize
  dsimp only
  split_ifs <;> omega

theorem memory_of_wrap {dataSize : ℕ} (h : 2 ^ 64 ≤ dataOffset + dataSize) (hlt : dataSize < 2 ^ 64) :
    memory dataSize = 8 := by
  have hsum : Word.add 64 dataOffset dataSize < dataOffset := by
    rw [Word.add_of_ge h (Nat.add_lt_add (by decide) hlt)]
    omega
  unfold dataOffset at hsum
  unfold memory bufSize dataOffset rawSize
  dsimp only
  rw [if_pos (Nat.lt_trans hsum (by decide))]

theorem memory_lt (dataSize : ℕ) : memory dataSize < 2 ^ 64 := by
  have hlt : Word.add 64 dataOffset dataSize < 2 ^ 64 := Nat.mod_lt _ (Nat.two_pow_pos 64)
  unfold memory bufSize rawSize
  dsimp only
  split_ifs <;> omega

/-- `create_writer`. -/
def create (size : ℕ) : BufferRaw := ⟨roundUp (if size < 512 then 512 else size), []⟩

/-- A buffer has the memory that it says it has, unless its size with the header wraps. -/
theorem le_memory_create {size : ℕ} (h : size ≤ 2 ^ 64 - 40) :
    (create size).dataSize ≤ memory (create size).dataSize := by
  have hlt : dataOffset + (create size).dataSize < 2 ^ 64 := by
    unfold create roundUp dataOffset
    dsimp only
    split_ifs <;> omega
  rw [memory_of_lt hlt]
  exact Nat.le_max_right _ _

end BufferRaw

structure BufferSlice where
  buffer : Option ℕ
  begin_ : ℕ
  end_ : ℕ
deriving DecidableEq

namespace BufferSlice

def null : BufferSlice := ⟨none, 0, 0⟩

def size (s : BufferSlice) : ℕ := if s.buffer.isNone then 0 else s.end_ - s.begin_

/-- What stands in the buffer. -/
def written (raws : List BufferRaw) (s : BufferSlice) : List UInt8 :=
  match s.buffer with
  | none => []
  | some a => (raws[a]?.map BufferRaw.data).getD []

def asSlice (raws : List BufferRaw) (s : BufferSlice) : List UInt8 :=
  ((s.written raws).take s.end_).drop s.begin_

/-- A slice that a caller may have: null, or of something that was written. -/
def holds (raws : List BufferRaw) (s : BufferSlice) : Bool :=
  s = .null ∨ ∃ a ∈ s.buffer, a < raws.length ∧ s.begin_ ≤ s.end_ ∧ s.end_ ≤ (s.written raws).length

def confirmRead (s : BufferSlice) (size : ℕ) : Option BufferSlice :=
  if s.begin_ + size ≤ s.end_ then some { s with begin_ := s.begin_ + size } else none

def truncate (s : BufferSlice) (limit : ℕ) : BufferSlice :=
  if limit < s.size then { s with end_ := s.begin_ + limit } else s

def syncWithWriter (raws : List BufferRaw) (s : BufferSlice) : Option BufferSlice :=
  if s.buffer.isNone then none else some { s with end_ := (s.written raws).length }

end BufferSlice

structure ChainBufferNode where
  slice : BufferSlice
  syncFlag : Bool
deriving DecidableEq

/-- The writer with the buffers and the nodes; `head` is whether `head_` is still there. -/
structure ChainBuffer where
  raws : List BufferRaw
  nodes : List ChainBufferNode
  writer : Option ℕ
  head : Bool
deriving DecidableEq

namespace ChainBufferNode

/-- The node as it stands: a synced one goes on to what its buffer has by now. -/
def current (raws : List BufferRaw) (node : ChainBufferNode) : BufferSlice :=
  if node.syncFlag then { node.slice with end_ := (node.slice.written raws).length } else node.slice

end ChainBufferNode

namespace ChainBuffer

def hasWriter (c : ChainBuffer) (node : ℕ) : Bool := node + 1 == c.nodes.length

def next (c : ChainBuffer) (node : ℕ) : Option ℕ :=
  if node + 1 < c.nodes.length then some (node + 1) else none

/-- All bytes in the nodes. -/
def contents (c : ChainBuffer) : List UInt8 :=
  c.nodes.flatMap fun node => (node.current c.raws).asSlice c.raws

end ChainBuffer

structure ChainBufferIterator where
  head : Option ℕ
  reader : BufferSlice
  needSync : Bool
  offset : ℕ
deriving DecidableEq

namespace ChainBufferIterator

variable (c : ChainBuffer)

def null : ChainBufferIterator := ⟨none, .null, false, 0⟩

/-- With this `head_`, loaded. -/
def loadHead (it : ChainBufferIterator) (head : Option ℕ) : ChainBufferIterator :=
  match head.bind fun node => c.nodes[node]? with
  | none => { it with head := none }
  | some node => { it with head := head, reader := node.slice, needSync := node.syncFlag }

/-- `ChainBufferIterator(head)`. -/
def ofHead (head : ℕ) : ChainBufferIterator := null.loadHead c (some head)

def prepareReadLoop : ℕ → ChainBufferIterator → Option (ChainBufferIterator × BufferSlice)
  | 0, _ => none
  | fuel + 1, it =>
    match it.head with
    | none => some (it, .null)
    | some node =>
      if it.reader.size ≠ 0 then some (it, it.reader)
      else
        (if it.needSync then it.reader.syncWithWriter c.raws else some it.reader).bind fun reader =>
          if reader.size ≠ 0 then some ({ it with reader := reader }, reader)
          else if c.hasWriter node then some ({ it with reader := reader }, .null)
          else prepareReadLoop fuel ({ it with reader := reader }.loadHead c (c.next node))

def prepareRead (it : ChainBufferIterator) : Option (ChainBufferIterator × BufferSlice) :=
  prepareReadLoop c (c.nodes.length + 1) it

def confirmRead (it : ChainBufferIterator) (size : ℕ) : Option ChainBufferIterator :=
  (it.reader.confirmRead size).map fun reader => { it with reader := reader, offset := it.offset + size }

/-- The slice read, and the iterator behind it. -/
def readAsBufferSlice (it : ChainBufferIterator) (limit : ℕ) :
    Option (ChainBufferIterator × BufferSlice) :=
  (it.prepareRead c).bind fun (it, _) =>
    let res := it.reader.truncate limit
    (it.confirmRead res.size).map fun it => (it, res)

def advanceTillEndLoop : ℕ → ChainBufferIterator → Option ChainBufferIterator
  | 0, _ => none
  | fuel + 1, it =>
    (it.prepareRead c).bind fun (it, ready) =>
      if ready.size = 0 then some it
      else (it.confirmRead ready.size).bind fun it => advanceTillEndLoop fuel it

def advanceTillEnd (it : ChainBufferIterator) : Option ChainBufferIterator :=
  advanceTillEndLoop c (c.contents.length + 1) it

/-- The state of the loop of `advance` beside the iterator: what is left of `offset`, the bytes skipped,
the room left in `dest` and what was copied there. -/
structure Advance where
  offset : ℕ
  skipped : ℕ
  room : ℕ
  copied : List UInt8
deriving DecidableEq

def advanceLoop : ℕ → ChainBufferIterator → Advance → Option (ChainBufferIterator × Advance)
  | 0, _, _ => none
  | fuel + 1, it, a =>
    if a.offset = 0 then some (it, a)
    else
      (it.prepareRead c).bind fun (it, ready) =>
        if ready.size = 0 then some (it, a)
        else
          let ready := ready.truncate a.offset
          let toDestSize := min ready.size a.room
          (it.confirmRead ready.size).bind fun it =>
            advanceLoop fuel it ⟨a.offset - ready.size, a.skipped + ready.size, a.room - toDestSize,
              a.copied ++ (ready.asSlice c.raws).take toDestSize⟩

/-- The number of bytes skipped, and the bytes copied to a `dest` of the given size. -/
def advance (it : ChainBufferIterator) (offset dest : ℕ) :
    Option (ChainBufferIterator × ℕ × List UInt8) :=
  (advanceLoop c (offset + 1) it ⟨offset, 0, dest, []⟩).map fun (it, a) => (it, a.skipped, a.copied)

end ChainBufferIterator

structure ChainBufferReader where
  begin_ : ChainBufferIterator
  end_ : ChainBufferIterator
  syncFlag : Bool
deriving DecidableEq

namespace ChainBufferReader

variable (c : ChainBuffer)

/-- `ChainBufferReader()`. -/
def null : ChainBufferReader := ⟨.null, .null, true⟩

/-- `ChainBufferReader(head)`. -/
def ofHead (head : ℕ) : Option ChainBufferReader :=
  ((ChainBufferIterator.ofHead c head).advanceTillEnd c).map fun end_ => ⟨.ofHead c head, end_, true⟩

def size (r : ChainBufferReader) : ℕ := r.end_.offset - r.begin_.offset

def prepareRead (r : ChainBufferReader) : Option (ChainBufferReader × BufferSlice) :=
  (r.begin_.prepareRead c).map fun (it, res) => ({ r with begin_ := it }, res.truncate r.size)

def confirmRead (r : ChainBufferReader) (size : ℕ) : Option ChainBufferReader :=
  if size ≤ r.size then (r.begin_.confirmRead size).map fun it => { r with begin_ := it } else none

def advance (r : ChainBufferReader) (offset dest : ℕ) :
    Option (ChainBufferReader × ℕ × List UInt8) :=
  if offset ≤ r.size then
    (r.begin_.advance c offset dest).map fun (it, res) => ({ r with begin_ := it }, res)
  else none

def syncWithWriter (r : ChainBufferReader) : Option ChainBufferReader :=
  if r.syncFlag then (r.end_.advanceTillEnd c).map fun it => { r with end_ := it } else some r

def advanceEnd (r : ChainBufferReader) (size : ℕ) : Option ChainBufferReader :=
  (r.end_.advance c size 0).map fun (it, _) => { r with end_ := it }

/-- The tail that stays, and the head. -/
def cutHead (r : ChainBufferReader) (offset : ℕ) : Option (ChainBufferReader × ChainBufferReader) :=
  if offset ≤ r.size then
    (r.begin_.advance c offset 0).map fun (it, _) =>
      ({ r with begin_ := it }, ⟨r.begin_, it, false⟩)
  else none

def readAsBufferSlice (r : ChainBufferReader) (limit : ℕ) :
    Option (ChainBufferReader × BufferSlice) :=
  (r.begin_.readAsBufferSlice c (min limit r.size)).map fun (it, res) => ({ r with begin_ := it }, res)

/-- The bytes of the slice; the reader is left null. -/
def moveAsBufferSlice (r : ChainBufferReader) : Option (ChainBufferReader × List UInt8) :=
  if r.size ≤ r.begin_.reader.size then
    (r.begin_.readAsBufferSlice c r.size).map fun (_, res) => (null, res.asSlice c.raws)
  else (r.advance c r.size r.size).map fun (_, _, res) => (null, res)

end ChainBufferReader

namespace ChainBuffer

/-- `ChainBufferWriter()`. -/
def init : ChainBuffer := ⟨[.create 0], [⟨⟨some 0, 0, 0⟩, true⟩], some 0, true⟩

/-- The size of the slice that `prepare_append_inplace` returns. -/
def prepareAppendInplace (c : ChainBuffer) : ℕ :=
  match c.writer.bind fun a => c.raws[a]? with
  | none => 0
  | some raw => raw.dataSize - raw.data.length

/-- How many bytes of the memory of the buffer are behind what was written. -/
def memoryLeft (c : ChainBuffer) : ℕ :=
  match c.writer.bind fun a => c.raws[a]? with
  | none => 0
  | some raw => BufferRaw.memory raw.dataSize - raw.data.length

def prepareAppendAlloc (c : ChainBuffer) (hint : ℕ) : ChainBuffer :=
  let hint := if hint < 1 <<< 10 then 1 <<< 12 else hint
  { c with
    raws := c.raws ++ [.create hint]
    nodes := c.nodes ++ [⟨⟨some c.raws.length, 0, 0⟩, true⟩]
    writer := some c.raws.length }

def prepareAppend (c : ChainBuffer) (hint : ℕ) : ChainBuffer :=
  if c.prepareAppendInplace = 0 then c.prepareAppendAlloc hint else c

def prepareAppendAtLeast (c : ChainBuffer) (size : ℕ) : ChainBuffer :=
  if c.prepareAppendInplace < size then c.prepareAppendAlloc size else c

/-- `confirm_append` of as many bytes, which the caller has put into the prepared slice. -/
def confirmAppend (c : ChainBuffer) (bytes : List UInt8) : Option ChainBuffer :=
  match c.writer with
  | none => if bytes.length = 0 then some c else none
  | some a =>
    if bytes.length ≤ c.prepareAppendInplace ∧ bytes.length ≤ c.memoryLeft then
      some { c with raws := c.raws.modify a fun raw => { raw with data := raw.data ++ bytes } }
    else none

/-- The loop of `append(slice, hint)`. -/
def appendLoop (hint : ℕ) : ℕ → ChainBuffer → List UInt8 → Option ChainBuffer
  | 0, _, _ => none
  | fuel + 1, c, slice =>
    if slice = [] then some c
    else
      let c := c.prepareAppend (max slice.length hint)
      let shift := min c.prepareAppendInplace slice.length
      (c.confirmAppend (slice.take shift)).bind fun c => appendLoop hint fuel c (slice.drop shift)

def append (c : ChainBuffer) (slice : List UInt8) (hint : ℕ) : Option ChainBuffer :=
  appendLoop hint (slice.length + 1) c slice

/-- `append(BufferSlice)`. -/
def appendBuffer (c : ChainBuffer) (slice : BufferSlice) : Option ChainBuffer :=
  if slice.size < 1 <<< 8 ∨ slice.size ≤ c.prepareAppendInplace then
    c.append (slice.asSlice c.raws) 0
  else some { c with nodes := c.nodes ++ [⟨slice, false⟩], writer := none }

/-- The loop of `append(ChainBufferReader)`. -/
def appendReaderLoop : ℕ → ChainBuffer → ChainBufferReader → Option (ChainBuffer × ChainBufferReader)
  | 0, _, _ => none
  | fuel + 1, c, reader =>
    if reader.size = 0 then some (c, reader)
    else
      (reader.readAsBufferSlice c reader.size).bind fun (reader, slice) =>
        (c.appendBuffer slice).bind fun c => appendReaderLoop fuel c reader

def appendReader (c : ChainBuffer) (reader : ChainBufferReader) :
    Option (ChainBuffer × ChainBufferReader) :=
  appendReaderLoop (reader.size + 1) c reader

/-- A `BufferSlice` of these bytes. -/
def newSlice (c : ChainBuffer) (bytes : List UInt8) : ChainBuffer × BufferSlice :=
  ({ c with raws := c.raws ++ [⟨bytes.length, bytes⟩] }, ⟨some c.raws.length, 0, bytes.length⟩)

def extractReader (c : ChainBuffer) : Option (ChainBuffer × ChainBufferReader) :=
  if c.head then
    (ChainBufferReader.ofHead c 0).map fun r => ({ c with head := false }, r)
  else none

end ChainBuffer

end TdUtils
