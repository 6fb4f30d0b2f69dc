import TdUtils.Lib.Bytes

/-!
# Json.Parser — the parser over a buffer that may be rewritten

`ParserImpl<MutableSlice>`: the pointer is an offset into the buffer, `data` is what lies before it.
Errors are `Stop.error`, a failed `CHECK` is `Stop.check`; `Stop.fuel` stands for a loop of the model
that was not given enough rounds, and is shown never to happen.
-/

namespace TdUtils.Json

open Lib Bytes

/-- Why a function does not return a value. -/
inductive Stop where
  | error (message : String)
  | check
  | fuel
  deriving DecidableEq, Repr

/-- A `MutableSlice` into the buffer. -/
structure Slice where
  begin_ : ℕ
  size : ℕ
  deriving DecidableEq, Repr

/-- The bytes of a slice; none where the slice does not lie inside the buffer. -/
def Slice.read (buf : List UInt8) (s : Slice) : Option (List UInt8) :=
  if s.begin_ + s.size ≤ buf.length then some ((buf.drop s.begin_).take s.size) else none

structure Parser where
  buf : List UInt8
  ptr : ℕ
  status : Option String
  deriving DecidableEq, Repr

namespace Parser

def ofSlice (buf : List UInt8) : Parser := ⟨buf, 0, none⟩

/-- `data()`: the bytes from `ptr_` to `end_`. -/
def data (p : Parser) : List UInt8 := p.buf.drop p.ptr

/-- `ptr_ += n`. -/
def move (p : Parser) (n : ℕ) : Parser := { p with ptr := p.ptr + n }

def empty (p : Parser) : Bool := p.data.isEmpty

def peekChar (p : Parser) : UInt8 := p.data.headD 0

def skip (p : Parser) (c : UInt8) : Parser :=
  if p.status.isSome then p
  else if p.data.head? = some c then p.move 1
  else { p with status := some ("Skip [char:" ++ toText c ++ "] failed") }

def trySkip (p : Parser) (c : UInt8) : Option Parser :=
  if p.data.head? = some c then some (p.move 1) else none

/-- `try_skip(Slice prefix)`. -/
def trySkipSlice (p : Parser) (pre : List UInt8) : Option Parser :=
  if pre.length > p.data.length ∨ pre ≠ p.data.take pre.length then none
  else some (p.move pre.length)

def isWhitespace (c : UInt8) : Bool := c ∈ chs [' ', '\t', '\r', '\n']

def skipWhitespaces (p : Parser) : Parser := p.move (p.data.takeWhile isWhitespace).length

def readWhile (p : Parser) (f : UInt8 → Bool) : Parser × Slice :=
  (p.move (p.data.takeWhile f).length, ⟨p.ptr, (p.data.takeWhile f).length⟩)

def advance (p : Parser) (diff : ℕ) : Except Stop Parser :=
  if p.ptr + diff ≤ p.buf.length then .ok (p.move diff) else .error .check

end Parser

end TdUtils.Json
