import TdUtils.Lib.Machine
import TdUtils.Concurrent.SpscBlockQueue

/-!
# Concurrent.SpscChainQueue — a chain of ring buffers, driven by `BackoffQueue::writer_put`

The writer closes a full block and goes on in a new one; the reader leaves a block that is closed and read, and
deletes it.  Each event of a running call is one access to what both sides use; `none` is a failed check, or an
access to a deleted node or to a slot without a value.
-/

namespace TdUtils

namespace SpscChainQueue

structure Node (p : ℕ) (α : Type) where
  q : SpscBlockQueue p α := {}
  isClosed : Bool := false
  next : Option ℕ := none

/-- `value` is what `writer_put` puts after `writer_update`, `none` when `writer_update` is called on its own.
`load` and `reload` read the reader's counter, `flush`, `link`, `close` and `advance` hand over to a new block,
and `store` is `writer_put_unsafe`. -/
inductive WriterAt (α : Type) where
  | idle
  | load (value : Option α)
  | flush (value : Option α)
  | link (value : Option α)
  | close (value : Option α) (newTail : ℕ)
  | advance (value : Option α) (newTail : ℕ)
  | reload (value : Option α)
  | store (value : α)

/-- The steps of `reader_update`: the load, the closed flag, the second load, the next node, its load. -/
inductive ReaderAt where
  | idle
  | load
  | closed
  | reload
  | advance
  | last
deriving DecidableEq

end SpscChainQueue

open SpscChainQueue in
/-- `fresh` is the next node that `create_node` returns; a deleted node is `none`. -/
structure SpscChainQueue (p : ℕ) (α : Type) where
  nodes : ℕ → Option (Node p α)
  head : ℕ
  tail : ℕ
  fresh : ℕ
  writer : WriterAt α := .idle
  reader : ReaderAt := .idle

namespace SpscChainQueue

inductive Event (α : Type) where
  | writerPut (value : α)
  | writerUpdate
  | writerFlush
  | writer
  | readerUpdate
  | readerGet
  | readerFlush
  | reader

/-- `put` also answers with what was in the slot; `updating` is the call of `reader_update`, `ready` its result. -/
inductive Answer (α : Type) where
  | nothing
  | updating
  | put (value : α) (overwritten : Option α)
  | writable (size : ℤ)
  | flushed
  | ready (size : ℤ)
  | got (value : α)
deriving DecidableEq

variable {p : ℕ} {α : Type}

def onNode (s : SpscChainQueue p α) (k : ℕ) (f : Node p α → Node p α) : Option (SpscChainQueue p α) :=
  (s.nodes k).map fun node => { s with nodes := Function.update s.nodes k (some (f node)) }

def onTail (s : SpscChainQueue p α) (f : SpscBlockQueue p α → SpscBlockQueue p α) :
    Option (SpscChainQueue p α) :=
  s.onNode s.tail fun node => { node with q := f node.q }

def onHead (s : SpscChainQueue p α) (f : SpscBlockQueue p α → SpscBlockQueue p α) :
    Option (SpscChainQueue p α) :=
  s.onNode s.head fun node => { node with q := f node.q }

def tailQ (s : SpscChainQueue p α) : Option (SpscBlockQueue p α) := (s.nodes s.tail).map Node.q

def headQ (s : SpscChainQueue p α) : Option (SpscBlockQueue p α) := (s.nodes s.head).map Node.q

/-! ### The writer -/

/-- `writer_update` returns `size`, and `writer_put` checks it. -/
def writerUpdated (s : SpscChainQueue p α) (size : ℤ) : Option α → Option (SpscChainQueue p α × Answer α)
  | none => some ({ s with writer := .idle }, .writable size)
  | some value => if size = 0 then none else some ({ s with writer := .store value }, .nothing)

/-- The first load of `writer_update` has found `size`. -/
def writerLoaded (s : SpscChainQueue p α) (size : ℤ) (value : Option α) : Option (SpscChainQueue p α × Answer α) :=
  if size ≠ 0 then s.writerUpdated size value else some ({ s with writer := .flush value }, .nothing)

def writerPut (s : SpscChainQueue p α) (value : α) : Option (SpscChainQueue p α × Answer α) := do
  let q ← s.tailQ
  some ({ s with writer := if q.writerEmpty then .load (some value) else .store value }, .nothing)

def writerStep (s : SpscChainQueue p α) : Option (SpscChainQueue p α × Answer α) :=
  match s.writer with
  | .idle => some (s, .nothing)
  | .load value => do
    let s ← s.onTail SpscBlockQueue.writerUpdate
    let q ← s.tailQ
    s.writerLoaded q.writerSize value
  | .flush value => do
    let s ← s.onTail SpscBlockQueue.writerFlush
    some ({ s with writer := .link value }, .flushed)
  | .link value => do
    let s' ← { s with nodes := Function.update s.nodes s.fresh (some {}), fresh := s.fresh + 1 }.onNode s.tail
      fun node => { node with next := some s.fresh }
    some ({ s' with writer := .close value s.fresh }, .nothing)
  | .close value newTail => do
    let s ← s.onNode s.tail fun node => { node with isClosed := true }
    some ({ s with writer := .advance value newTail }, .nothing)
  | .advance value newTail => some ({ s with tail := newTail, writer := .reload value }, .nothing)
  | .reload value => do
    let s ← s.onTail SpscBlockQueue.writerUpdate
    let q ← s.tailQ
    s.writerUpdated q.writerSize value
  | .store value => do
    let q ← s.tailQ
    let s ← s.onTail fun q => q.writerPutUnsafe value
    some ({ s with writer := .idle }, .put value (q.data (SpscBlockQueue.fixI p q.writer.localWriterI)))

/-! ### The reader -/

/-- A load of `reader_update` has found `size`; it goes on when that is 0. -/
def readerLoaded (s : SpscChainQueue p α) (size : ℤ) (next : ReaderAt) : SpscChainQueue p α × Answer α :=
  if size ≠ 0 then ({ s with reader := .idle }, .ready size) else ({ s with reader := next }, .nothing)

def readerStep (s : SpscChainQueue p α) : Option (SpscChainQueue p α × Answer α) :=
  match s.reader with
  | .idle => some (s, .nothing)
  | .load => do
    let s ← s.onHead SpscBlockQueue.readerUpdate
    let q ← s.headQ
    some (s.readerLoaded q.readerSize .closed)
  | .closed => do
    let node ← s.nodes s.head
    if node.isClosed then some ({ s with reader := .reload }, .nothing)
    else some ({ s with reader := .idle }, .ready 0)
  | .reload => do
    let s ← s.onHead SpscBlockQueue.readerUpdate
    let q ← s.headQ
    some (s.readerLoaded q.readerSize .advance)
  | .advance => do
    let node ← s.nodes s.head
    let next ← node.next
    some ({ s with nodes := Function.update s.nodes s.head none, head := next, reader := .last }, .nothing)
  | .last => do
    let s ← s.onHead SpscBlockQueue.readerUpdate
    let q ← s.headQ
    some ({ s with reader := .idle }, .ready q.readerSize)

def readerGet (s : SpscChainQueue p α) : Option (SpscChainQueue p α × Answer α) := do
  let q ← s.headQ
  if 0 < q.readerSize then
    let value ← q.data (SpscBlockQueue.fixI p q.reader.localReaderI)
    let s ← s.onHead SpscBlockQueue.readerGetUnsafe
    some (s, .got value)
  else some (s, .nothing)

/-- A side that is in a call goes on with it, and is asked for nothing else. -/
def step (s : SpscChainQueue p α) : Event α → Option (SpscChainQueue p α × Answer α)
  | .writerPut value => match s.writer with
    | .idle => s.writerPut value
    | _ => some (s, .nothing)
  | .writerUpdate => match s.writer with
    | .idle => some ({ s with writer := .load none }, .nothing)
    | _ => some (s, .nothing)
  | .writerFlush => match s.writer with
    | .idle => do
      let s ← s.onTail SpscBlockQueue.writerFlush
      some (s, .flushed)
    | _ => some (s, .nothing)
  | .writer => s.writerStep
  | .readerUpdate => match s.reader with
    | .idle => some ({ s with reader := .load }, .updating)
    | _ => some (s, .nothing)
  | .readerGet => match s.reader with
    | .idle => s.readerGet
    | _ => some (s, .nothing)
  | .readerFlush => match s.reader with
    | .idle => do
      let s ← s.onHead SpscBlockQueue.readerFlush
      some (s, .nothing)
    | _ => some (s, .nothing)
  | .reader => s.readerStep

def machine (p : ℕ) (α : Type) : Lib.Machine (SpscChainQueue p α) (Event α) (Answer α) := ⟨step⟩

/-- `init`. -/
def start (p : ℕ) (α : Type) : SpscChainQueue p α where
  nodes := Function.update (fun _ => none) 0 (some {})
  head := 0
  tail := 0
  fresh := 1

/-! ### What was answered -/

/-- The values that were put, those of them that were flushed, those that the reader got, and how many were
flushed when the last `reader_update` was called. -/
structure Log (α : Type) where
  puts : List α := []
  flushed : List α := []
  got : List α := []
  before : ℕ := 0

def Log.add (log : Log α) : Answer α → Log α
  | .put value _ => { log with puts := log.puts ++ [value] }
  | .flushed => { log with flushed := log.puts }
  | .got value => { log with got := log.got ++ [value] }
  | .updating => { log with before := log.flushed.length }
  | .nothing | .writable _ | .ready _ => log

def logOf (answers : List (Answer α)) : Log α := answers.foldl Log.add {}

theorem logOf_concat (answers : List (Answer α)) (answer : Answer α) :
    logOf (answers ++ [answer]) = (logOf answers).add answer := by
  unfold logOf
  rw [List.foldl_append]
  rfl

/-! ### What was called -/

/-- What the two callers know: the call that the writer is in, which is of `writer_put` when it has a value, and
the steps it has taken; the steps of the reader's call; and what was put, flushed and got by the calls that ended. -/
structure Calls (α : Type) where
  writer : Option (Option α × ℕ) := none
  reader : Option ℕ := none
  log : Log α := {}

/-- A step of the writer's call: `writer_put` ends with `.put`, and `writer_update` with `.writable`. -/
def Calls.write (k : Calls α) (value : Option α) (steps : ℕ) (answer : Answer α) : Calls α :=
  match value, answer with
  | some value, .put _ _ => { k with writer := none, log := { k.log with puts := k.log.puts ++ [value] } }
  | none, .writable _ => { k with writer := none }
  | _, .flushed => { k with writer := some (value, steps + 1), log := { k.log with flushed := k.log.puts } }
  | _, _ => { k with writer := some (value, steps + 1) }

/-- A step of the reader's call. -/
def Calls.read (k : Calls α) (steps : ℕ) : Answer α → Calls α
  | .ready _ => { k with reader := none }
  | _ => { k with reader := some (steps + 1) }

/-- The values that are put are those of the calls; a side that is in a call is asked for nothing else. -/
def Calls.add (k : Calls α) : Event α × Answer α → Calls α
  | (.writerPut value, _) => if k.writer.isSome then k else { k with writer := some (some value, 0) }
  | (.writerUpdate, _) => if k.writer.isSome then k else { k with writer := some (none, 0) }
  | (.writerFlush, _) => if k.writer.isSome then k else { k with log := { k.log with flushed := k.log.puts } }
  | (.writer, answer) => match k.writer with
    | some (value, steps) => k.write value steps answer
    | none => k
  | (.readerUpdate, _) =>
    if k.reader.isSome then k
    else { k with reader := some 0, log := { k.log with before := k.log.flushed.length } }
  | (.readerGet, .got value) =>
    if k.reader.isSome then k else { k with log := { k.log with got := k.log.got ++ [value] } }
  | (.readerGet, _) => k
  | (.readerFlush, _) => k
  | (.reader, answer) => match k.reader with
    | some steps => k.read steps answer
    | none => k

def callsOf (events : List (Event α)) (answers : List (Answer α)) : Calls α :=
  (events.zip answers).foldl Calls.add {}

end SpscChainQueue

end TdUtils
