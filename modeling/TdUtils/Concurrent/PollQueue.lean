import TdUtils.Concurrent.SpscChainQueue

/-!
# Concurrent.PollQueue — a queue whose reader waits for an event

Each event here is a whole call of one side: its first step in `SpscChainQueue` and all the others at once.
-/

namespace TdUtils

/-- `waitState` and `writerWaitState` are the words of the two ints. -/
structure PollQueue (p : ℕ) (α : Type) where
  queue : SpscChainQueue p α
  eventFd : Bool := false
  waitState : ℕ := 0
  writerWaitState : ℕ := 0

namespace PollQueue

variable {p : ℕ} {α : Type}

/-! ### Calls of the queue -/

/-- A call of the writer takes at most seven steps. -/
def writerCall (q : SpscChainQueue p α) (event : SpscChainQueue.Event α) : Option (SpscChainQueue p α) :=
  ((SpscChainQueue.machine p α).run q (event :: List.replicate 7 .writer)).map Prod.fst

def sizeOf (answers : List (SpscChainQueue.Answer α)) : Option ℤ :=
  answers.findSome? fun
    | .ready size => some size
    | _ => none

/-- `reader_update`, which takes at most five steps. -/
def readerUpdate (q : SpscChainQueue p α) : Option (SpscChainQueue p α × ℤ) :=
  match (SpscChainQueue.machine p α).run q (.readerUpdate :: List.replicate 5 .reader) with
  | none => none
  | some (q', answers) => (sizeOf answers).map fun size => (q', size)

/-- `reader_wait` of `BackoffQueue`, when `Backoff::next` is true `n` more times. -/
def readerWait (q : SpscChainQueue p α) : ℕ → Option (SpscChainQueue p α × ℤ)
  | 0 => readerUpdate q
  | n + 1 =>
    match readerUpdate q with
    | none => none
    | some (q', size) => if size ≠ 0 then some (q', size) else readerWait q' n

/-- Whether a flush would publish something. -/
def publishes (q : SpscChainQueue p α) : Bool :=
  match q.tailQ with
  | none => false
  | some q => q.writer.i ≠ q.writer.localWriterI

/-! ### Calls of the poll queue -/

inductive Event (α : Type) where
  | writerPut (value : α)
  | writerFlush
  | readerWaitNonblock
  | readerGet
  | readerFlush

inductive Answer (α : Type) where
  | nothing
  | flushed (published : Bool)
  | ready (size : ℤ)
  | got (value : α)
deriving DecidableEq

def odd (waitState : ℕ) : Bool := waitState % 2 = 1

def incWaitState (s : PollQueue p α) : PollQueue p α := { s with waitState := (s.waitState + 1) % 2 ^ 32 }

def writerFlush (s : PollQueue p α) : Option (PollQueue p α × Answer α) :=
  let oldWaitState := s.waitState
  match writerCall s.queue .writerFlush with
  | none => none
  | some queue =>
    let answer := Answer.flushed (publishes s.queue)
    if odd s.waitState ∧ s.waitState ≠ s.writerWaitState then
      some ({ s with queue := queue, eventFd := true, writerWaitState := oldWaitState }, answer)
    else some ({ s with queue := queue }, answer)

/-- The end of `reader_wait_nonblock`. -/
def acquire (s : PollQueue p α) : Option (PollQueue p α × Answer α) :=
  match readerUpdate s.queue with
  | none => none
  | some (queue, size) =>
    let s := { s with queue := queue, eventFd := false }
    if size ≠ 0 then some (s.incWaitState, .ready size) else some (s, .ready size)

/-- `reader_wait_nonblock` after its `reader_wait` has found nothing. -/
def arm (s : PollQueue p α) : Option (PollQueue p α × Answer α) :=
  let s := s.incWaitState
  match readerUpdate s.queue with
  | none => none
  | some (queue, size) =>
    let s := { s with queue := queue }
    if size ≠ 0 then some (s.incWaitState, .ready size) else s.acquire

def readerWaitNonblock (s : PollQueue p α) : Option (PollQueue p α × Answer α) :=
  if odd s.waitState then s.acquire
  else
    match readerWait s.queue 2 with
    | none => none
    | some (queue, size) =>
      let s := { s with queue := queue }
      if size ≠ 0 then some (s, .ready size) else s.arm

def step (s : PollQueue p α) : Event α → Option (PollQueue p α × Answer α)
  | .writerPut value => (writerCall s.queue (.writerPut value)).map fun queue => ({ s with queue := queue }, .nothing)
  | .writerFlush => s.writerFlush
  | .readerWaitNonblock => s.readerWaitNonblock
  | .readerGet =>
    match s.queue.step .readerGet with
    | none => none
    | some (queue, .got value) => some ({ s with queue := queue }, .got value)
    | some (queue, _) => some ({ s with queue := queue }, .nothing)
  | .readerFlush => (s.queue.step .readerFlush).map fun r => ({ s with queue := r.1 }, .nothing)

def machine (p : ℕ) (α : Type) : Lib.Machine (PollQueue p α) (Event α) (Answer α) := ⟨step⟩

/-- `init`. -/
def start (p : ℕ) (α : Type) : PollQueue p α where
  queue := SpscChainQueue.start p α

/-! ### Waiting for the event -/

/-- Whether the reader's last `reader_wait_nonblock` has returned 0, and whether a flush has published
something since then. -/
structure Watch where
  waiting : Bool := false
  published : Bool := false

def Watch.add (watch : Watch) : Answer α → Watch
  | .ready size => ⟨size = 0, false⟩
  | .flushed published => { watch with published := watch.published || published }
  | .nothing | .got _ => watch

def watchOf (answers : List (Answer α)) : Watch := answers.foldl Watch.add {}

theorem watchOf_concat (answers : List (Answer α)) (answer : Answer α) :
    watchOf (answers ++ [answer]) = (watchOf answers).add answer := by
  unfold watchOf
  rw [List.foldl_append]
  rfl

/-- Whether a published item is not yet read: in the reader's block, or in the one after it. -/
def hasUnread (q : SpscChainQueue p α) : Bool :=
  let unreadIn := fun (node : SpscChainQueue.Node p α) => node.q.writer.i ≠ node.q.reader.localReaderI
  match q.nodes q.head with
  | none => false
  | some node => unreadIn node || (node.next.bind q.nodes).any unreadIn

/-- The wait state that the reader is left with when it waits is not the one that the writer has answered. -/
def Fresh (s : PollQueue p α) : Event α → Prop
  | .readerWaitNonblock =>
    hasUnread s.queue = true ∨ (if odd s.waitState then s.waitState else s.waitState + 1) ≠ s.writerWaitState
  | _ => True

instance decidableFresh (s : PollQueue p α) : ∀ event, Decidable (s.Fresh event)
  | .readerWaitNonblock => inferInstanceAs (Decidable (hasUnread s.queue = true ∨ _))
  | .writerPut _ => isTrue trivial
  | .writerFlush => isTrue trivial
  | .readerGet => isTrue trivial
  | .readerFlush => isTrue trivial

end PollQueue

end TdUtils
