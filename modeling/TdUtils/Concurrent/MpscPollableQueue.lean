import Mathlib.Algebra.Group.Nat.Defs
import Mathlib.Logic.Function.Basic
import TdUtils.Lib.Machine

/-!
# Concurrent.MpscPollableQueue — any number of writers, one reader, an event

Each event is a critical section, an operation on the event fd, or what the reader does on its own.  A thread
that is asked to do what it cannot do at that moment does nothing; `none` is a failed `narrow_cast`.
-/

namespace TdUtils

/-- Where the reader is: between two calls, with the result of the last one; at `lock_.lock()` of a round;
or at `event_fd_.acquire()`, with the lock. -/
inductive MpscPollableQueue.ReaderAt where
  | idle (res : Option ℕ)
  | look (i : Fin 2)
  | acquire
deriving DecidableEq

/-- `releasing i` is whether writer `i` has left its critical section and is at `event_fd_.release()`. -/
structure MpscPollableQueue (ι α : Type) where
  waitEventFd : Bool := false
  eventFd : Bool := false
  writerVector : List α := []
  readerVector : List α := []
  readerPos : ℕ := 0
  reader : MpscPollableQueue.ReaderAt := .idle none
  releasing : ι → Bool := fun _ => false

namespace MpscPollableQueue

inductive Event (ι α : Type) where
  | put (i : ι) (value : α)
  | release (i : ι)
  | wait
  | step
  | get
deriving DecidableEq

inductive Answer (α : Type) where
  | nothing
  | put
  | ready (n : ℕ)
  | got (value : α)
deriving DecidableEq

def narrowCast (n : ℕ) : Option ℕ := if n < 2 ^ 31 then some n else none

variable {ι α : Type}

/-- `reader_wait_nonblock` returns. -/
def returns (s : MpscPollableQueue ι α) (n : ℕ) : Option (MpscPollableQueue ι α × Answer α) :=
  (narrowCast n).map fun res => ({ s with reader := .idle (some res) }, .ready res)

/-- The loop body of `reader_wait_nonblock` up to `event_fd_.acquire()`. -/
def look (s : MpscPollableQueue ι α) (i : Fin 2) : Option (MpscPollableQueue ι α × Answer α) :=
  if s.writerVector = [] then
    if i = 1 then
      returns { s with waitEventFd := true } 0
    else some ({ s with reader := .acquire }, .nothing)
  else
    returns { s with readerVector := s.writerVector, writerVector := [], readerPos := 0 } s.writerVector.length

def writerPut [DecidableEq ι] (s : MpscPollableQueue ι α) (i : ι) (value : α) : MpscPollableQueue ι α :=
  let s := { s with writerVector := s.writerVector ++ [value] }
  if s.waitEventFd then
    { s with waitEventFd := false, releasing := Function.update s.releasing i true }
  else s

def step [DecidableEq ι] (s : MpscPollableQueue ι α) :
    Event ι α → Option (MpscPollableQueue ι α × Answer α)
  | .put i value =>
    if s.releasing i ∨ s.reader = .acquire then some (s, .nothing) else some (s.writerPut i value, .put)
  | .release i =>
    if s.releasing i then
      some ({ s with eventFd := true, releasing := Function.update s.releasing i false }, .nothing)
    else some (s, .nothing)
  | .wait =>
    match s.reader with
    | .idle _ =>
      if s.readerVector.length - s.readerPos ≠ 0 then s.returns (s.readerVector.length - s.readerPos)
      else some ({ s with reader := .look 0 }, .nothing)
    | _ => some (s, .nothing)
  | .step =>
    match s.reader with
    | .idle _ => some (s, .nothing)
    | .look i => s.look i
    | .acquire => some ({ s with eventFd := false, reader := .look 1 }, .nothing)
  | .get =>
    match s.reader, s.readerVector[s.readerPos]? with
    | .idle _, some value => some ({ s with readerPos := s.readerPos + 1 }, .got value)
    | _, _ => some (s, .nothing)

def machine (ι α : Type) [DecidableEq ι] :
    Lib.Machine (MpscPollableQueue ι α) (Event ι α) (Answer α) := ⟨step⟩

def start (ι α : Type) : MpscPollableQueue ι α := {}

/-- The values put, in the order of the critical sections. -/
def puts (history : List (Event ι α × Answer α)) : List α :=
  history.filterMap fun
    | (.put _ value, .put) => some value
    | _ => none

/-- The values that the reader got. -/
def received (history : List (Event ι α × Answer α)) : List α :=
  history.filterMap fun
    | (.get, .got value) => some value
    | _ => none

/-- The last call has returned 0. -/
def Waiting (s : MpscPollableQueue ι α) : Prop := s.reader = .idle (some 0)

/-- Somebody has made the event ready or is about to. -/
def Woken (s : MpscPollableQueue ι α) : Prop := s.eventFd = true ∨ ∃ i, s.releasing i = true

/-- What was put and not got. -/
def unread (s : MpscPollableQueue ι α) : List α := s.readerVector.drop s.readerPos ++ s.writerVector

/-- A reader that looks for more has read all it had; one that waits has armed the flag with nothing to read,
or it is woken. -/
structure Inv (s : MpscPollableQueue ι α) : Prop where
  looking : ∀ i, s.reader = .look i → s.readerVector.drop s.readerPos = []
  acquiring : s.reader = .acquire → s.readerVector.drop s.readerPos = []
  armed : Waiting s → (s.waitEventFd = true ∧ s.writerVector = []) ∨ Woken s

/-- A put that is not blocked is made, a reader that is told of `n` values has them, and it gets those that it has. -/
structure Serves [DecidableEq ι] (s : MpscPollableQueue ι α) : Prop where
  puts : ∀ i value, s.releasing i = false → s.reader ≠ .acquire → ∃ t, s.step (.put i value) = some (t, .put)
  ready : ∀ event t n, s.step event = some (t, .ready n) → (t.readerVector.drop t.readerPos).length = n
  gets : ∀ res, s.reader = .idle res → s.readerVector.drop s.readerPos ≠ [] →
    ∃ t value, s.step .get = some (t, .got value)

variable {s t : MpscPollableQueue ι α} {event : Event ι α} {answer : Answer α}

theorem returns_eq {n : ℕ} (h : s.returns n = some (t, answer)) :
    t = { s with reader := .idle (some n) } ∧ answer = .ready n := by
  unfold returns narrowCast at h
  split_ifs at h
  · cases h
    exact ⟨rfl, rfl⟩
  · cases h

theorem puts_concat (history : List (Event ι α × Answer α)) (e : Event ι α × Answer α) :
    puts (history ++ [e]) = puts history ++ puts [e] := List.filterMap_append

theorem received_concat (history : List (Event ι α × Answer α)) (e : Event ι α × Answer α) :
    received (history ++ [e]) = received history ++ received [e] := List.filterMap_append

theorem inv_start : Inv (start ι α) :=
  ⟨fun _ hj => (by cases hj), fun hj => (by cases hj), fun hj => by cases hj⟩

/-- What a step does to the invariant and to the values. -/
def Keeps (s : MpscPollableQueue ι α) (event : Event ι α) (t : MpscPollableQueue ι α) (answer : Answer α) :
    Prop :=
  Inv t ∧ s.unread ++ puts [(event, answer)] = received [(event, answer)] ++ t.unread

theorem Inv.put [DecidableEq ι] (h : Inv s) (i : ι) (value : α) : Keeps s (.put i value) (s.writerPut i value) .put := by
  have hunread : s.unread ++ [value] = (s.writerPut i value).unread := by
    unfold unread writerPut
    dsimp only
    split_ifs <;> exact List.append_assoc _ _ _
  refine ⟨?_, hunread⟩
  unfold writerPut
  dsimp only
  split_ifs with hwait
  · exact ⟨h.looking, h.acquiring, fun _ => Or.inr (Or.inr ⟨i, Function.update_self _ _ _⟩)⟩
  · refine ⟨h.looking, h.acquiring, fun hidle => ?_⟩
    rcases h.armed hidle with ⟨harmed, -⟩ | hwoken
    · exact absurd harmed hwait
    · exact Or.inr hwoken

theorem Inv.release [DecidableEq ι] (h : Inv s) (i : ι) :
    Keeps s (.release i) { s with eventFd := true, releasing := Function.update s.releasing i false }
      .nothing :=
  ⟨⟨h.looking, h.acquiring, fun _ => Or.inr (Or.inl rfl)⟩, List.append_nil _⟩

theorem Inv.looks (h : Inv s) {i : Fin 2} (hat : s.reader = .look i)
    (hrun : s.look i = some (t, answer)) : Keeps s .step t answer := by
  have hread := h.looking i hat
  unfold look at hrun
  split_ifs at hrun with hempty hlast
  · obtain ⟨rfl, rfl⟩ := returns_eq hrun
    exact ⟨⟨fun j hj => (by cases hj), fun hj => (by cases hj), fun _ => Or.inl ⟨rfl, hempty⟩⟩,
      List.append_nil _⟩
  · cases hrun
    exact ⟨⟨fun j hj => (by cases hj), fun _ => hread, fun hj => by cases hj⟩, List.append_nil _⟩
  · obtain ⟨rfl, rfl⟩ := returns_eq hrun
    refine ⟨⟨fun j hj => (by cases hj), fun hj => (by cases hj), fun hwait => ?_⟩, ?_⟩
    · have hzero := Option.some.inj (ReaderAt.idle.inj hwait)
      exact absurd (List.eq_nil_of_length_eq_zero hzero) hempty
    · unfold unread
      dsimp only
      rw [hread, List.drop_zero, List.append_nil]
      exact List.append_nil _

theorem Inv.step [DecidableEq ι] (h : Inv s) (hrun : s.step event = some (t, answer)) :
    Keeps s event t answer := by
  have hsame : ∀ event : Event ι α, Keeps s event s .nothing := by
    intro event
    cases event <;> exact ⟨h, List.append_nil _⟩
  cases event with
  | put i value =>
    dsimp only [MpscPollableQueue.step] at hrun
    split_ifs at hrun
    · cases hrun
      exact hsame _
    · cases hrun
      exact h.put i value
  | release i =>
    dsimp only [MpscPollableQueue.step] at hrun
    split_ifs at hrun
    · cases hrun
      exact h.release i
    · cases hrun
      exact hsame _
  | wait =>
    dsimp only [MpscPollableQueue.step] at hrun
    cases hat : s.reader with
    | idle res =>
      rw [hat] at hrun
      dsimp only at hrun
      split_ifs at hrun with hready
      · obtain ⟨rfl, rfl⟩ := returns_eq hrun
        refine ⟨⟨fun j hj => (by cases hj), fun hj => (by cases hj), fun hwait => ?_⟩, List.append_nil _⟩
        exact absurd (Option.some.inj (ReaderAt.idle.inj hwait)) hready
      · cases hrun
        have hread : s.readerVector.drop s.readerPos = [] := by
          apply List.drop_eq_nil_of_le
          omega
        exact ⟨⟨fun _ _ => hread, fun hj => (by cases hj), fun hj => by cases hj⟩, List.append_nil _⟩
    | look i =>
      rw [hat] at hrun
      cases hrun
      exact hsame _
    | acquire =>
      rw [hat] at hrun
      cases hrun
      exact hsame _
  | step =>
    dsimp only [MpscPollableQueue.step] at hrun
    cases hat : s.reader with
    | idle res =>
      rw [hat] at hrun
      cases hrun
      exact hsame _
    | look i =>
      rw [hat] at hrun
      exact h.looks hat hrun
    | acquire =>
      rw [hat] at hrun
      cases hrun
      exact ⟨⟨fun _ _ => h.acquiring hat, fun hj => (by cases hj), fun hj => by cases hj⟩, List.append_nil _⟩
  | get =>
    dsimp only [MpscPollableQueue.step] at hrun
    split at hrun
    · rename_i value hat hvalue
      cases hrun
      obtain ⟨hlt, hget⟩ := List.getElem?_eq_some_iff.mp hvalue
      refine ⟨⟨fun j hj => ?_, fun hj => ?_, h.armed⟩, ?_⟩
      · rw [hat] at hj
        cases hj
      · rw [hat] at hj
        cases hj
      · unfold unread
        dsimp only
        rw [List.drop_eq_getElem_cons hlt, hget]
        exact List.append_nil _
    · cases hrun
      exact hsame _

theorem Inv.looks_ready (h : Inv s) {i : Fin 2} {n : ℕ} (hat : s.reader = .look i) (hrun : s.look i = some (t, .ready n)) :
    (t.readerVector.drop t.readerPos).length = n := by
  unfold look at hrun
  split_ifs at hrun with hempty hlast
  · obtain ⟨rfl, hn⟩ := returns_eq hrun
    obtain rfl := Answer.ready.inj hn
    exact congrArg List.length (h.looking i hat)
  · cases hrun
  · obtain ⟨rfl, hn⟩ := returns_eq hrun
    obtain rfl := Answer.ready.inj hn
    rfl

theorem Inv.serves [DecidableEq ι] (h : Inv s) : Serves s := by
  constructor
  · intro i value hreleasing hacquire
    refine ⟨_, if_neg ?_⟩
    rw [hreleasing, not_or]
    exact ⟨Bool.false_ne_true, hacquire⟩
  · intro event t n hrun
    cases event with
    | put i value =>
      dsimp only [MpscPollableQueue.step] at hrun
      split_ifs at hrun
      · cases hrun
      · cases hrun
    | release i =>
      dsimp only [MpscPollableQueue.step] at hrun
      split_ifs at hrun
      · cases hrun
      · cases hrun
    | wait =>
      dsimp only [MpscPollableQueue.step] at hrun
      split at hrun
      · split_ifs at hrun
        · obtain ⟨rfl, hn⟩ := returns_eq hrun
          obtain rfl := Answer.ready.inj hn
          exact List.length_drop
        · cases hrun
      · cases hrun
    | step =>
      dsimp only [MpscPollableQueue.step] at hrun
      split at hrun
      · cases hrun
      · next i hat => exact h.looks_ready hat hrun
      · cases hrun
    | get =>
      dsimp only [MpscPollableQueue.step] at hrun
      split at hrun
      · cases hrun
      · cases hrun
  · intro res hidle hdata
    have hlt : s.readerPos < s.readerVector.length := Nat.lt_of_not_le fun hle => hdata (List.drop_eq_nil_of_le hle)
    refine ⟨{ s with readerPos := s.readerPos + 1 }, s.readerVector[s.readerPos], ?_⟩
    dsimp only [MpscPollableQueue.step]
    rw [hidle, List.getElem?_eq_getElem hlt]

/-- After any events the reader has got a part of what was put, in that order, the rest is stored once, a reader that waits
while there is something to read has been woken, and a call that is not blocked does its work. -/
theorem received_in_order [DecidableEq ι] {history : List (Event ι α × Answer α)}
    (h : (machine ι α).History (start ι α) history s) :
    puts history = received history ++ s.unread ∧
      (Waiting s → s.writerVector ≠ [] → s.eventFd = true ∨ ∃ i, s.releasing i = true) ∧ Serves s := by
  have hinv : Inv s ∧ puts history = received history ++ s.unread := by
    refine Lib.Machine.history_of_step (M := machine ι α)
      (P := fun history s => Inv s ∧ puts history = received history ++ s.unread) ⟨inv_start, rfl⟩ ?_ history h
    rintro history s event t answer ⟨hs, hvalues⟩ hrun
    obtain ⟨ht, hkeeps⟩ := hs.step hrun
    refine ⟨ht, ?_⟩
    rw [puts_concat, received_concat, hvalues, List.append_assoc, hkeeps, List.append_assoc]
  refine ⟨hinv.2, fun hwait hdata => ?_, hinv.1.serves⟩
  rcases hinv.1.armed hwait with ⟨-, hempty⟩ | hwoken
  · exact absurd hempty hdata
  · exact hwoken

/-- The reader waits, a value is put, and another one before the first writer makes the event ready. -/
theorem received_in_order_two : ∃ s : MpscPollableQueue Bool ℕ,
    puts [(.wait, .nothing), (.step, .nothing), (.step, .nothing), (.step, .ready 0), (.put false 7, .put),
        (.put true 8, .put), (.wait, .nothing), (.step, .ready 2), (.release false, .nothing),
        ((.get : Event Bool ℕ), .got 7)] =
      received [(.wait, .nothing), (.step, .nothing), (.step, .nothing), (.step, .ready 0),
        (.put false 7, .put), (.put true 8, .put), (.wait, .nothing), (.step, .ready 2),
        (.release false, .nothing), ((.get : Event Bool ℕ), .got 7)] ++ s.unread ∧
      (Waiting s → s.writerVector ≠ [] → s.eventFd = true ∨ ∃ i, s.releasing i = true) ∧ Serves s :=
  ⟨⟨false, true, [], [7, 8], 1, .idle (some 2),
    Function.update (Function.update (fun _ => false) false true) false false⟩, received_in_order (by rfl)⟩

end MpscPollableQueue

end TdUtils
