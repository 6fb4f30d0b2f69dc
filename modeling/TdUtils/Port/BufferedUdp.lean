import TdUtils.Lib.Machine
import TdUtils.Lib.Memory
import TdUtils.Port.FileFd

/-!
# Port.BufferedUdp — datagrams that are sent and received through queues

All sockets of a thread receive into the buffers of one reader.  What the system answers to its calls is given: a number or
datagrams, or an errno of Linux; a call that is repeated on `EINTR` is its last answer.  `none` is a failed check or a fatal
error.
-/

namespace TdUtils

open Lib

/-! ### `VectorQueue` -/

structure VectorQueue (α : Type) where
  vector : List α
  readPos : ℕ
  le : readPos ≤ vector.length
  /-- What was read takes no more space than what was not, up to a few elements. -/
  compact : readPos ≤ 5 ∨ readPos * 2 ≤ vector.length + 2

namespace VectorQueue

variable {α : Type}

def init : VectorQueue α := ⟨[], 0, Nat.le_refl 0, .inl (Nat.zero_le 5)⟩

def push (q : VectorQueue α) (a : α) : VectorQueue α where
  vector := q.vector ++ [a]
  readPos := q.readPos
  le := by rw [List.length_append]; exact Nat.le_add_right_of_le q.le
  compact := by
    rw [List.length_append, List.length_singleton]
    exact q.compact.imp_right fun h => Nat.le_succ_of_le h

def tryShrink (vector : List α) (readPos : ℕ) (hle : readPos ≤ vector.length) : VectorQueue α :=
  if h : vector.length < readPos * 2 ∧ 4 < readPos then
    ⟨vector.drop readPos, 0, Nat.zero_le _, .inl (Nat.zero_le 5)⟩
  else ⟨vector, readPos, hle, by omega⟩

theorem compact_tryShrink (vector : List α) (readPos : ℕ) (hle : readPos ≤ vector.length) :
    (tryShrink vector readPos hle).readPos ≤ 4 ∨
      (tryShrink vector readPos hle).readPos * 2 ≤ (tryShrink vector readPos hle).vector.length := by
  unfold tryShrink
  split_ifs with h
  · exact .inl (Nat.zero_le 4)
  · dsimp only
    omega

def shrunk (q : VectorQueue α) : VectorQueue α := tryShrink q.vector q.readPos q.le

theorem compact_shrunk (q : VectorQueue α) : q.shrunk.readPos ≤ 4 ∨ q.shrunk.readPos * 2 ≤ q.shrunk.vector.length :=
  compact_tryShrink q.vector q.readPos q.le

def pop (q : VectorQueue α) : Option (VectorQueue α × α) :=
  if h : q.shrunk.readPos < q.shrunk.vector.length then
    some (⟨q.shrunk.vector, q.shrunk.readPos + 1, h, by have := q.compact_shrunk; omega⟩, q.shrunk.vector[q.shrunk.readPos])
  else none

def popN (q : VectorQueue α) (n : ℕ) : Option (VectorQueue α) :=
  if h : q.readPos + n ≤ q.vector.length then some (tryShrink q.vector (q.readPos + n) h) else none

def size (q : VectorQueue α) : ℕ := q.vector.length - q.readPos

def asSpan (q : VectorQueue α) : List α := q.vector.drop q.readPos

variable {q q' : VectorQueue α} {a : α} {n : ℕ}

@[simp] theorem asSpan_init : (init : VectorQueue α).asSpan = [] := rfl

@[simp] theorem length_asSpan (q : VectorQueue α) : q.asSpan.length = q.size := List.length_drop

/-- The elements that were popped need no more space than those that are there, up to a few. -/
theorem length_vector_le (q : VectorQueue α) : q.vector.length ≤ 2 * q.size + 5 := by
  have hle := q.le
  have hcompact := q.compact
  unfold size
  omega

@[simp] theorem asSpan_push (q : VectorQueue α) (a : α) : (q.push a).asSpan = q.asSpan ++ [a] :=
  List.drop_append_of_le_length q.le

theorem asSpan_tryShrink (vector : List α) (readPos : ℕ) (hle : readPos ≤ vector.length) :
    (tryShrink vector readPos hle).asSpan = vector.drop readPos := by
  unfold tryShrink
  split_ifs
  · rfl
  · rfl

theorem pop_spec (q : VectorQueue α) : q.pop = none ∧ q.asSpan = [] ∨
    ∃ q' a, q.pop = some (q', a) ∧ q.asSpan = a :: q'.asSpan := by
  have hspan : q.shrunk.vector.drop q.shrunk.readPos = q.asSpan := asSpan_tryShrink q.vector q.readPos q.le
  unfold pop
  by_cases h : q.shrunk.readPos < q.shrunk.vector.length
  · rw [dif_pos h]
    exact .inr ⟨_, _, rfl, hspan.symm.trans (List.drop_eq_getElem_cons h)⟩
  · rw [dif_neg h]
    exact .inl ⟨rfl, hspan.symm.trans (List.drop_eq_nil_of_le (Nat.not_lt.mp h))⟩

theorem popN_spec (q : VectorQueue α) (h : n ≤ q.size) : ∃ q', q.popN n = some q' ∧ q'.asSpan = q.asSpan.drop n := by
  have hle := q.le
  unfold popN
  rw [dif_pos (by unfold size at h; omega)]
  exact ⟨_, rfl, (asSpan_tryShrink _ _ _).trans List.drop_drop.symm⟩

end VectorQueue

/-! ### `PollFlags` -/

structure PollFlags where
  write : Bool := false
  read : Bool := false
  close : Bool := false
  error : Bool := false
deriving DecidableEq

namespace PollFlags

def addFlags (a b : PollFlags) : PollFlags := ⟨a.write || b.write, a.read || b.read, a.close || b.close, a.error || b.error⟩

def removeFlags (a b : PollFlags) : PollFlags :=
  ⟨a.write && !b.write, a.read && !b.read, a.close && !b.close, a.error && !b.error⟩

end PollFlags

/-- `to_write_` is what other threads have added. -/
structure PollFlagsSet where
  toWrite : PollFlags := {}
  flags : PollFlags := {}

namespace PollFlagsSet

def writeFlags (s : PollFlagsSet) (flags : PollFlags) : PollFlagsSet := { s with toWrite := s.toWrite.addFlags flags }

/-- Nobody writes to what is closed. -/
def flush (s : PollFlagsSet) : PollFlagsSet :=
  if s.toWrite = {} then s
  else
    let flags := s.flags.addFlags s.toWrite
    ⟨{}, if flags.close then flags.removeFlags { write := true } else flags⟩

end PollFlagsSet

/-! ### Sending -/

/-- Without an address the `IPAddress` is not valid. -/
structure UdpMessage (A D : Type) where
  address : Option A := none
  data : D
  error : Option StatusError := none

/-- A part of one of the reader's buffers. -/
structure UdpSlice where
  raw : ℕ := 0
  offset : ℕ := 0
  size : ℕ := 0
deriving DecidableEq

structure BufferedUdp (A : Type) where
  fd : ℕ
  poll : PollFlagsSet := {}
  input : VectorQueue (UdpMessage A UdpSlice) := .init
  output : VectorQueue (UdpMessage A (List UInt8)) := .init

namespace BufferedUdp

open FileFd (eagain)

variable {A : Type}

/-- `EACCES`, `EMSGSIZE`, `EPERM`. -/
def droppingErrnos : List ℕ := [13, 90, 1]

/-- `EBADF`, `ENOTSOCK`, `EPIPE`, `ECONNRESET`, `EDESTADDRREQ`, `ENOTCONN`, `EINTR`, `EISCONN`, `EOPNOTSUPP`, `ENOTDIR`, `EFAULT`,
`EINVAL`, `EAFNOSUPPORT`. -/
def fatalSendErrnos : List ℕ := [9, 88, 32, 104, 89, 107, 4, 106, 95, 20, 14, 22, 97]

/-- `EBADF`, `EFAULT`, `EINVAL`, `ENOTCONN`, `ECONNRESET`, `ETIMEDOUT`. -/
def fatalReceiveErrnos : List ℕ := [9, 14, 22, 107, 104, 110]

/-- What `send_message` and `send_messages` say: the flags, how many messages are done with, and the status. -/
structure Sent where
  flags : PollFlags
  cnt : ℕ
  status : Option StatusError

/-- `TD_LINUX`, where there is `sendmmsg` too; another system with `MSG_ERRQUEUE`, as Android; one without it. -/
inductive Platform
  | linux
  | android
  | other
deriving DecidableEq

def Platform.hasErrQueue : Platform → Bool
  | .other => false
  | _ => true

def processSendmsgError (platform : Platform) (fd : ℕ) (flags : PollFlags) (errno : ℕ) : Option Sent :=
  if errno = eagain then some ⟨flags.removeFlags { write := true }, 0, none⟩
  else
    let error := osError errno ("Send from [fd:" ++ toString fd ++ "] has failed")
    if errno ∈ droppingErrnos then some ⟨flags, 1, some error⟩
    else if errno ∈ fatalSendErrnos then none
    else some ⟨if platform.hasErrQueue then flags.addFlags { error := true } else flags, 0, some error⟩

/-- `native` is the answer of `sendmsg`. -/
def sendMessage (platform : Platform) (fd : ℕ) (flags : PollFlags) (native : Except ℕ ℕ) : Option Sent :=
  match native with
  | .ok _ => some ⟨flags, 1, none⟩
  | .error errno => processSendmsgError platform fd flags errno

/-- The messages that were handed over, or dropped with a warning, are given too. -/
def sendMessagesSlow (platform : Platform) (fd : ℕ) (native : ℕ → Except ℕ ℕ) :
    ℕ → PollFlags → List (UdpMessage A (List UInt8)) → Option (Sent × List (UdpMessage A (List UInt8)))
  | _, flags, [] => some (⟨flags, 0, none⟩, [])
  | k, flags, message :: messages =>
    if message.data = [] ∨ message.address.isNone then none
    else
      match sendMessage platform fd flags (native k) with
      | none => none
      | some ⟨flags, cnt, some error⟩ => some (⟨flags, cnt, some error⟩, [message].take cnt)
      | some ⟨flags, cnt, none⟩ =>
        (sendMessagesSlow platform fd native (k + 1) flags messages).map fun (sent, handed) =>
          ({ sent with cnt := cnt + sent.cnt }, [message].take cnt ++ handed)

/-- `sendmmsg` takes as many of the messages as it has room for. -/
def sendMessagesFast (fd : ℕ) (native : Except ℕ ℕ) (flags : PollFlags) (messages : List (UdpMessage A (List UInt8))) :
    Option (Sent × List (UdpMessage A (List UInt8))) :=
  if messages.any fun message => message.address.isNone then none
  else
    match native with
    | .ok room => some (⟨flags, min room messages.length, none⟩, messages.take room)
    | .error errno => (processSendmsgError .linux fd flags errno).map fun sent => (sent, messages.take sent.cnt)

def sendMessages (platform : Platform) (fd : ℕ) (native : ℕ → Except ℕ ℕ) (flags : PollFlags)
    (messages : List (UdpMessage A (List UInt8))) : Option (Sent × List (UdpMessage A (List UInt8))) :=
  if platform = .linux then sendMessagesFast fd (native 0) flags messages
  else sendMessagesSlow platform fd native 0 flags messages

/-- `UdpWriter::write_once`. -/
def flushSendOnce (platform : Platform) (s : BufferedUdp A) (native : ℕ → Except ℕ ℕ) :
    Option (BufferedUdp A × List (UdpMessage A (List UInt8)) × Option StatusError) :=
  (sendMessages platform s.fd native s.poll.flags (s.output.asSpan.take 16)).bind fun (sent, handed) =>
    (s.output.popN sent.cnt).map fun output =>
      ({ s with output := output, poll := { s.poll with flags := sent.flags } }, handed, sent.status)

/-- When there are no more answers, the loop goes on later. -/
def flushSend (platform : Platform) : BufferedUdp A → List (ℕ → Except ℕ ℕ) →
    Option (BufferedUdp A × List (UdpMessage A (List UInt8)) × Option StatusError)
  | s, [] => some (s, [], none)
  | s, native :: rest =>
    if s.poll.flags.write ∧ s.output.asSpan ≠ [] then
      match flushSendOnce platform s native with
      | none => none
      | some (s, handed, some error) => some (s, handed, some error)
      | some (s, handed, none) =>
        (flushSend platform s rest).map fun (s, handed', status) => (s, handed ++ handed', status)
    else some (s, [], none)

/-! ### Receiving -/

def maxPacketSize : ℕ := 2048

def reservedSize : ℕ := maxPacketSize * 8

/-- A datagram, or an entry of the error queue. -/
structure Datagram (A : Type) where
  address : A
  bytes : List UInt8
  extendedError : Option ℕ := none

/-- `UdpReaderHelper`, with the message into which the system receives; at first there is no buffer. -/
structure Helper (A : Type) where
  address : Option A := none
  error : Option StatusError := none
  raw : ℕ := 0
  offset : ℕ := reservedSize
  data : UdpSlice := {}

/-- The buffers are numbered by their allocations. -/
structure UdpReader (A : Type) where
  memory : ℕ → Memory := fun _ _ => 0
  raws : ℕ := 0
  helpers : List (Helper A) := []

def Helper.initInboundMessage (raws : ℕ) (h : Helper A) : Option (ℕ × Helper A) :=
  let (raws, h) := if reservedSize - h.offset < maxPacketSize then (raws + 1, { h with raw := raws, offset := 0 }) else (raws, h)
  if maxPacketSize ≤ reservedSize - h.offset then some (raws, { h with data := ⟨h.raw, h.offset, maxPacketSize⟩ }) else none

/-- `UdpReader()`. -/
def UdpReader.init : ℕ → Option (UdpReader A)
  | 0 => some {}
  | n + 1 => (UdpReader.init n).bind fun r =>
    (Helper.initInboundMessage r.raws {}).map fun (raws, h) => { r with raws := raws, helpers := r.helpers ++ [h] }

def messageTooLong : StatusError := { code := 501, message := "Message too long" }

/-- `from_native`: what the message is in the end, the bytes of it in `data`. -/
def Datagram.fromNative (platform : Platform) (d : Datagram A) : UdpMessage A (List UInt8) :=
  match if platform = .linux then d.extendedError else none with
  | some errno => ⟨some d.address, [], some (osError errno "")⟩
  | none => if maxPacketSize < d.bytes.length then ⟨some d.address, [], some messageTooLong⟩ else ⟨some d.address, d.bytes, none⟩

/-- The system has written to the buffer. -/
def Helper.fill (platform : Platform) (memory : ℕ → Memory) (h : Helper A) (d : Datagram A) : (ℕ → Memory) × Helper A :=
  let message := d.fromNative platform
  (Function.update memory h.data.raw ((memory h.data.raw).store h.data.offset (d.bytes.take h.data.size)),
    { h with
      address := message.address
      error := message.error
      data := { h.data with size := message.data.length } })

/-- The first messages are filled. -/
def fillMessages (platform : Platform) : (ℕ → Memory) → List (Helper A) → List (Datagram A) → (ℕ → Memory) × List (Helper A)
  | memory, h :: helpers, d :: taken =>
    let (memory, h) := h.fill platform memory d
    let (memory, helpers) := fillMessages platform memory helpers taken
    (memory, h :: helpers)
  | memory, helpers, _ => (memory, helpers)

/-- `(size + 7) & ~7`. -/
def roundUp (size : ℕ) : ℕ := (size + 7) / 8 * 8

def Helper.extractUdpMessage (h : Helper A) : Option (Helper A × UdpMessage A UdpSlice) :=
  if h.data.raw = h.raw ∧ h.data.offset + h.data.size ≤ reservedSize ∧ roundUp h.data.size ≤ maxPacketSize ∧
      h.offset + roundUp h.data.size ≤ reservedSize then
    some ({ h with offset := h.offset + roundUp h.data.size }, ⟨h.address, h.data, h.error⟩)
  else none

/-- The loop over the first `cnt` messages, which were received. -/
def extractMessages : ℕ → ℕ → List (Helper A) → Option (ℕ × List (Helper A) × List (UdpMessage A UdpSlice))
  | raws, cnt + 1, h :: helpers =>
    h.extractUdpMessage.bind fun (h, message) => (h.initInboundMessage raws).bind fun (raws, h) =>
      (extractMessages raws cnt helpers).map fun (raws, helpers, messages) => (raws, h :: helpers, message :: messages)
  | raws, _, helpers => if helpers.all fun h => h.data.size = maxPacketSize then some (raws, helpers, []) else none

/-- The answers of `recvmmsg`, of the calls of `recvmsg`, and of `getsockopt` with the error that it has read. -/
structure ReceiveNative (A : Type) where
  mmsg : Except ℕ (List (Datagram A)) := .error eagain
  msg : ℕ → Except ℕ (Datagram A) := fun _ => .error eagain
  pending : Except ℕ ℕ := .ok 0

def processRecvmsgError (platform : Platform) (fd : ℕ) (flags : PollFlags) (errno : ℕ) :
    Option (PollFlags × Option StatusError) :=
  if errno = eagain then some (flags.removeFlags (if flags.error then { error := true } else { read := true }), none)
  else if errno ∈ fatalReceiveErrnos then none
  else some (if platform.hasErrQueue then flags.addFlags { error := true } else flags,
    some (osError errno ("Receive from [fd:" ++ toString fd ++ "] has failed")))

def receiveMessagesFast (fd : ℕ) (flags : PollFlags) (native : Except ℕ (List (Datagram A))) :
    Option (PollFlags × List (Datagram A) × Option StatusError) :=
  match native with
  | .ok datagrams => some (flags, datagrams.take 16, none)
  | .error errno => (processRecvmsgError .linux fd flags errno).map fun (flags, status) => (flags, [], status)

def getSocketPendingError (fd : ℕ) : Except ℕ ℕ → Option StatusError
  | .ok 0 => none
  | .ok error => some (osError error ("Error on [fd:" ++ toString fd ++ "]"))
  | .error errno => some (osError errno ("Can't load error on socket [fd:" ++ toString fd ++ "]"))

/-- The loop for `n` more messages. -/
def receiveLoop (platform : Platform) (fd : ℕ) (native : ℕ → Except ℕ (Datagram A)) : ℕ → ℕ → PollFlags →
    Option (PollFlags × List (Datagram A) × Option StatusError)
  | 0, _, flags => some (flags, [], none)
  | n + 1, k, flags =>
    if flags.read then
      match native k with
      | .ok d => (receiveLoop platform fd native n (k + 1) flags).map fun (flags, taken, status) => (flags, d :: taken, status)
      -- after `EAGAIN` there is nothing to read, and the loop ends
      | .error errno => (processRecvmsgError platform fd flags errno).map fun (flags, status) => (flags, [], status)
    else some (flags, [], none)

/-- The loop while an error is pending, which `recvmsg` takes off the error queue. -/
def receiveErrors (platform : Platform) (fd : ℕ) (native : ℕ → Except ℕ (Datagram A)) : ℕ → ℕ → PollFlags →
    Option (PollFlags × List (Datagram A) × Option StatusError)
  | 0, _, flags => some (flags, [], none)
  | n + 1, k, flags =>
    match native k with
    | .ok d => (receiveErrors platform fd native n (k + 1) flags).map fun (flags, taken, status) => (flags, d :: taken, status)
    | .error errno =>
      match processRecvmsgError platform fd flags errno with
      -- the queue is empty, and the loop goes on with messages
      | some (flags, none) => receiveLoop platform fd native (n + 1) (k + 1) flags
      | some (flags, some error) => some (flags, [], some error)
      | none => none

/-- Only before the first message an error can be pending. -/
def receiveMessagesSlow (platform : Platform) (fd : ℕ) (flags : PollFlags) (native : ReceiveNative A) :
    Option (PollFlags × List (Datagram A) × Option StatusError) :=
  if flags.read ∧ flags.error then
    if platform.hasErrQueue then receiveErrors platform fd native.msg 16 0 flags
    else
      match getSocketPendingError fd native.pending with
      | some error => some (flags, [], some error)
      | none => receiveLoop platform fd native.msg 16 0 (flags.removeFlags { error := true })
  else receiveLoop platform fd native.msg 16 0 flags

/-- `ENOMEM`, `ENOBUFS`. -/
def isCriticalReadError (error : StatusError) : Bool := error.code = 12 || error.code = 105

def receiveMessages (platform : Platform) (fd : ℕ) (flags : PollFlags) (native : ReceiveNative A) :
    Option (PollFlags × List (Datagram A) × Option StatusError) :=
  if platform = .linux then receiveMessagesFast fd flags native.mmsg else receiveMessagesSlow platform fd flags native

/-- What is put into the queue for the status of `receive_messages`. -/
def statusMessage {D : Type} (data : D) : Option StatusError → List (UdpMessage A D)
  | some error => if isCriticalReadError error then [] else [{ data := data, error := some error }]
  | none => []

/-- What a call to `receive` comes to; the datagrams are those that the system has given it. -/
structure Received (A : Type) where
  taken : List (Datagram A) := []
  status : Option StatusError := none
  message : Option (UdpMessage A UdpSlice) := none

/-- `UdpReader::read_once`. -/
def flushReadOnce (platform : Platform) (r : UdpReader A) (s : BufferedUdp A) (native : ReceiveNative A) :
    Option (UdpReader A × BufferedUdp A × List (Datagram A) × Option StatusError) :=
  if r.helpers.all fun h => h.data.size = maxPacketSize then
    (receiveMessages platform s.fd s.poll.flags native).bind fun (flags, taken, status) =>
      let (memory, helpers) := fillMessages platform r.memory r.helpers taken
      (extractMessages r.raws taken.length helpers).map fun (raws, helpers, messages) =>
        (⟨memory, raws, helpers⟩,
          { s with
            poll := { s.poll with flags := flags }
            input := (messages ++ statusMessage ({} : UdpSlice) status).foldl VectorQueue.push s.input },
          taken, status)
  else none

/-- The message at the front, if there is one. -/
def popInput (s : BufferedUdp A) : Option (BufferedUdp A × Option (UdpMessage A UdpSlice)) :=
  if s.input.asSpan = [] then some (s, none)
  else s.input.pop.map fun (input, message) => ({ s with input := input }, some message)

def receive (platform : Platform) (r : UdpReader A) (s : BufferedUdp A) (native : ReceiveNative A) :
    Option (UdpReader A × BufferedUdp A × Received A) :=
  if s.input.asSpan = [] ∧ (s.poll.flags.read ∨ s.poll.flags.error) then
    (flushReadOnce platform r s native).bind fun (r, s, taken, status) =>
      match status with
      | some error => some (r, s, ⟨taken, some error, none⟩)
      | none => s.popInput.map fun (s, message) => (r, s, ⟨taken, none, message⟩)
  else s.popInput.map fun (s, message) => (r, s, { message := message })

/-! ### The sockets of a thread -/

structure Sockets (n : ℕ) (A : Type) where
  reader : UdpReader A
  socket : Fin n → BufferedUdp A

inductive Event (n : ℕ) (A : Type) where
  | send (j : Fin n) (message : UdpMessage A (List UInt8))
  | flushSend (j : Fin n) (native : List (ℕ → Except ℕ ℕ))
  | receive (j : Fin n) (native : ReceiveNative A)
  | addFlagsFromPoll (j : Fin n) (flags : PollFlags)
  | syncWithPoll (j : Fin n)

inductive Answer (A : Type) where
  | nothing
  | sent (handed : List (UdpMessage A (List UInt8))) (status : Option StatusError)
  | received (received : Received A)

variable {n : ℕ}

def Sockets.set (s : Sockets n A) (j : Fin n) (socket : BufferedUdp A) : Sockets n A :=
  { s with socket := Function.update s.socket j socket }

def step (platform : Platform) (s : Sockets n A) : Event n A → Option (Sockets n A × Answer A)
  | .send j message => some (s.set j { s.socket j with output := (s.socket j).output.push message }, .nothing)
  | .flushSend j native => ((s.socket j).flushSend platform native).map fun (socket, handed, status) =>
    (s.set j socket, .sent handed status)
  | .receive j native => (receive platform s.reader (s.socket j) native).map fun (reader, socket, received) =>
    ({ s with reader := reader }.set j socket, .received received)
  | .addFlagsFromPoll j flags => some (s.set j { s.socket j with poll := (s.socket j).poll.writeFlags flags }, .nothing)
  | .syncWithPoll j => some (s.set j { s.socket j with poll := (s.socket j).poll.flush }, .nothing)

def machine (platform : Platform) (n : ℕ) (A : Type) : Machine (Sockets n A) (Event n A) (Answer A) := ⟨step platform⟩

/-- Sockets that are just open. -/
def start (A : Type) (fds : Fin n → ℕ) : Option (Sockets n A) :=
  (UdpReader.init 16).map fun reader => ⟨reader, fun j => { fd := fds j }⟩

/-! ### What is sent -/

/-- After this answer the socket is done with a message. -/
def accepts : Except ℕ ℕ → Bool
  | .ok _ => true
  | .error errno => errno ∈ droppingErrnos

/-- After this answer `send_messages_slow` goes on. -/
def GoesOn : Except ℕ ℕ → Prop
  | .ok _ => True
  | .error errno => errno = eagain

/-- Of the calls for `m` messages one is done with its message after another one had no room for its own. -/
def Overtakes (native : ℕ → Except ℕ ℕ) (k m : ℕ) : Prop := ∃ i j, k ≤ i ∧ i < j ∧ j < k + m ∧ native i = .error eagain ∧
  accepts (native j) = true ∧ ∀ l, k ≤ l → l < j → GoesOn (native l)

def NotFatal (fatal : List ℕ) {β : Type} (native : Except ℕ β) : Prop := ∀ errno, native = .error errno → errno ∉ fatal

/-- The checks before a message is sent. -/
def Sendable (platform : Platform) (message : UdpMessage A (List UInt8)) : Prop :=
  message.address.isSome ∧ (platform ≠ .linux → message.data ≠ [])

variable {fd : ℕ} {flags : PollFlags} {messages handed : List (UdpMessage A (List UInt8))} {sent : Sent}

theorem processSendmsgError_spec (platform : Platform) (fd : ℕ) (flags : PollFlags) {errno : ℕ} (h : errno ∉ fatalSendErrnos) :
    ∃ sent, processSendmsgError platform fd flags errno = some sent ∧ sent.cnt = (accepts (.error errno)).toNat ∧
      (sent.status = none ↔ errno = eagain) ∧ (errno = eagain → sent.flags.write = false) ∧
      (sent.flags.write = true → flags.write = true) := by
  have haccepts : accepts (.error errno) = decide (errno ∈ droppingErrnos) := rfl
  unfold processSendmsgError
  rw [haccepts]
  by_cases hagain : errno = eagain
  · rw [if_pos hagain]
    subst hagain
    exact ⟨_, rfl, rfl, ⟨fun _ => rfl, fun _ => rfl⟩, fun _ => Bool.and_false _,
      fun hwrite => absurd ((Bool.and_false _).symm.trans hwrite) nofun⟩
  · rw [if_neg hagain]
    by_cases hdrop : errno ∈ droppingErrnos
    · rw [decide_eq_true hdrop]
      exact ⟨_, if_pos hdrop, rfl, ⟨nofun, fun h => absurd h hagain⟩, fun h => absurd h hagain, fun hwrite => hwrite⟩
    · rw [decide_eq_false hdrop]
      refine ⟨_, (if_neg hdrop).trans (if_neg h), rfl, ⟨nofun, fun h => absurd h hagain⟩, fun h => absurd h hagain,
        fun hwrite => ?_⟩
      cases herror : platform.hasErrQueue with
      | true =>
        rw [herror] at hwrite
        exact (Bool.or_false _).symm.trans hwrite
      | false =>
        rw [herror] at hwrite
        exact hwrite

theorem sendMessage_spec (platform : Platform) (fd : ℕ) (flags : PollFlags) {native : Except ℕ ℕ}
    (h : NotFatal fatalSendErrnos native) :
    ∃ sent, sendMessage platform fd flags native = some sent ∧ sent.cnt = (accepts native).toNat ∧
      (sent.status = none ↔ GoesOn native) ∧ (native = .error eagain → sent.flags.write = false) ∧
      (sent.flags.write = true → flags.write = true) := by
  cases native with
  | ok n => exact ⟨_, rfl, rfl, ⟨fun _ => trivial, fun _ => rfl⟩, nofun, fun hwrite => hwrite⟩
  | error errno =>
    obtain ⟨sent, hsent, hcnt, hstatus, hclear, hwrite⟩ := processSendmsgError_spec platform fd flags (h errno rfl)
    exact ⟨sent, hsent, hcnt, hstatus, fun heq => hclear (Except.error.inj heq), hwrite⟩

theorem goesOn_cases {native : Except ℕ ℕ} (h : GoesOn native) :
    (accepts native = true ∧ native ≠ .error eagain) ∨ (accepts native = false ∧ native = .error eagain) := by
  cases native with
  | ok n => exact .inl ⟨rfl, nofun⟩
  | error errno =>
    obtain rfl : errno = eagain := h
    exact .inr ⟨rfl, rfl⟩

theorem goesOn_from {native : ℕ → Except ℕ ℕ} {k j : ℕ} (hk : GoesOn (native k))
    (h : ∀ l, k + 1 ≤ l → l < j → GoesOn (native l)) : ∀ l, k ≤ l → l < j → GoesOn (native l) := by
  intro l hl hlj
  rcases Nat.eq_or_lt_of_le hl with rfl | hl
  · exact hk
  · exact h l hl hlj

theorem Overtakes.succ {native : ℕ → Except ℕ ℕ} {k m : ℕ} (hk : GoesOn (native k)) (h : Overtakes native (k + 1) m) :
    Overtakes native k (m + 1) := by
  obtain ⟨i, j, hi, hij, hj, hagain, haccepts, hon⟩ := h
  exact ⟨i, j, by omega, hij, by omega, hagain, haccepts, goesOn_from hk hon⟩

/-- What the loop comes to: the messages are handed over from the front, unless one overtakes another one. -/
structure HandsOver (native : ℕ → Except ℕ ℕ) (k : ℕ) (flags : PollFlags) (messages : List (UdpMessage A (List UInt8)))
    (sent : Sent) (handed : List (UdpMessage A (List UInt8))) : Prop where
  sublist : handed.Sublist messages
  length : handed.length = sent.cnt
  none_iff : sent.cnt = 0 ↔ ∀ j, k ≤ j → j < k + messages.length → (∀ l, k ≤ l → l < j → GoesOn (native l)) →
    accepts (native j) = false
  front : ¬Overtakes native k messages.length → handed = messages.take sent.cnt
  only : messages.Nodup → handed = messages.take sent.cnt → ¬Overtakes native k messages.length
  write : sent.flags.write = true → flags.write = true ∧ (sent.status = none → sent.cnt = messages.length)

section HandsOver

variable {native : ℕ → Except ℕ ℕ} {k : ℕ} {flags' : PollFlags} {message : UdpMessage A (List UInt8)}

theorem handsOver_nil : HandsOver (A := A) native k flags [] ⟨flags, 0, none⟩ [] := by
  refine ⟨List.Sublist.refl [], rfl, ⟨fun _ j hj hlt => ?_, fun _ => rfl⟩, fun _ => rfl, ?_, fun hwrite => ⟨hwrite, fun _ => rfl⟩⟩
  · exact absurd hlt (Nat.not_lt.mpr hj)
  · rintro - - ⟨i, j, hi, hij, hj, -⟩
    rw [List.length_nil] at hj
    omega

/-- The loop ends with this message. -/
theorem handsOver_stops (hstops : ¬GoesOn (native k)) (hwrite : flags'.write = true → flags.write = true) (error : StatusError) :
    HandsOver native k flags (message :: messages) ⟨flags', (accepts (native k)).toNat, some error⟩
      ([message].take (accepts (native k)).toNat) := by
  have hovertakes : ¬Overtakes native k (messages.length + 1) := by
    rintro ⟨i, j, hi, hij, -, -, -, hon⟩
    exact hstops (hon k (Nat.le_refl k) (by omega))
  have hfirst : ∀ j, k ≤ j → (∀ l, k ≤ l → l < j → GoesOn (native l)) → j = k := fun j hj hon =>
    Nat.le_antisymm (Nat.not_lt.mp fun hlt => hstops (hon k (Nat.le_refl k) hlt)) hj
  have htake : [message].take (accepts (native k)).toNat = (message :: messages).take (accepts (native k)).toNat := by
    cases accepts (native k) with
    | true => rfl
    | false => rfl
  refine ⟨?_, ?_, ⟨fun hzero j hj _ hon => ?_, fun hnone => ?_⟩, fun _ => htake, fun _ _ => hovertakes,
    fun hwrite' => ⟨hwrite hwrite', nofun⟩⟩
  · rw [htake]
    exact List.take_sublist _ _
  · cases accepts (native k) with
    | true => rfl
    | false => rfl
  · rw [hfirst j hj hon]
    exact Bool.toNat_eq_zero.mp hzero
  · rw [hnone k (Nat.le_refl k) (by rw [List.length_cons]; omega) fun l hl hlt => absurd hlt (Nat.not_lt.mpr hl)]
    rfl

theorem HandsOver.accepted (h : HandsOver native (k + 1) flags' messages sent handed) (haccepts : accepts (native k) = true)
    (hne : native k ≠ .error eagain) (hon : GoesOn (native k)) (hwrite : flags'.write = true → flags.write = true) :
    HandsOver native k flags (message :: messages) { sent with cnt := 1 + sent.cnt } (message :: handed) := by
  have hovertakes : Overtakes native k (messages.length + 1) → Overtakes native (k + 1) messages.length := by
    rintro ⟨i, j, hi, hij, hj, hagain, haccepts', hon'⟩
    have hik : i ≠ k := fun heq => hne (heq ▸ hagain)
    exact ⟨i, j, by omega, hij, by omega, hagain, haccepts', fun l hl hlj => hon' l (by omega) hlj⟩
  rw [Nat.add_comm 1]
  refine ⟨h.sublist.cons_cons message, congrArg (· + 1) h.length, ⟨nofun, fun hnone => ?_⟩, fun hnone => ?_,
    fun hnodup heq hover => ?_, fun hwrite' => ?_⟩
  · have hk := hnone k (Nat.le_refl k) (by rw [List.length_cons]; omega) fun l hl hlt => absurd hlt (Nat.not_lt.mpr hl)
    cases haccepts.symm.trans hk
  · exact congrArg (message :: ·) (h.front fun hover => hnone (hover.succ hon))
  · exact h.only (List.nodup_cons.mp hnodup).2 (List.cons.inj heq).2 (hovertakes hover)
  · obtain ⟨hflags, hstatus⟩ := h.write hwrite'
    exact ⟨hwrite hflags, fun hnone => congrArg (· + 1) (hstatus hnone)⟩

/-- The socket has no room for this message, and the loop goes on. -/
theorem HandsOver.refused (h : HandsOver native (k + 1) flags' messages sent handed) (haccepts : accepts (native k) = false)
    (hagain : native k = .error eagain) (hon : GoesOn (native k)) (hclear : flags'.write = false) :
    HandsOver native k flags (message :: messages) sent handed := by
  -- nothing is accepted any more, or it overtakes the message
  have hnone : ¬Overtakes native k (messages.length + 1) → sent.cnt = 0 := by
    refine fun hover => h.none_iff.mpr fun j hj hlt hon' => ?_
    by_contra haccepts'
    exact hover ⟨k, j, Nat.le_refl k, hj, by omega, hagain, (Bool.not_eq_false _).mp haccepts', goesOn_from hon hon'⟩
  refine ⟨h.sublist.cons message, h.length, ?_, fun hover => ?_, ?_, fun hwrite => ?_⟩
  · rw [h.none_iff, List.length_cons]
    refine ⟨fun hrest j hj hlt hon' => ?_, fun hrest j hj hlt hon' => hrest j (by omega) (by omega) (goesOn_from hon hon')⟩
    rcases Nat.eq_or_lt_of_le hj with rfl | hj
    · exact haccepts
    · exact hrest j hj (by omega) fun l hl hlj => hon' l (by omega) hlj
  · rw [hnone hover]
    exact List.length_eq_zero_iff.mp (h.length.trans (hnone hover))
  · rintro hnodup heq ⟨i, j, hi, hij, hj, -, haccepts', hon'⟩
    rw [List.length_cons] at hj
    cases hsent : sent.cnt with
    | zero =>
      have hrefused := h.none_iff.mp hsent j (by omega) (by omega) fun l hl hlj => hon' l (by omega) hlj
      cases hrefused.symm.trans haccepts'
    | succ cnt =>
      rw [hsent, List.take_succ_cons] at heq
      exact (List.nodup_cons.mp hnodup).1 (h.sublist.subset (heq ▸ List.mem_cons_self))
  · cases hclear.symm.trans (h.write hwrite).1

end HandsOver

theorem sendMessagesSlow_spec {platform : Platform} (hslow : platform ≠ .linux) {native : ℕ → Except ℕ ℕ}
    (hfatal : ∀ k, NotFatal fatalSendErrnos (native k)) :
    ∀ (messages : List (UdpMessage A (List UInt8))) (k : ℕ) (flags : PollFlags), (∀ m ∈ messages, Sendable platform m) →
      ∃ sent handed, sendMessagesSlow platform fd native k flags messages = some (sent, handed) ∧
        HandsOver native k flags messages sent handed
  | [], k, flags, _ => ⟨_, _, rfl, handsOver_nil⟩
  | message :: messages, k, flags, hsendable => by
    obtain ⟨haddress, hdata⟩ := hsendable message List.mem_cons_self
    have hchecks : ¬(message.data = [] ∨ message.address.isNone) := by
      rintro (hempty | hnone)
      · exact hdata hslow hempty
      · rw [Option.isNone_iff_eq_none.mp hnone] at haddress
        cases haddress
    obtain ⟨⟨flags', cnt, status⟩, hfirst, hcnt, hstatus, hclear, hwrite⟩ := sendMessage_spec platform fd flags (hfatal k)
    obtain rfl : cnt = (accepts (native k)).toNat := hcnt
    unfold sendMessagesSlow
    rw [if_neg hchecks, hfirst]
    cases status with
    | some error => exact ⟨_, _, rfl, handsOver_stops (fun hon => absurd (hstatus.mpr hon) nofun) hwrite error⟩
    | none =>
      have hon := hstatus.mp rfl
      obtain ⟨sent, handed, hrest, h⟩ :=
        sendMessagesSlow_spec hslow hfatal messages (k + 1) flags' fun m hm => hsendable m (List.mem_cons_of_mem _ hm)
      dsimp only
      rw [hrest]
      rcases goesOn_cases hon with ⟨haccepts, hne⟩ | ⟨haccepts, hagain⟩
      · rw [haccepts]
        exact ⟨_, _, rfl, h.accepted haccepts hne hon hwrite⟩
      · rw [haccepts]
        refine ⟨_, _, rfl, ?_⟩
        dsimp only
        rw [Bool.toNat_false, Nat.zero_add]
        exact h.refused haccepts hagain hon (hclear hagain)

theorem sendMessagesFast_spec {native : Except ℕ ℕ} (hfatal : NotFatal fatalSendErrnos native) (flags : PollFlags)
    (hsendable : ∀ m ∈ messages, Sendable .linux m) (hmessages : messages ≠ []) :
    ∃ sent handed, sendMessagesFast fd native flags messages = some (sent, handed) ∧ sent.cnt ≤ messages.length ∧
      handed = messages.take sent.cnt ∧
      (sent.flags.write = true → sent.status = none → native = .ok 0 ∨ 0 < sent.cnt) := by
  have hchecks : ¬(messages.any fun message => message.address.isNone) := by
    rw [List.any_eq_true]
    rintro ⟨m, hm, hnone⟩
    have haddress := (hsendable m hm).1
    rw [Option.isNone_iff_eq_none.mp hnone] at haddress
    cases haddress
  unfold sendMessagesFast
  rw [if_neg hchecks]
  cases native with
  | ok room =>
    refine ⟨_, _, rfl, Nat.min_le_right _ _, List.take_eq_take_min, fun _ _ => ?_⟩
    rcases Nat.eq_zero_or_pos room with rfl | hroom
    · exact .inl rfl
    · exact .inr (Nat.lt_min.mpr ⟨hroom, List.length_pos_iff.mpr hmessages⟩)
  | error errno =>
    obtain ⟨sent, hsent, hcnt, hstatus, hclear, -⟩ := processSendmsgError_spec .linux fd flags (hfatal errno rfl)
    have hlen : 0 < messages.length := List.length_pos_iff.mpr hmessages
    have hle : sent.cnt ≤ 1 := hcnt ▸ Bool.toNat_le _
    dsimp only
    rw [hsent]
    refine ⟨_, _, rfl, by omega, rfl, fun hwrite hnone => ?_⟩
    cases (hclear (hstatus.mp hnone)).symm.trans hwrite

/-- What one turn of `flush_send` leaves in the queue. -/
theorem flushSendOnce_spec {platform : Platform} {s : BufferedUdp A} {native : ℕ → Except ℕ ℕ}
    (hfatal : ∀ k, NotFatal fatalSendErrnos (native k)) (hsendable : ∀ m ∈ s.output.asSpan, Sendable platform m)
    (hne : s.output.asSpan ≠ []) :
    ∃ t handed status, flushSendOnce platform s native = some (t, handed, status) ∧ t.input = s.input ∧
      ∃ cnt, t.output.asSpan = s.output.asSpan.drop cnt ∧ handed.length = cnt ∧
        (platform = .linux ∨ ¬Overtakes native 0 (min 16 s.output.size) → handed = s.output.asSpan.take cnt) ∧
        (platform ≠ .linux → s.output.asSpan.Nodup → handed = s.output.asSpan.take cnt →
          ¬Overtakes native 0 (min 16 s.output.size)) ∧
        (t.poll.flags.write = true → status = none → native 0 = .ok 0 ∨ 0 < cnt) := by
  have hfirst : ∀ m ∈ s.output.asSpan.take 16, Sendable platform m := fun m hm => hsendable m (List.mem_of_mem_take hm)
  have hlen : (s.output.asSpan.take 16).length = min 16 s.output.size := by
    rw [List.length_take, VectorQueue.length_asSpan]
  have hpos : s.output.asSpan.take 16 ≠ [] := by
    cases hspan : s.output.asSpan with
    | nil => exact absurd hspan hne
    | cons m rest => exact nofun
  obtain ⟨sent, handed, hsend, hlength, hcnt, hhanded, honly, hmore⟩ : ∃ sent handed,
      sendMessages platform s.fd native s.poll.flags (s.output.asSpan.take 16) = some (sent, handed) ∧
        handed.length = sent.cnt ∧ sent.cnt ≤ (s.output.asSpan.take 16).length ∧
          (platform = .linux ∨ ¬Overtakes native 0 (min 16 s.output.size) → handed = (s.output.asSpan.take 16).take sent.cnt) ∧
            (platform ≠ .linux → s.output.asSpan.Nodup → handed = (s.output.asSpan.take 16).take sent.cnt →
              ¬Overtakes native 0 (min 16 s.output.size)) ∧
              (sent.flags.write = true → sent.status = none → native 0 = .ok 0 ∨ 0 < sent.cnt) := by
    unfold sendMessages
    by_cases hlinux : platform = .linux
    · subst hlinux
      rw [if_pos rfl]
      obtain ⟨sent, handed, hsend, hcnt, hhanded, hmore⟩ := sendMessagesFast_spec (hfatal 0) s.poll.flags hfirst hpos
      refine ⟨sent, handed, hsend, ?_, hcnt, fun _ => hhanded, fun hslow => absurd rfl hslow, hmore⟩
      rw [hhanded, List.length_take, Nat.min_eq_left hcnt]
    · rw [if_neg hlinux]
      obtain ⟨sent, handed, hsend, h⟩ := sendMessagesSlow_spec hlinux hfatal _ 0 s.poll.flags hfirst
      have hfront := h.front
      have honly := h.only
      rw [hlen] at hfront honly
      refine ⟨sent, handed, hsend, h.length, h.length ▸ h.sublist.length_le, fun hover => hfront (hover.resolve_left hlinux),
        fun _ hnodup => honly (hnodup.sublist (List.take_sublist _ _)), fun hwrite hnone => .inr ?_⟩
      rw [(h.write hwrite).2 hnone]
      exact List.length_pos_iff.mpr hpos
  obtain ⟨output, hpop, hspan⟩ := s.output.popN_spec (Nat.le_trans hcnt (hlen ▸ Nat.min_le_right _ _))
  have htake : (s.output.asSpan.take 16).take sent.cnt = s.output.asSpan.take sent.cnt := by
    rw [List.take_take, Nat.min_eq_left (by omega)]
  rw [htake] at hhanded honly
  unfold flushSendOnce
  rw [hsend, Option.bind_some]
  dsimp only
  rw [hpop]
  exact ⟨_, _, _, rfl, rfl, sent.cnt, hspan, hlength, hhanded, honly, hmore⟩

/-- Without `sendmmsg` one turn keeps the order of different messages if and only if no message overtakes another one. -/
theorem flushSendOnce_in_order_iff {platform : Platform} (hslow : platform ≠ .linux) {s : BufferedUdp A}
    {native : ℕ → Except ℕ ℕ}
    (hfatal : ∀ k, NotFatal fatalSendErrnos (native k)) (hsendable : ∀ m ∈ s.output.asSpan, Sendable platform m)
    (hne : s.output.asSpan ≠ []) (hnodup : s.output.asSpan.Nodup) :
    ∃ t handed status, flushSendOnce platform s native = some (t, handed, status) ∧
      (handed ++ t.output.asSpan = s.output.asSpan ↔ ¬Overtakes native 0 (min 16 s.output.size)) := by
  obtain ⟨t, handed, status, hstep, -, cnt, hspan, hlength, hhanded, honly, -⟩ := flushSendOnce_spec hfatal hsendable hne
  refine ⟨t, handed, status, hstep, fun heq => honly hslow hnodup ?_, fun hover => ?_⟩
  · rw [← heq, ← hlength, List.take_left]
  · rw [hhanded (.inr hover), hspan, List.take_append_drop]

theorem Overtakes.mono {native : ℕ → Except ℕ ℕ} {k m m' : ℕ} (hle : m ≤ m') (h : Overtakes native k m) :
    Overtakes native k m' := by
  obtain ⟨i, j, hi, hij, hj, h⟩ := h
  exact ⟨i, j, hi, hij, by omega, h⟩

/-- What `flush_send` leaves in the queue. -/
theorem flushSend_spec {platform : Platform} : ∀ (native : List (ℕ → Except ℕ ℕ)) (s : BufferedUdp A),
    (∀ answers ∈ native, ∀ k, NotFatal fatalSendErrnos (answers k)) → (∀ m ∈ s.output.asSpan, Sendable platform m) →
      ∃ t handed status, s.flushSend platform native = some (t, handed, status) ∧ t.input = s.input ∧
        ∃ cnt, t.output.asSpan = s.output.asSpan.drop cnt ∧
          (platform = .linux ∨ (∀ answers ∈ native, ¬Overtakes answers 0 16) → handed = s.output.asSpan.take cnt)
  | [], s, _, _ => ⟨s, [], none, rfl, rfl, 0, rfl, fun _ => rfl⟩
  | answers :: native, s, hfatal, hsendable => by
    unfold flushSend
    split_ifs with hmore
    · obtain ⟨t, handed, status, honce, hinput, cnt, hspan, -, hhanded, -, -⟩ :=
        flushSendOnce_spec (hfatal answers List.mem_cons_self) hsendable hmore.2
      have hfirst : platform = .linux ∨ (∀ a ∈ answers :: native, ¬Overtakes a 0 16) → handed = s.output.asSpan.take cnt :=
        fun hfine => hhanded (hfine.imp_right fun hnone hover =>
          hnone answers List.mem_cons_self (hover.mono (Nat.min_le_left _ _)))
      rw [honce]
      cases status with
      | some error =>
        exact ⟨t, handed, some error, rfl, hinput, cnt, hspan, hfirst⟩
      | none =>
        obtain ⟨u, handed', status, hrest, hinput', cnt', hspan', hhanded'⟩ := flushSend_spec native t
          (fun a ha => hfatal a (List.mem_cons_of_mem _ ha))
          (fun m hm => hsendable m (List.mem_of_mem_drop (hspan ▸ hm)))
        dsimp only
        rw [hrest]
        refine ⟨u, handed ++ handed', status, rfl, hinput'.trans hinput, cnt + cnt', ?_, fun hfine => ?_⟩
        · rw [hspan', hspan, List.drop_drop]
        · rw [hfirst hfine, hhanded' (hfine.imp_right fun hnone a ha => hnone a (List.mem_cons_of_mem _ ha)), hspan,
            List.take_add]
    · exact ⟨s, [], none, rfl, rfl, 0, rfl, fun _ => rfl⟩

/-- The loop ends when `sendmmsg` always takes something or fails. -/
theorem flushSend_returns {platform : Platform} : ∀ (native : List (ℕ → Except ℕ ℕ)) (s : BufferedUdp A),
    (∀ answers ∈ native, (∀ k, NotFatal fatalSendErrnos (answers k)) ∧ answers 0 ≠ .ok 0) →
      (∀ m ∈ s.output.asSpan, Sendable platform m) → s.output.asSpan.length < native.length →
        ∃ t handed status, s.flushSend platform native = some (t, handed, status) ∧
          (status = none → t.poll.flags.write = true → t.output.asSpan = [])
  | [], _, _, _, hlen => absurd hlen (Nat.not_lt_zero _)
  | answers :: native, s, hfatal, hsendable, hlen => by
    obtain ⟨hanswers, hzero⟩ := hfatal answers List.mem_cons_self
    unfold flushSend
    split_ifs with hmore
    · obtain ⟨t, handed, status, honce, -, cnt, hspan, -, -, -, hcnt⟩ := flushSendOnce_spec hanswers hsendable hmore.2
      rw [honce]
      cases status with
      | some error => exact ⟨t, handed, some error, rfl, nofun⟩
      | none =>
        dsimp only
        by_cases hwrite : t.poll.flags.write = true
        · have hpos := (hcnt hwrite rfl).resolve_left hzero
          have hlt : 0 < s.output.asSpan.length := List.length_pos_iff.mpr hmore.2
          obtain ⟨u, handed', status, hrest, hdone⟩ := flushSend_returns native t
            (fun a ha => hfatal a (List.mem_cons_of_mem _ ha))
            (fun m hm => hsendable m (List.mem_of_mem_drop (hspan ▸ hm)))
            (by rw [hspan, List.length_drop]; rw [List.length_cons] at hlen; omega)
          rw [hrest]
          exact ⟨u, _, status, rfl, hdone⟩
        · have hrest : flushSend platform t native = some (t, [], none) := by
            cases native with
            | nil => rfl
            | cons a native => exact if_neg fun h => hwrite h.1
          rw [hrest]
          exact ⟨t, _, none, rfl, fun _ h => absurd h hwrite⟩
    · refine ⟨s, [], none, rfl, fun _ hwrite => ?_⟩
      by_contra hne
      exact hmore ⟨hwrite, hne⟩

/-! ### What is received -/

/-- There is room behind the offset of a helper for a message. -/
structure Window (raws : ℕ) (h : Helper A) : Prop where
  lt : h.raw < raws
  le : h.offset + maxPacketSize ≤ reservedSize
  data : h.data = ⟨h.raw, h.offset, maxPacketSize⟩

/-- No two helpers have one buffer. -/
structure Windows (raws : ℕ) (helpers : List (Helper A)) : Prop where
  window : ∀ h ∈ helpers, Window raws h
  apart : helpers.Pairwise fun h h' => h.raw ≠ h'.raw

/-- The system will not write to the slice. -/
def Kept (raws : ℕ) (helpers : List (Helper A)) (slice : UdpSlice) : Prop :=
  slice.size = 0 ∨ slice.raw < raws ∧ ∀ h ∈ helpers, h.raw = slice.raw → slice.offset + slice.size ≤ h.offset

def load (memory : ℕ → Memory) (slice : UdpSlice) : List UInt8 := (memory slice.raw).load slice.offset slice.size

def read (memory : ℕ → Memory) (message : UdpMessage A UdpSlice) : UdpMessage A (List UInt8) :=
  ⟨message.address, load memory message.data, message.error⟩

variable {raws : ℕ} {helpers : List (Helper A)} {h : Helper A} {slice : UdpSlice}

theorem Window.mono {raws' : ℕ} (hwindow : Window raws h) (hle : raws ≤ raws') : Window raws' h :=
  ⟨Nat.lt_of_lt_of_le hwindow.lt hle, hwindow.le, hwindow.data⟩

theorem initInboundMessage_spec (raws : ℕ) (h : Helper A) (hoffset : h.offset ≤ reservedSize)
    (hraw : h.raw < raws ∨ h.offset = reservedSize) :
    ∃ raws' h', h.initInboundMessage raws = some (raws', h') ∧ raws ≤ raws' ∧ Window raws' h' ∧
      (h'.raw = h.raw ∧ h'.offset = h.offset ∨ raws ≤ h'.raw) := by
  unfold Helper.initInboundMessage
  by_cases hsmall : reservedSize - h.offset < maxPacketSize
  · rw [if_pos hsmall]
    refine ⟨raws + 1, _, if_pos (show maxPacketSize ≤ reservedSize - 0 by decide), Nat.le_succ raws,
      ⟨Nat.lt_succ_self raws, (show 0 + maxPacketSize ≤ reservedSize by decide), rfl⟩, .inr (Nat.le_refl raws)⟩
  · rw [if_neg hsmall]
    have hfits : h.offset + maxPacketSize ≤ reservedSize := by omega
    have hlt : h.raw < raws := hraw.resolve_right fun heq => hsmall (by rw [heq]; decide)
    exact ⟨raws, _, if_pos (Nat.not_lt.mp hsmall), Nat.le_refl raws, ⟨hlt, hfits, rfl⟩, .inl ⟨rfl, rfl⟩⟩

theorem length_fromNative_le (platform : Platform) (d : Datagram A) : (d.fromNative platform).data.length ≤ maxPacketSize := by
  unfold Datagram.fromNative
  split
  · exact Nat.zero_le _
  · split_ifs with hlong
    · exact Nat.zero_le _
    · exact Nat.not_lt.mp hlong

/-- What is left of a message is in the buffer. -/
theorem load_fill (platform : Platform) (memory : ℕ → Memory) (d : Datagram A) (hwindow : Window raws h) :
    load (h.fill platform memory d).1 ⟨h.raw, h.offset, (d.fromNative platform).data.length⟩ = (d.fromNative platform).data := by
  unfold Helper.fill load
  dsimp only
  rw [hwindow.data, Function.update_self]
  dsimp only
  unfold Datagram.fromNative
  split
  · rfl
  · split_ifs with hlong
    · rfl
    · rw [List.take_of_length_le (Nat.not_lt.mp hlong)]
      exact Memory.load_store _ _ _

/-- The system writes behind what is kept. -/
theorem load_fill_of_kept (platform : Platform) (memory : ℕ → Memory) (d : Datagram A) (hwindow : Window raws h)
    (hkept : slice.size = 0 ∨ (h.raw = slice.raw → slice.offset + slice.size ≤ h.offset)) :
    load (h.fill platform memory d).1 slice = load memory slice := by
  unfold Helper.fill load
  dsimp only
  rcases hkept with hempty | hkept
  · rw [hempty]
    rfl
  · rw [hwindow.data]
    dsimp only
    by_cases heq : slice.raw = h.raw
    · rw [heq, Function.update_self, Memory.load_store_of_apart (.inl (hkept heq.symm))]
    · rw [Function.update_of_ne heq]

theorem load_fillMessages (platform : Platform) : ∀ (helpers : List (Helper A)) (memory : ℕ → Memory) (taken : List (Datagram A)),
    (∀ h ∈ helpers, Window raws h) → Kept raws helpers slice →
      load (fillMessages platform memory helpers taken).1 slice = load memory slice
  | [], _, _, _, _ => rfl
  | _ :: _, _, [], _, _ => rfl
  | h :: helpers, memory, d :: taken, hwindow, hkept => by
    have hrest : Kept raws helpers slice :=
      hkept.imp_right fun hkept => ⟨hkept.1, fun h' hh' => hkept.2 h' (List.mem_cons_of_mem _ hh')⟩
    calc load (fillMessages platform memory (h :: helpers) (d :: taken)).1 slice
      _ = load (h.fill platform memory d).1 slice :=
        load_fillMessages platform helpers _ taken (fun h' hh' => hwindow h' (List.mem_cons_of_mem _ hh')) hrest
      _ = load memory slice := load_fill_of_kept platform memory d (hwindow h List.mem_cons_self)
        (hkept.imp_right fun hkept => hkept.2 h List.mem_cons_self)

theorem roundUp_spec {size : ℕ} (h : size ≤ maxPacketSize) : size ≤ roundUp size ∧ roundUp size ≤ maxPacketSize := by
  unfold roundUp
  unfold maxPacketSize at *
  omega

/-- A message is taken out of a helper, which is made ready for the next one. -/
theorem extract_spec (platform : Platform) (memory : ℕ → Memory) (d : Datagram A) (hwindow : Window raws h) :
    ∃ h₁ raws' h', (h.fill platform memory d).2.extractUdpMessage = some (h₁, ⟨(d.fromNative platform).address,
        ⟨h.raw, h.offset, (d.fromNative platform).data.length⟩, (d.fromNative platform).error⟩) ∧
      h₁.initInboundMessage raws = some (raws', h') ∧ raws ≤ raws' ∧ Window raws' h' ∧
      (h'.raw = h.raw ∧ h.offset + (d.fromNative platform).data.length ≤ h'.offset ∨ raws ≤ h'.raw) := by
  have hlen := length_fromNative_le platform d
  obtain ⟨hle, hround⟩ := roundUp_spec hlen
  have hfits := hwindow.le
  have hfill : (h.fill platform memory d).2 = ⟨(d.fromNative platform).address, (d.fromNative platform).error, h.raw, h.offset,
      ⟨h.raw, h.offset, (d.fromNative platform).data.length⟩⟩ := by
    unfold Helper.fill
    rw [hwindow.data]
  rw [hfill]
  generalize d.fromNative platform = message at hlen hle hround
  obtain ⟨raws', h', hinit, hraws, hwindow', hnext⟩ := initInboundMessage_spec raws
    ⟨message.address, message.error, h.raw, h.offset + roundUp message.data.length, ⟨h.raw, h.offset, message.data.length⟩⟩
    (show h.offset + roundUp message.data.length ≤ reservedSize by omega) (.inl hwindow.lt)
  refine ⟨_, raws', h', if_pos ⟨rfl, ?_, hround, ?_⟩, hinit, hraws, hwindow', hnext.imp_left fun hsame => ⟨hsame.1, ?_⟩⟩
  · rw [hsame.2]
    show h.offset + message.data.length ≤ h.offset + roundUp message.data.length
    omega
  · show h.offset + message.data.length ≤ reservedSize
    omega
  · show h.offset + roundUp message.data.length ≤ reservedSize
    omega

/-- The helpers after a call, each with its old buffer behind what it had or with a new one. -/
def Follows (raws : ℕ) (helpers helpers' : List (Helper A)) : Prop :=
  ∀ h' ∈ helpers', (∃ h ∈ helpers, h.raw = h'.raw ∧ h.offset ≤ h'.offset) ∨ raws ≤ h'.raw

theorem Kept.follows {raws' : ℕ} {helpers' : List (Helper A)} (hkept : Kept raws helpers slice) (hraws : raws ≤ raws')
    (hfollows : Follows raws helpers helpers') : Kept raws' helpers' slice := by
  refine hkept.imp_right fun ⟨hlt, hkept⟩ => ⟨Nat.lt_of_lt_of_le hlt hraws, fun h' hh' heq => ?_⟩
  rcases hfollows h' hh' with ⟨h, hh, hraw, hoffset⟩ | hnew
  · exact Nat.le_trans (hkept h hh (hraw.trans heq)) hoffset
  · rw [heq] at hnew
    exact absurd hlt (Nat.not_lt.mpr hnew)

/-- All messages of a call are taken out as the system has given them. -/
theorem extractMessages_spec (platform : Platform) : ∀ (helpers : List (Helper A)) (raws : ℕ) (memory : ℕ → Memory)
    (taken : List (Datagram A)), Windows raws helpers → taken.length ≤ helpers.length →
      ∃ raws' helpers' messages, extractMessages raws taken.length (fillMessages platform memory helpers taken).2 =
          some (raws', helpers', messages) ∧
        raws ≤ raws' ∧ Windows raws' helpers' ∧ helpers'.length = helpers.length ∧ Follows raws helpers helpers' ∧
        (∀ m ∈ messages, Kept raws' helpers' m.data ∧ ∃ h ∈ helpers, h.raw = m.data.raw) ∧
        messages.map (read (fillMessages platform memory helpers taken).1) = taken.map fun d => d.fromNative platform
  | helpers, raws, memory, [], hwindows, _ => by
    have hfill : fillMessages platform memory helpers [] = (memory, helpers) := by
      cases helpers with
      | nil => rfl
      | cons h helpers => rfl
    have hall : (helpers.all fun h => decide (h.data.size = maxPacketSize)) = true :=
      List.all_eq_true.mpr fun h hh => decide_eq_true (by rw [(hwindows.window h hh).data])
    have hextract : extractMessages raws 0 helpers = some (raws, helpers, []) := by
      cases helpers with
      | nil => rfl
      | cons h helpers => exact if_pos hall
    rw [hfill]
    exact ⟨raws, helpers, [], hextract, Nat.le_refl raws, hwindows, rfl,
      fun h hh => .inl ⟨h, hh, rfl, Nat.le_refl _⟩, nofun, rfl⟩
  | [], _, _, d :: taken, _, hlen => absurd hlen (Nat.not_succ_le_zero _)
  | h :: helpers, raws, memory, d :: taken, hwindows, hlen => by
    have hwindow := hwindows.window h List.mem_cons_self
    obtain ⟨hapart, hrestApart⟩ := List.pairwise_cons.mp hwindows.apart
    obtain ⟨h₁, raws₁, h', hextract, hinit, hraws, hwindow', hnext⟩ := extract_spec platform memory d hwindow
    obtain ⟨raws', helpers', messages, hrest, hraws', hwindows', hlength, hfollows, hkept, hread⟩ :=
      extractMessages_spec platform helpers raws₁ (h.fill platform memory d).1 taken
        ⟨fun h' hh' => (hwindows.window h' (List.mem_cons_of_mem _ hh')).mono hraws, hrestApart⟩ (Nat.le_of_succ_le_succ hlen)
    -- the buffers of the others are neither the old one nor the new one of the first
    have hother : ∀ h'' ∈ helpers', h''.raw ≠ h.raw ∧ h''.raw ≠ h'.raw := by
      intro h'' hh''
      have hlt := hwindow.lt
      have hlt' := hwindow'.lt
      rcases hfollows h'' hh'' with ⟨h₂, hh₂, hraw, -⟩ | hnew
      · have hne := hapart h₂ hh₂
        have hold := (hwindows.window h₂ (List.mem_cons_of_mem _ hh₂)).lt
        omega
      · omega
    have hmemory : fillMessages platform memory (h :: helpers) (d :: taken) =
        ((fillMessages platform (h.fill platform memory d).1 helpers taken).1,
          (h.fill platform memory d).2 :: (fillMessages platform (h.fill platform memory d).1 helpers taken).2) := rfl
    rw [hmemory]
    dsimp only
    refine ⟨raws', h' :: helpers', ⟨(d.fromNative platform).address, ⟨h.raw, h.offset, (d.fromNative platform).data.length⟩,
      (d.fromNative platform).error⟩ :: messages, ?_, Nat.le_trans hraws hraws', ⟨?_, ?_⟩, ?_, ?_, ?_, ?_⟩
    · rw [List.length_cons, extractMessages, hextract, Option.bind_some]
      dsimp only
      rw [hinit, Option.bind_some]
      dsimp only
      rw [hrest]
      rfl
    · intro h'' hh''
      rcases List.mem_cons.mp hh'' with rfl | hh''
      · exact hwindow'.mono hraws'
      · exact hwindows'.window h'' hh''
    · exact List.pairwise_cons.mpr ⟨fun h'' hh'' => (hother h'' hh'').2.symm, hwindows'.apart⟩
    · rw [List.length_cons, List.length_cons, hlength]
    · intro h'' hh''
      rcases List.mem_cons.mp hh'' with rfl | hh''
      · exact hnext.imp_left fun hsame => ⟨h, List.mem_cons_self, hsame.1.symm, by omega⟩
      · rcases hfollows h'' hh'' with ⟨h₂, hh₂, hraw, hoffset⟩ | hnew
        · exact .inl ⟨h₂, List.mem_cons_of_mem _ hh₂, hraw, hoffset⟩
        · exact .inr (Nat.le_trans hraws hnew)
    · intro m hm
      rcases List.mem_cons.mp hm with rfl | hm
      · refine ⟨.inr ⟨Nat.lt_of_lt_of_le hwindow.lt (Nat.le_trans hraws hraws'), fun h'' hh'' heq => ?_⟩,
          h, List.mem_cons_self, rfl⟩
        rcases List.mem_cons.mp hh'' with rfl | hh''
        · rcases hnext with ⟨-, hoffset⟩ | hnew
          · exact hoffset
          · have heq : h''.raw = h.raw := heq
            exact absurd hwindow.lt (Nat.not_lt.mpr (heq ▸ hnew))
        · exact absurd heq (hother h'' hh'').1
      · obtain ⟨hsafe, h₂, hh₂, hraw⟩ := hkept m hm
        refine ⟨hsafe.imp_right fun hsafe => ⟨hsafe.1, fun h'' hh'' heq => ?_⟩, h₂, List.mem_cons_of_mem _ hh₂, hraw⟩
        rcases List.mem_cons.mp hh'' with rfl | hh''
        · have hne := hapart h₂ hh₂
          have hold := (hwindows.window h₂ (List.mem_cons_of_mem _ hh₂)).lt
          omega
        · exact hsafe.2 h'' hh'' heq
    · rw [List.map_cons, List.map_cons, hread]
      have hkept : Kept raws helpers ⟨h.raw, h.offset, (d.fromNative platform).data.length⟩ :=
        .inr ⟨hwindow.lt, fun h₂ hh₂ heq => absurd heq.symm (hapart h₂ hh₂)⟩
      have hdata := (load_fillMessages platform helpers (h.fill platform memory d).1 taken
        (fun h₂ hh₂ => hwindows.window h₂ (List.mem_cons_of_mem _ hh₂)) hkept).trans (load_fill platform memory d hwindow)
      unfold read
      rw [hdata]

theorem processRecvmsgError_spec (platform : Platform) (fd : ℕ) (flags : PollFlags) {errno : ℕ}
    (h : errno ∉ fatalReceiveErrnos) :
    ∃ flags' status, processRecvmsgError platform fd flags errno = some (flags', status) := by
  unfold processRecvmsgError
  by_cases hagain : errno = eagain
  · exact ⟨_, _, if_pos hagain⟩
  · exact ⟨_, _, (if_neg hagain).trans (if_neg h)⟩

theorem receiveLoop_spec (platform : Platform) (fd : ℕ) {native : ℕ → Except ℕ (Datagram A)}
    (hfatal : ∀ k, NotFatal fatalReceiveErrnos (native k)) :
    ∀ (n k : ℕ) (flags : PollFlags), ∃ flags' taken status,
      receiveLoop platform fd native n k flags = some (flags', taken, status) ∧ taken.length ≤ n
  | 0, _, flags => ⟨flags, [], none, rfl, Nat.le_refl 0⟩
  | n + 1, k, flags => by
    unfold receiveLoop
    split_ifs
    · cases hnative : native k with
      | ok d =>
        obtain ⟨flags', taken, status, hrest, hlen⟩ := receiveLoop_spec platform fd hfatal n (k + 1) flags
        dsimp only
        rw [hrest]
        exact ⟨flags', d :: taken, status, rfl, Nat.succ_le_succ hlen⟩
      | error errno =>
        obtain ⟨flags', status, herror⟩ := processRecvmsgError_spec platform fd flags (hfatal k errno hnative)
        dsimp only
        rw [herror]
        exact ⟨flags', [], status, rfl, Nat.zero_le _⟩
    · exact ⟨flags, [], none, rfl, Nat.zero_le _⟩

theorem receiveErrors_spec (platform : Platform) (fd : ℕ) {native : ℕ → Except ℕ (Datagram A)}
    (hfatal : ∀ k, NotFatal fatalReceiveErrnos (native k)) :
    ∀ (n k : ℕ) (flags : PollFlags), ∃ flags' taken status,
      receiveErrors platform fd native n k flags = some (flags', taken, status) ∧ taken.length ≤ n
  | 0, _, flags => ⟨flags, [], none, rfl, Nat.le_refl 0⟩
  | n + 1, k, flags => by
    unfold receiveErrors
    cases hnative : native k with
    | ok d =>
      obtain ⟨flags', taken, status, hrest, hlen⟩ := receiveErrors_spec platform fd hfatal n (k + 1) flags
      dsimp only
      rw [hrest]
      exact ⟨flags', d :: taken, status, rfl, Nat.succ_le_succ hlen⟩
    | error errno =>
      obtain ⟨flags', status, herror⟩ := processRecvmsgError_spec platform fd flags (hfatal k errno hnative)
      dsimp only
      rw [herror]
      cases status with
      | none => exact receiveLoop_spec platform fd hfatal (n + 1) (k + 1) flags'
      | some error => exact ⟨flags', [], some error, rfl, Nat.zero_le _⟩

theorem receiveMessages_spec (platform : Platform) (fd : ℕ) (flags : PollFlags) {native : ReceiveNative A}
    (hmmsg : NotFatal fatalReceiveErrnos native.mmsg) (hmsg : ∀ k, NotFatal fatalReceiveErrnos (native.msg k)) :
    ∃ flags' taken status, receiveMessages platform fd flags native = some (flags', taken, status) ∧ taken.length ≤ 16 := by
  unfold receiveMessages
  by_cases hlinux : platform = .linux
  · rw [if_pos hlinux]
    unfold receiveMessagesFast
    cases hnative : native.mmsg with
    | ok datagrams => exact ⟨_, _, _, rfl, List.length_take_le 16 datagrams⟩
    | error errno =>
      obtain ⟨flags', status, herror⟩ := processRecvmsgError_spec .linux fd flags (hmmsg errno hnative)
      dsimp only
      rw [herror]
      exact ⟨flags', [], status, rfl, Nat.zero_le 16⟩
  · rw [if_neg hlinux]
    unfold receiveMessagesSlow
    split_ifs
    · exact receiveErrors_spec platform fd hmsg 16 0 flags
    · cases getSocketPendingError fd native.pending with
      | some error => exact ⟨flags, [], some error, rfl, Nat.zero_le 16⟩
      | none => exact receiveLoop_spec platform fd hmsg 16 0 _
    · exact receiveLoop_spec platform fd hmsg 16 0 flags

theorem asSpan_foldl_push {α : Type} : ∀ (xs : List α) (q : VectorQueue α), (xs.foldl .push q).asSpan = q.asSpan ++ xs
  | [], q => (List.append_nil _).symm
  | x :: xs, q => by rw [List.foldl_cons, asSpan_foldl_push xs, VectorQueue.asSpan_push, List.append_assoc, List.singleton_append]

/-- What has come to a socket in a call. -/
def Received.arrived (platform : Platform) (received : Received A) : List (UdpMessage A (List UInt8)) :=
  (received.taken.map fun d => d.fromNative platform) ++ statusMessage [] received.status

theorem read_statusMessage (memory : ℕ → Memory) (status : Option StatusError) :
    (statusMessage (A := A) ({} : UdpSlice) status).map (read memory) = statusMessage [] status := by
  cases status with
  | none => rfl
  | some error =>
    unfold statusMessage
    dsimp only
    split_ifs
    · rfl
    · rfl

/-- What a call leaves of what was received before. -/
structure Preserves (r r' : UdpReader A) : Prop where
  windows : Windows r'.raws r'.helpers
  length : r'.helpers.length = 16
  kept : ∀ slice, Kept r.raws r.helpers slice → Kept r'.raws r'.helpers slice ∧ load r'.memory slice = load r.memory slice

theorem flushReadOnce_spec (platform : Platform) {r : UdpReader A} (s : BufferedUdp A) {native : ReceiveNative A}
    (hwindows : Windows r.raws r.helpers) (hlength : r.helpers.length = 16)
    (hmmsg : NotFatal fatalReceiveErrnos native.mmsg) (hmsg : ∀ k, NotFatal fatalReceiveErrnos (native.msg k)) :
    ∃ r' s' taken status, flushReadOnce platform r s native = some (r', s', taken, status) ∧ Preserves r r' ∧
      s'.output = s.output ∧
      ∃ new, s'.input.asSpan = s.input.asSpan ++ new ∧ (∀ m ∈ new, Kept r'.raws r'.helpers m.data) ∧
        new.map (read r'.memory) = Received.arrived platform ⟨taken, status, none⟩ := by
  obtain ⟨flags, taken, status, hreceive, hlen⟩ := receiveMessages_spec platform s.fd s.poll.flags hmmsg hmsg
  obtain ⟨raws, helpers, messages, hextract, hraws, hwindows', hlength', hfollows, hkept, hread⟩ :=
    extractMessages_spec platform r.helpers r.raws r.memory taken hwindows (hlength ▸ hlen)
  have hall : (r.helpers.all fun h => decide (h.data.size = maxPacketSize)) = true :=
    List.all_eq_true.mpr fun h hh => decide_eq_true (by rw [(hwindows.window h hh).data])
  have hstep : flushReadOnce platform r s native = some (⟨(fillMessages platform r.memory r.helpers taken).1, raws, helpers⟩,
      { s with
        poll := { s.poll with flags := flags }
        input := (messages ++ statusMessage ({} : UdpSlice) status).foldl VectorQueue.push s.input }, taken, status) := by
    unfold flushReadOnce
    rw [if_pos hall, hreceive, Option.bind_some]
    dsimp only
    rw [hextract]
    rfl
  refine ⟨_, _, taken, status, hstep,
    ⟨hwindows', hlength'.trans hlength, fun slice hslice => ⟨hslice.follows hraws hfollows, ?_⟩⟩, rfl,
    messages ++ statusMessage ({} : UdpSlice) status, asSpan_foldl_push _ _, fun m hm => ?_, ?_⟩
  · exact load_fillMessages platform r.helpers r.memory taken hwindows.window hslice
  · rcases List.mem_append.mp hm with hm | hm
    · exact (hkept m hm).1
    · cases status with
      | none => cases hm
      | some error =>
        unfold statusMessage at hm
        dsimp only at hm
        split_ifs at hm
        · cases hm
        · rw [List.mem_singleton.mp hm]
          exact .inl rfl
  · rw [List.map_append, hread, read_statusMessage]
    rfl

theorem popInput_spec (s : BufferedUdp A) : ∃ s' message, s.popInput = some (s', message) ∧ s'.output = s.output ∧
    message.toList ++ s'.input.asSpan = s.input.asSpan := by
  unfold popInput
  split_ifs with hempty
  · exact ⟨s, none, rfl, rfl, rfl⟩
  · rcases s.input.pop_spec with ⟨-, hnil⟩ | ⟨input, message, hpop, hspan⟩
    · exact absurd hnil hempty
    · rw [hpop]
      exact ⟨_, some message, rfl, rfl, hspan.symm⟩

theorem Preserves.refl {r : UdpReader A} (hwindows : Windows r.raws r.helpers) (hlength : r.helpers.length = 16) :
    Preserves r r :=
  ⟨hwindows, hlength, fun _ hkept => ⟨hkept, rfl⟩⟩

/-- A call to `receive` gives away the oldest message. -/
theorem receive_spec (platform : Platform) {r : UdpReader A} (s : BufferedUdp A) {native : ReceiveNative A}
    (hwindows : Windows r.raws r.helpers) (hlength : r.helpers.length = 16)
    (hmmsg : NotFatal fatalReceiveErrnos native.mmsg) (hmsg : ∀ k, NotFatal fatalReceiveErrnos (native.msg k)) :
    ∃ r' s' received, receive platform r s native = some (r', s', received) ∧ Preserves r r' ∧ s'.output = s.output ∧
      ∃ new, received.message.toList ++ s'.input.asSpan = s.input.asSpan ++ new ∧
        (∀ m ∈ new, Kept r'.raws r'.helpers m.data) ∧ new.map (read r'.memory) = received.arrived platform := by
  unfold receive
  split_ifs with hread
  · obtain ⟨r', s', taken, status, honce, hpreserves, houtput, new, hinput, hkept, hnew⟩ :=
      flushReadOnce_spec platform s hwindows hlength hmmsg hmsg
    rw [honce, Option.bind_some]
    cases status with
    | some error => exact ⟨r', s', _, rfl, hpreserves, houtput, new, hinput, hkept, hnew⟩
    | none =>
      obtain ⟨s'', message, hpop, houtput', hspan⟩ := s'.popInput_spec
      dsimp only
      rw [hpop]
      exact ⟨r', s'', _, rfl, hpreserves, houtput'.trans houtput, new, hspan.trans hinput, hkept, hnew⟩
  · obtain ⟨s', message, hpop, houtput, hspan⟩ := s.popInput_spec
    rw [hpop]
    exact ⟨r, s', _, rfl, .refl hwindows hlength, houtput, [], hspan.trans (List.append_nil _).symm, nofun, rfl⟩

/-! ### All calls -/

/-- The checks of the source on what it is given. -/
def Fine (platform : Platform) : Event n A → Prop
  | .send _ message => Sendable platform message
  | .flushSend _ native => ∀ answers ∈ native, ∀ k, NotFatal fatalSendErrnos (answers k)
  | .receive _ native => NotFatal fatalReceiveErrnos native.mmsg ∧ ∀ k, NotFatal fatalReceiveErrnos (native.msg k)
  | _ => True

def InOrder (platform : Platform) : Event n A → Prop
  | .flushSend _ native => platform = .linux ∨ ∀ answers ∈ native, ¬Overtakes answers 0 16
  | _ => True

variable {i j : Fin n}

/-- What `send` was called with. -/
def requested (j : Fin n) : Event n A × Answer A → List (UdpMessage A (List UInt8))
  | (.send i message, _) => if i = j then [message] else []
  | _ => []

def handedOver (j : Fin n) : Event n A × Answer A → List (UdpMessage A (List UInt8))
  | (.flushSend i _, .sent handed _) => if i = j then handed else []
  | _ => []

/-- What `receive` has returned. -/
def returned (j : Fin n) : Event n A × Answer A → List (UdpMessage A UdpSlice)
  | (.receive i _, .received received) => if i = j then received.message.toList else []
  | _ => []

/-- What the system has given for the socket. -/
def arrived (platform : Platform) (j : Fin n) : Event n A × Answer A → List (UdpMessage A (List UInt8))
  | (.receive i _, .received received) => if i = j then received.arrived platform else []
  | _ => []

/-- After the history `past`. -/
structure Reached (platform : Platform) (past : List (Event n A × Answer A)) (s : Sockets n A) : Prop where
  windows : Windows s.reader.raws s.reader.helpers
  length : s.reader.helpers.length = 16
  sendable : ∀ j, ∀ m ∈ (s.socket j).output.asSpan, Sendable platform m
  kept : ∀ j, ∀ m ∈ past.flatMap (returned j) ++ (s.socket j).input.asSpan, Kept s.reader.raws s.reader.helpers m.data
  sent : (∀ e ∈ past, InOrder platform e.1) → ∀ j,
    past.flatMap (requested j) = past.flatMap (handedOver j) ++ (s.socket j).output.asSpan
  received : ∀ j, (past.flatMap (returned j) ++ (s.socket j).input.asSpan).map (read s.reader.memory) =
    past.flatMap (arrived platform j)

theorem flatMap_concat {α β : Type} (f : α → List β) (xs : List α) (x : α) : (xs ++ [x]).flatMap f = xs.flatMap f ++ f x := by
  rw [List.flatMap_append, List.flatMap_singleton]

/-- A step that only changes what is to be sent. -/
theorem Reached.sends {platform : Platform} {past : List (Event n A × Answer A)} {s : Sockets n A} (h : Reached platform past s)
    (socket : BufferedUdp A) (event : Event n A) (answer : Answer A) (hinput : socket.input = (s.socket j).input)
    (hsendable : ∀ m ∈ socket.output.asSpan, Sendable platform m) (hreturned : ∀ i, returned i (event, answer) = [])
    (harrived : ∀ i, arrived platform i (event, answer) = [])
    (hothers : ∀ i, i ≠ j → requested i (event, answer) = [] ∧ handedOver i (event, answer) = [])
    (hsent : InOrder platform event → (s.socket j).output.asSpan ++ requested j (event, answer) =
      handedOver j (event, answer) ++ socket.output.asSpan) :
    Reached platform (past ++ [(event, answer)]) (s.set j socket) := by
  have hself : (s.set j socket).socket j = socket := Function.update_self _ _ _
  have hother : ∀ i, i ≠ j → (s.set j socket).socket i = s.socket i := fun i hi => Function.update_of_ne hi _ _
  have hinputs : ∀ i, ((s.set j socket).socket i).input = (s.socket i).input := by
    intro i
    by_cases hi : i = j
    · rw [hi, hself, hinput]
    · rw [hother i hi]
  refine ⟨h.windows, h.length, fun i => ?_, fun i m hm => ?_, fun hfine i => ?_, fun i => ?_⟩
  · by_cases hi : i = j
    · rw [hi, hself]
      exact hsendable
    · rw [hother i hi]
      exact h.sendable i
  · rw [flatMap_concat, hreturned, List.append_nil, hinputs] at hm
    exact h.kept i m hm
  · have hpast := h.sent (fun e he => hfine e (List.mem_append_left _ he)) i
    have hevent := hfine (event, answer) (List.mem_append_right _ (List.mem_singleton.mpr rfl))
    rw [flatMap_concat, flatMap_concat, hpast]
    by_cases hi : i = j
    · rw [hi, hself, List.append_assoc, hsent hevent, List.append_assoc]
    · rw [hother i hi, (hothers i hi).1, (hothers i hi).2, List.append_nil, List.append_nil]
  · rw [flatMap_concat, flatMap_concat, hreturned, harrived, List.append_nil, List.append_nil, hinputs]
    exact h.received i

/-- A call to `receive`. -/
theorem Reached.receives {platform : Platform} {past : List (Event n A × Answer A)} {s : Sockets n A}
    (h : Reached platform past s)
    {native : ReceiveNative A} {reader : UdpReader A} {socket : BufferedUdp A} {received : Received A}
    (hpreserves : Preserves s.reader reader) (houtput : socket.output = (s.socket j).output)
    {new : List (UdpMessage A UdpSlice)}
    (hspan : received.message.toList ++ socket.input.asSpan = (s.socket j).input.asSpan ++ new)
    (hkept : ∀ m ∈ new, Kept reader.raws reader.helpers m.data)
    (hnew : new.map (read reader.memory) = received.arrived platform) :
    Reached platform (past ++ [(.receive j native, .received received)]) ({ s with reader := reader }.set j socket) := by
  have hself : ({ s with reader := reader }.set j socket).socket j = socket := Function.update_self _ _ _
  have hother : ∀ i, i ≠ j → ({ s with reader := reader }.set j socket).socket i = s.socket i :=
    fun i hi => Function.update_of_ne hi _ _
  have houtputs : ∀ i, (({ s with reader := reader }.set j socket).socket i).output = (s.socket i).output := by
    intro i
    by_cases hi : i = j
    · rw [hi, hself, houtput]
    · rw [hother i hi]
  have hreturned : ∀ i, returned i (Event.receive j native, Answer.received received) =
      if j = i then received.message.toList else [] := fun _ => rfl
  -- what the socket has got so far, with the new messages behind it
  have hspans : ∀ i, (past ++ [(Event.receive j native, Answer.received received)]).flatMap (returned i) ++
      (({ s with reader := reader }.set j socket).socket i).input.asSpan =
        past.flatMap (returned i) ++ (s.socket i).input.asSpan ++ if i = j then new else [] := by
    intro i
    rw [flatMap_concat, hreturned]
    by_cases hi : i = j
    · rw [hi, hself, if_pos rfl, if_pos rfl, List.append_assoc, hspan, List.append_assoc]
    · rw [hother i hi, if_neg (Ne.symm hi), if_neg hi, List.append_nil, List.append_nil]
  refine ⟨hpreserves.windows, hpreserves.length, fun i m hm => h.sendable i m (houtputs i ▸ hm), fun i m hm => ?_,
    fun hfine i => ?_, fun i => ?_⟩
  · rw [hspans i] at hm
    rcases List.mem_append.mp hm with hm | hm
    · exact (hpreserves.kept _ (h.kept i m hm)).1
    · split_ifs at hm
      · exact hkept m hm
      · cases hm
  · have hpast := h.sent (fun e he => hfine e (List.mem_append_left _ he)) i
    rw [flatMap_concat, flatMap_concat, hpast, houtputs i]
    exact (List.append_nil _).trans (congrArg (· ++ _) (List.append_nil _).symm)
  · have hold : (past.flatMap (returned i) ++ (s.socket i).input.asSpan).map (read reader.memory) =
        past.flatMap (arrived platform i) := by
      rw [← h.received i]
      refine List.map_congr_left fun m hm => ?_
      unfold read
      rw [(hpreserves.kept _ (h.kept i m hm)).2]
    rw [hspans i, List.map_append]
    have harrived : arrived platform i (Event.receive j native, Answer.received received) =
      if j = i then received.arrived platform else [] := rfl
    rw [flatMap_concat, harrived]
    refine congrArg₂ (· ++ ·) hold ?_
    by_cases hi : i = j
    · rw [if_pos hi, if_pos hi.symm]
      exact hnew
    · rw [if_neg hi, if_neg (Ne.symm hi)]
      rfl

theorem Reached.step {platform : Platform} {past : List (Event n A × Answer A)} {s : Sockets n A} (h : Reached platform past s)
    {event : Event n A} (hfine : Fine platform event) :
    ∃ t answer, step platform s event = some (t, answer) ∧ Reached platform (past ++ [(event, answer)]) t := by
  cases event with
  | send j message =>
    refine ⟨_, _, rfl, h.sends _ _ _ rfl (fun m hm => ?_) (fun _ => rfl) (fun _ => rfl)
      (fun i hi => ⟨if_neg (Ne.symm hi), rfl⟩) fun _ => ?_⟩
    · rw [VectorQueue.asSpan_push] at hm
      rcases List.mem_append.mp hm with hm | hm
      · exact h.sendable j m hm
      · rw [List.mem_singleton.mp hm]
        exact hfine
    · rw [VectorQueue.asSpan_push]
      exact congrArg (_ ++ ·) (if_pos rfl)
  | flushSend j native =>
    obtain ⟨socket, handed, status, hflush, hinput, cnt, hspan, hhanded⟩ :=
      flushSend_spec native (s.socket j) hfine (h.sendable j)
    refine ⟨s.set j socket, .sent handed status, ?_, h.sends socket _ _ hinput
      (fun m hm => h.sendable j m (List.mem_of_mem_drop (hspan ▸ hm))) (fun _ => rfl) (fun _ => rfl)
      (fun i hi => ⟨rfl, if_neg (Ne.symm hi)⟩) fun hordered => ?_⟩
    · unfold BufferedUdp.step
      dsimp only
      rw [hflush]
      rfl
    · have hself : handedOver j (Event.flushSend j native, Answer.sent handed status) = handed := if_pos rfl
      rw [hself, hspan, hhanded hordered, List.take_append_drop]
      exact List.append_nil _
  | receive j native =>
    obtain ⟨reader, socket, received, hreceive, hpreserves, houtput, new, hspan, hkept, hnew⟩ :=
      receive_spec platform (s.socket j) h.windows h.length hfine.1 hfine.2
    refine ⟨_, .received received, ?_, h.receives hpreserves houtput hspan hkept hnew⟩
    unfold BufferedUdp.step
    dsimp only
    rw [hreceive]
    rfl
  | addFlagsFromPoll j flags =>
    exact ⟨_, _, rfl, h.sends _ _ _ rfl (h.sendable j) (fun _ => rfl) (fun _ => rfl) (fun i hi => ⟨rfl, rfl⟩)
      fun _ => List.append_nil _⟩
  | syncWithPoll j =>
    exact ⟨_, _, rfl, h.sends _ _ _ rfl (h.sendable j) (fun _ => rfl) (fun _ => rfl) (fun i hi => ⟨rfl, rfl⟩)
      fun _ => List.append_nil _⟩

/-- The reader of a thread. -/
theorem readerInit_spec :
    ∀ n : ℕ, ∃ r : UdpReader A, UdpReader.init n = some r ∧ Windows r.raws r.helpers ∧ r.helpers.length = n
  | 0 => ⟨{}, rfl, ⟨nofun, List.Pairwise.nil⟩, rfl⟩
  | n + 1 => by
    obtain ⟨r, hr, hwindows, hlength⟩ := readerInit_spec n
    obtain ⟨raws', h', hinit, hraws, hwindow, hnext⟩ :=
      initInboundMessage_spec r.raws ({} : Helper A) (Nat.le_refl _) (.inr rfl)
    -- the first buffer of a helper is a new one
    have hnew : r.raws ≤ h'.raw := by
      refine hnext.resolve_left fun hsame => ?_
      have hle := hwindow.le
      rw [hsame.2] at hle
      exact absurd hle (show ¬reservedSize + maxPacketSize ≤ reservedSize by decide)
    refine ⟨{ r with raws := raws', helpers := r.helpers ++ [h'] }, ?_, ⟨fun h hh => ?_, ?_⟩, ?_⟩
    · unfold UdpReader.init
      rw [hr, Option.bind_some, hinit]
      rfl
    · rcases List.mem_append.mp hh with hh | hh
      · exact (hwindows.window h hh).mono hraws
      · rw [List.mem_singleton.mp hh]
        exact hwindow
    · refine List.pairwise_append.mpr ⟨hwindows.apart, List.pairwise_singleton _ _, fun h hh h'' hh'' => ?_⟩
      rw [List.mem_singleton.mp hh'']
      exact Nat.ne_of_lt (Nat.lt_of_lt_of_le (hwindows.window h hh).lt hnew)
    · rw [List.length_append, hlength, List.length_singleton]

theorem exists_reached (platform : Platform) (fds : Fin n → ℕ) {events : List (Event n A)}
    (hfine : ∀ event ∈ events, Fine platform event) :
    ∃ s₀ s answers, start A fds = some s₀ ∧ (machine platform n A).run s₀ events = some (s, answers) ∧
      Reached platform (events.zip answers) s := by
  obtain ⟨r, hr, hwindows, hlength⟩ := readerInit_spec (A := A) 16
  have hstart : Reached platform [] (⟨r, fun j => { fd := fds j }⟩ : Sockets n A) :=
    ⟨hwindows, hlength, fun _ => nofun, fun _ => nofun, fun _ _ => rfl, fun _ => rfl⟩
  obtain ⟨s, answers, hrun, -, hreached⟩ := (machine platform n A).run_history ⟨r, fun j => { fd := fds j }⟩ (fun _ _ => True)
    (fun events => ∀ event ∈ events, Fine platform event)
    (fun is os s => is.length = os.length ∧ Reached platform (is.zip os) s)
    (fun is i hall event hevent => hall event (List.mem_append_left _ hevent)) ⟨rfl, hstart⟩
    (fun is os s i hall _ ⟨hlen, hreached⟩ => by
      obtain ⟨t, answer, hstep, hreached'⟩ := hreached.step (hall i (List.mem_append_right _ (List.mem_singleton.mpr rfl)))
      refine ⟨t, answer, hstep, by rw [List.length_append, List.length_append, hlen]; rfl, ?_⟩
      rw [List.zip_append hlen]
      exact hreached')
    events hfine (Machine.along_of_forall _ _ fun _ _ _ => trivial)
  exact ⟨_, s, answers, by unfold start; rw [hr]; rfl, hrun, hreached⟩

/-- With `sendmmsg`, or when no message overtakes another one, each message that was sent is handed over once and in its turn,
or still waits, and a queue takes little more space than what waits in it. -/
theorem sent_in_order (platform : Platform) (fds : Fin n → ℕ) (events : List (Event n A))
    (hfine : ∀ event ∈ events, Fine platform event) (hordered : ∀ event ∈ events, InOrder platform event) :
    ∃ s₀ s answers, start A fds = some s₀ ∧ (machine platform n A).run s₀ events = some (s, answers) ∧
      ∀ j, (events.zip answers).flatMap (requested j) =
          (events.zip answers).flatMap (handedOver j) ++ (s.socket j).output.asSpan ∧
        (s.socket j).output.vector.length ≤ 2 * (s.socket j).output.size + 5 := by
  obtain ⟨s₀, s, answers, hstart, hrun, hreached⟩ := exists_reached platform fds hfine
  exact ⟨s₀, s, answers, hstart, hrun, fun j =>
    ⟨hreached.sent (fun e he => hordered e.1 (List.of_mem_zip he).1) j, VectorQueue.length_vector_le _⟩⟩

/-- One message is handed over, the next one waits and is dropped then. -/
theorem sent_in_order_two : ∃ s₀ s answers, start ℕ (fun _ : Fin 1 => 3) = some s₀ ∧
    let events : List (Event 1 ℕ) := [.send 0 ⟨some 7, [1], none⟩, .send 0 ⟨some 7, [2], none⟩,
      .addFlagsFromPoll 0 { write := true }, .syncWithPoll 0, .flushSend 0 [fun k => if k = 0 then .ok 1 else .error eagain],
      .addFlagsFromPoll 0 { write := true }, .syncWithPoll 0, .flushSend 0 [fun _ => .error 13]]
    (machine .other 1 ℕ).run s₀ events = some (s, answers) ∧
      ∀ j, (events.zip answers).flatMap (requested j) =
          (events.zip answers).flatMap (handedOver j) ++ (s.socket j).output.asSpan ∧
        (s.socket j).output.vector.length ≤ 2 * (s.socket j).output.size + 5 := by
  have hwaits : ∀ k, NotFatal fatalSendErrnos (if k = 0 then .ok 1 else .error eagain) := by
    intro k errno heq
    split_ifs at heq
    rw [← Except.error.inj heq]
    decide
  have hdrops : ∀ _ : ℕ, NotFatal fatalSendErrnos (.error 13 : Except ℕ ℕ) := by
    intro _ errno heq
    rw [← Except.error.inj heq]
    decide
  refine sent_in_order .other (fun _ => 3) _ ?_ ?_
  · simp only [List.forall_mem_cons]
    exact ⟨⟨rfl, nofun⟩, ⟨rfl, nofun⟩, trivial, trivial, List.forall_mem_singleton.mpr hwaits, trivial, trivial,
      List.forall_mem_singleton.mpr hdrops, nofun⟩
  · simp only [List.forall_mem_cons]
    refine ⟨trivial, trivial, trivial, trivial, .inr (List.forall_mem_singleton.mpr ?_), trivial, trivial,
      .inr (List.forall_mem_singleton.mpr ?_), nofun⟩
    · rintro ⟨i, j, -, hij, -, -, haccepts, -⟩
      dsimp only at haccepts
      rw [if_neg (Nat.ne_of_gt (Nat.zero_lt_of_lt hij))] at haccepts
      cases haccepts
    · rintro ⟨i, j, -, -, -, hagain, -⟩
      cases hagain

/-- In any calls to any sockets of the thread, `receive` returns the messages of each one in the order in which the system has
given them, and no later call changes what was returned or what waits. -/
theorem received_intact (platform : Platform) (fds : Fin n → ℕ) (events : List (Event n A))
    (hfine : ∀ event ∈ events, Fine platform event) :
    ∃ s₀ s answers, start A fds = some s₀ ∧ (machine platform n A).run s₀ events = some (s, answers) ∧
      ∀ j, ((events.zip answers).flatMap (returned j) ++ (s.socket j).input.asSpan).map (read s.reader.memory) =
        (events.zip answers).flatMap (arrived platform j) := by
  obtain ⟨s₀, s, answers, hstart, hrun, hreached⟩ := exists_reached platform fds hfine
  exact ⟨s₀, s, answers, hstart, hrun, hreached.received⟩

theorem received_intact_two : ∃ s₀ s answers, start ℕ (fun j : Fin 2 => j.val) = some s₀ ∧
    let events : List (Event 2 ℕ) := [.addFlagsFromPoll 0 { read := true }, .syncWithPoll 0,
      .receive 0 { mmsg := .ok [⟨7, [1, 2, 3], none⟩, ⟨7, List.replicate 2049 0, none⟩] },
      .addFlagsFromPoll 1 { error := true }, .syncWithPoll 1, .receive 1 { mmsg := .ok [⟨8, [4], some 111⟩] },
      .receive 0 {}, .receive 0 {}]
    (machine .linux 2 ℕ).run s₀ events = some (s, answers) ∧
      ∀ j, ((events.zip answers).flatMap (returned j) ++ (s.socket j).input.asSpan).map (read s.reader.memory) =
        (events.zip answers).flatMap (arrived .linux j) := by
  have hwaits : ∀ {β : Type}, NotFatal fatalReceiveErrnos (.error eagain : Except ℕ β) := by
    intro β errno heq
    rw [← Except.error.inj heq]
    decide
  refine received_intact .linux (fun j => j.val) _ ?_
  simp only [List.forall_mem_cons]
  exact ⟨trivial, trivial, ⟨nofun, fun _ => hwaits⟩, trivial, trivial, ⟨nofun, fun _ => hwaits⟩, ⟨hwaits, fun _ => hwaits⟩,
    ⟨hwaits, fun _ => hwaits⟩, nofun⟩

end BufferedUdp

end TdUtils
