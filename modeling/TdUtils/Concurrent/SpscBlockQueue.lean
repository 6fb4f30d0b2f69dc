import Mathlib.Logic.Function.Basic
import Mathlib.Data.List.Basic
import Mathlib.Data.Nat.ModEq

/-!
# Concurrent.SpscBlockQueue — a ring buffer with one writer and one reader, and its counters before they wrap

Each side works on copies of the other's counter.  `Block` has the same counters as numbers, in the order in
which they cannot pass each other, and all items ever put; `Rep` relates the two.
-/

namespace TdUtils

/-- `Position`, without the padding. -/
structure SpscBlockQueue.Position where
  i : UInt32 := 0
  localWriterI : UInt32 := 0
  localReaderI : UInt32 := 0

open SpscBlockQueue in
/-- `data` is a slot's value, `none` before it is put and after it is moved out. -/
structure SpscBlockQueue (p : ℕ) (α : Type) where
  data : ℕ → Option α := fun _ => none
  writer : Position := {}
  reader : Position := {}

namespace SpscBlockQueue

variable {p : ℕ} {α : Type}

def bufferSize (p : ℕ) : UInt32 := UInt32.ofNat (2 ^ p)

def fixI (p : ℕ) (i : UInt32) : ℕ := (i &&& (bufferSize p - 1)).toNat

/-- `static_cast<int>`. -/
def toInt (n : UInt32) : ℤ := n.toInt32.toInt

def writerSize (q : SpscBlockQueue p α) : ℤ :=
  toInt (q.writer.localReaderI + bufferSize p - q.writer.localWriterI)

def writerEmpty (q : SpscBlockQueue p α) : Bool := q.writer.localReaderI + bufferSize p = q.writer.localWriterI

def writerPutUnsafe (q : SpscBlockQueue p α) (value : α) : SpscBlockQueue p α :=
  { q with
    data := Function.update q.data (fixI p q.writer.localWriterI) (some value)
    writer := { q.writer with localWriterI := q.writer.localWriterI + 1 } }

def writerUpdate (q : SpscBlockQueue p α) : SpscBlockQueue p α :=
  { q with writer := { q.writer with localReaderI := q.reader.i } }

def writerFlush (q : SpscBlockQueue p α) : SpscBlockQueue p α :=
  { q with writer := { q.writer with i := q.writer.localWriterI } }

def readerSize (q : SpscBlockQueue p α) : ℤ := toInt (q.reader.localWriterI - q.reader.localReaderI)

/-- The value is moved out. -/
def readerGetUnsafe (q : SpscBlockQueue p α) : SpscBlockQueue p α :=
  { q with
    data := Function.update q.data (fixI p q.reader.localReaderI) none
    reader := { q.reader with localReaderI := q.reader.localReaderI + 1 } }

def readerUpdate (q : SpscBlockQueue p α) : SpscBlockQueue p α :=
  { q with reader := { q.reader with localWriterI := q.writer.i } }

def readerFlush (q : SpscBlockQueue p α) : SpscBlockQueue p α :=
  { q with reader := { q.reader with i := q.reader.localReaderI } }

/-! ### The counters as numbers -/

/-- `seenRead` and `seenFlushed` are the copies of the writer and of the reader; `returned` is what the reader
has flushed. -/
structure Block (p : ℕ) (α : Type) where
  items : List α
  flushed : ℕ
  read : ℕ
  returned : ℕ
  seenRead : ℕ
  seenFlushed : ℕ
  seenRead_le : seenRead ≤ returned
  returned_le : returned ≤ read
  read_le : read ≤ seenFlushed
  seenFlushed_le : seenFlushed ≤ flushed
  flushed_le : flushed ≤ items.length
  length_le : items.length ≤ seenRead + 2 ^ p

namespace Block

def empty : Block p α where
  items := []
  flushed := 0
  read := 0
  returned := 0
  seenRead := 0
  seenFlushed := 0
  seenRead_le := le_rfl
  returned_le := le_rfl
  read_le := le_rfl
  seenFlushed_le := le_rfl
  flushed_le := le_rfl
  length_le := Nat.zero_le _

def put (b : Block p α) (value : α) (h : b.items.length < b.seenRead + 2 ^ p) : Block p α where
  items := b.items ++ [value]
  flushed := b.flushed
  read := b.read
  returned := b.returned
  seenRead := b.seenRead
  seenFlushed := b.seenFlushed
  seenRead_le := b.seenRead_le
  returned_le := b.returned_le
  read_le := b.read_le
  seenFlushed_le := b.seenFlushed_le
  flushed_le := by
    rw [List.length_append]
    exact Nat.le_add_right_of_le b.flushed_le
  length_le := by
    rw [List.length_append]
    exact h

def writerUpdate (b : Block p α) : Block p α where
  items := b.items
  flushed := b.flushed
  read := b.read
  returned := b.returned
  seenRead := b.returned
  seenFlushed := b.seenFlushed
  seenRead_le := le_rfl
  returned_le := b.returned_le
  read_le := b.read_le
  seenFlushed_le := b.seenFlushed_le
  flushed_le := b.flushed_le
  length_le := b.length_le.trans (Nat.add_le_add_right b.seenRead_le _)

def writerFlush (b : Block p α) : Block p α where
  items := b.items
  flushed := b.items.length
  read := b.read
  returned := b.returned
  seenRead := b.seenRead
  seenFlushed := b.seenFlushed
  seenRead_le := b.seenRead_le
  returned_le := b.returned_le
  read_le := b.read_le
  seenFlushed_le := b.seenFlushed_le.trans b.flushed_le
  flushed_le := le_rfl
  length_le := b.length_le

def get (b : Block p α) (h : b.read < b.seenFlushed) : Block p α where
  items := b.items
  flushed := b.flushed
  read := b.read + 1
  returned := b.returned
  seenRead := b.seenRead
  seenFlushed := b.seenFlushed
  seenRead_le := b.seenRead_le
  returned_le := Nat.le_succ_of_le b.returned_le
  read_le := h
  seenFlushed_le := b.seenFlushed_le
  flushed_le := b.flushed_le
  length_le := b.length_le

def readerUpdate (b : Block p α) : Block p α where
  items := b.items
  flushed := b.flushed
  read := b.read
  returned := b.returned
  seenRead := b.seenRead
  seenFlushed := b.flushed
  seenRead_le := b.seenRead_le
  returned_le := b.returned_le
  read_le := b.read_le.trans b.seenFlushed_le
  seenFlushed_le := le_rfl
  flushed_le := b.flushed_le
  length_le := b.length_le

def readerFlush (b : Block p α) : Block p α where
  items := b.items
  flushed := b.flushed
  read := b.read
  returned := b.read
  seenRead := b.seenRead
  seenFlushed := b.seenFlushed
  seenRead_le := b.seenRead_le.trans b.returned_le
  returned_le := le_rfl
  read_le := b.read_le
  seenFlushed_le := b.seenFlushed_le
  flushed_le := b.flushed_le
  length_le := b.length_le

variable {b : Block p α}

theorem read_le_length : b.read ≤ b.items.length :=
  b.read_le.trans (b.seenFlushed_le.trans b.flushed_le)

theorem length_le_read : b.items.length ≤ b.read + 2 ^ p :=
  b.length_le.trans (Nat.add_le_add_right (b.seenRead_le.trans b.returned_le) _)

end Block

/-- The words are the counters modulo `2 ^ 32`, and the slots hold the items that are not read. -/
structure Rep (q : SpscBlockQueue p α) (b : Block p α) : Prop where
  flushed : q.writer.i = UInt32.ofNat b.flushed
  written : q.writer.localWriterI = UInt32.ofNat b.items.length
  seenRead : q.writer.localReaderI = UInt32.ofNat b.seenRead
  returned : q.reader.i = UInt32.ofNat b.returned
  seenFlushed : q.reader.localWriterI = UInt32.ofNat b.seenFlushed
  read : q.reader.localReaderI = UInt32.ofNat b.read
  stored : ∀ i, b.read ≤ i → i < b.items.length → q.data (i % 2 ^ p) = b.items[i]?
  vacant : ∀ j, (∀ i, b.read ≤ i → i < b.items.length → i % 2 ^ p ≠ j) → q.data j = none

/-! ### The words -/

theorem bufferSize_toNat (hp : p ≤ 20) : (bufferSize p).toNat = 2 ^ p := by
  have hle := Nat.pow_le_pow_right (show 0 < 2 by decide) hp
  unfold bufferSize
  rw [UInt32.toNat_ofNat', Nat.mod_eq_of_lt]
  omega

theorem fixI_ofNat (hp : p ≤ 20) (i : ℕ) : fixI p (UInt32.ofNat i) = i % 2 ^ p := by
  have hpos := Nat.two_pow_pos p
  have hmask : (bufferSize p - 1).toNat = 2 ^ p - 1 := by
    have hle := Nat.pow_le_pow_right (show 0 < 2 by decide) hp
    rw [UInt32.toNat_sub, bufferSize_toNat hp, UInt32.toNat_one]
    omega
  have hdvd : 2 ^ p ∣ 2 ^ 32 := Nat.pow_dvd_pow 2 (by omega)
  unfold fixI
  rw [UInt32.toNat_and, hmask, UInt32.toNat_ofNat', Nat.and_two_pow_sub_one_eq_mod, Nat.mod_mod_of_dvd _ hdvd]

theorem toInt_sub {a b : ℕ} (hle : b ≤ a) (hlt : a - b < 2 ^ 31) :
    toInt (UInt32.ofNat a - UInt32.ofNat b) = a - b := by
  have hsub : (UInt32.ofNat a - UInt32.ofNat b).toNat = a - b := by
    rw [UInt32.toNat_sub, UInt32.toNat_ofNat', UInt32.toNat_ofNat']
    omega
  have htwice : 2 * (UInt32.ofNat a - UInt32.ofNat b).toNat < 2 ^ 32 := by omega
  have hcast : toInt (UInt32.ofNat a - UInt32.ofNat b) = (UInt32.ofNat a - UInt32.ofNat b).toNat :=
    BitVec.toInt_eq_toNat_of_lt htwice
  rw [hcast, hsub]
  omega

/-- Two items of a window no longer than the buffer have different slots. -/
theorem slot_ne {i k : ℕ} (hlt : i < k) (hwindow : k < i + 2 ^ p) : i % 2 ^ p ≠ k % 2 ^ p := by
  intro heq
  have hzero := Nat.sub_mod_eq_zero_of_mod_eq heq.symm
  rw [Nat.mod_eq_of_lt (by omega)] at hzero
  omega

/-! ### Each operation -/

variable {q : SpscBlockQueue p α} {b : Block p α}

theorem Rep.writerSize_eq (h : Rep q b) (hp : p ≤ 20) :
    q.writerSize = (b.seenRead + 2 ^ p : ℕ) - (b.items.length : ℤ) := by
  have hle := Nat.pow_le_pow_right (show 0 < 2 by decide) hp
  have hlength := b.length_le
  have hseen : b.seenRead ≤ b.items.length :=
    b.seenRead_le.trans (b.returned_le.trans Block.read_le_length)
  unfold writerSize bufferSize
  rw [h.seenRead, h.written, ← UInt32.ofNat_add, toInt_sub hlength (by omega)]

theorem Rep.writerEmpty_iff (h : Rep q b) (hp : p ≤ 20) :
    q.writerEmpty = true ↔ b.items.length = b.seenRead + 2 ^ p := by
  have hle := Nat.pow_le_pow_right (show 0 < 2 by decide) hp
  have hlength := b.length_le
  have hseen : b.seenRead ≤ b.items.length :=
    b.seenRead_le.trans (b.returned_le.trans Block.read_le_length)
  unfold writerEmpty bufferSize
  rw [decide_eq_true_eq, h.seenRead, h.written, ← UInt32.ofNat_add, ← UInt32.toNat_inj, UInt32.toNat_ofNat',
    UInt32.toNat_ofNat']
  omega

theorem Rep.readerSize_eq (h : Rep q b) (hp : p ≤ 20) : q.readerSize = b.seenFlushed - b.read := by
  have hle := Nat.pow_le_pow_right (show 0 < 2 by decide) hp
  have hlength := b.length_le_read
  have hflushed := b.seenFlushed_le.trans b.flushed_le
  unfold readerSize
  rw [h.seenFlushed, h.read, toInt_sub b.read_le (by omega)]

theorem Rep.empty : Rep ({} : SpscBlockQueue p α) Block.empty where
  flushed := rfl
  written := rfl
  seenRead := rfl
  returned := rfl
  seenFlushed := rfl
  read := rfl
  stored := fun _ _ hi => absurd hi (Nat.not_lt_zero _)
  vacant := fun _ _ => rfl

/-- The slot that `writer_put_unsafe` writes holds no value. -/
theorem Rep.put_vacant (h : Rep q b) (hp : p ≤ 20) (hroom : b.items.length < b.seenRead + 2 ^ p) :
    q.data (fixI p q.writer.localWriterI) = none := by
  rw [h.written, fixI_ofNat hp]
  refine h.vacant _ fun i hread hlt => slot_ne hlt ?_
  have hseen := b.seenRead_le.trans b.returned_le
  omega

theorem Rep.put (h : Rep q b) (hp : p ≤ 20) (value : α) (hroom : b.items.length < b.seenRead + 2 ^ p) :
    Rep (q.writerPutUnsafe value) (b.put value hroom) where
  flushed := h.flushed
  written := by
    show q.writer.localWriterI + 1 = UInt32.ofNat (b.items ++ [value]).length
    rw [h.written, List.length_append, UInt32.ofNat_add]
    rfl
  seenRead := h.seenRead
  returned := h.returned
  seenFlushed := h.seenFlushed
  read := h.read
  stored := by
    intro i hread hlt
    show Function.update q.data (fixI p q.writer.localWriterI) (some value) (i % 2 ^ p) = (b.items ++ [value])[i]?
    have hseen := b.seenRead_le.trans b.returned_le
    have hread' : b.read ≤ i := hread
    have hlt' : i < b.items.length + 1 := by
      have hlength : (b.put value hroom).items.length = b.items.length + 1 := List.length_append
      omega
    rw [h.written, fixI_ofNat hp]
    by_cases hi : i = b.items.length
    · rw [hi, Function.update_self, List.getElem?_append_right le_rfl, Nat.sub_self]
      rfl
    · rw [Function.update_of_ne (slot_ne (by omega) (by omega)), List.getElem?_append_left (by omega)]
      exact h.stored i hread' (by omega)
  vacant := by
    intro j hj
    show Function.update q.data (fixI p q.writer.localWriterI) (some value) j = none
    have hlength : (b.put value hroom).items.length = b.items.length + 1 := List.length_append
    have hread : (b.put value hroom).read ≤ b.items.length := Block.read_le_length (b := b)
    have hne : b.items.length % 2 ^ p ≠ j := hj _ hread (by omega)
    rw [h.written, fixI_ofNat hp, Function.update_of_ne hne.symm]
    exact h.vacant j fun i hread hlt => hj i hread (by omega)

theorem Rep.writerUpdate (h : Rep q b) : Rep q.writerUpdate b.writerUpdate where
  flushed := h.flushed
  written := h.written
  seenRead := h.returned
  returned := h.returned
  seenFlushed := h.seenFlushed
  read := h.read
  stored := h.stored
  vacant := h.vacant

theorem Rep.writerFlush (h : Rep q b) : Rep q.writerFlush b.writerFlush where
  flushed := h.written
  written := h.written
  seenRead := h.seenRead
  returned := h.returned
  seenFlushed := h.seenFlushed
  read := h.read
  stored := h.stored
  vacant := h.vacant

theorem Rep.readerUpdate (h : Rep q b) : Rep q.readerUpdate b.readerUpdate where
  flushed := h.flushed
  written := h.written
  seenRead := h.seenRead
  returned := h.returned
  seenFlushed := h.flushed
  read := h.read
  stored := h.stored
  vacant := h.vacant

theorem Rep.readerFlush (h : Rep q b) : Rep q.readerFlush b.readerFlush where
  flushed := h.flushed
  written := h.written
  seenRead := h.seenRead
  returned := h.read
  seenFlushed := h.seenFlushed
  read := h.read
  stored := h.stored
  vacant := h.vacant

/-- The slot that `reader_get_unsafe` reads holds the next item. -/
theorem Rep.get_value (h : Rep q b) (hp : p ≤ 20) (hmore : b.read < b.seenFlushed) :
    q.data (fixI p q.reader.localReaderI) = b.items[b.read]? := by
  rw [h.read, fixI_ofNat hp]
  exact h.stored _ le_rfl (lt_of_lt_of_le hmore (b.seenFlushed_le.trans b.flushed_le))

theorem Rep.get (h : Rep q b) (hp : p ≤ 20) (hmore : b.read < b.seenFlushed) :
    Rep q.readerGetUnsafe (b.get hmore) where
  flushed := h.flushed
  written := h.written
  seenRead := h.seenRead
  returned := h.returned
  seenFlushed := h.seenFlushed
  read := by
    show q.reader.localReaderI + 1 = UInt32.ofNat (b.read + 1)
    rw [h.read, UInt32.ofNat_add]
    rfl
  stored := by
    intro i hread hlt
    show Function.update q.data (fixI p q.reader.localReaderI) none (i % 2 ^ p) = b.items[i]?
    have hread' : b.read + 1 ≤ i := hread
    have hlength : i < b.items.length := hlt
    have hwindow := b.length_le_read
    rw [h.read, fixI_ofNat hp, Function.update_of_ne (slot_ne (by omega) (by omega)).symm]
    exact h.stored i (by omega) hlength
  vacant := by
    intro j hj
    show Function.update q.data (fixI p q.reader.localReaderI) none j = none
    rw [h.read, fixI_ofNat hp]
    by_cases hne : j = b.read % 2 ^ p
    · rw [hne, Function.update_self]
    · rw [Function.update_of_ne hne]
      refine h.vacant j fun i hread hlt => ?_
      by_cases hi : i = b.read
      · rw [hi]
        exact fun heq => hne heq.symm
      · have hlater : b.read + 1 ≤ i := by omega
        exact hj i hlater hlt

end SpscBlockQueue

end TdUtils
