import Mathlib.Data.List.DropRight
import TdUtils.Lib.Bits
import TdUtils.Lib.Bytes
import TdUtils.Lib.Memory
import TdUtils.Lib.RingBuffer
import TdUtils.Lib.Word

/-!
# Log.MemoryLog — the last records of a log in a ring

`append` puts a record behind the one before it: a header of 16 bytes, the text, and spaces up to a multiple of 16.  A
record that does not fit in front of the end of the buffer goes on at its start.  The buffer has `2 ^ k` bytes; a write
outside of it, or a read outside of what is copied, makes the call fail.
-/

namespace TdUtils.Log

open Lib Bytes RingBuffer

inductive Fault
  | check
  | outside
deriving DecidableEq

structure MemoryLog where
  buffer : Memory
  pos : ℕ

namespace MemoryLog

/-! ### `append` -/

/-- `VERBOSITY_NAME(FATAL)`. -/
def fatal : ℤ := 0

def magicSize : ℕ := 16

variable (k : ℕ)

def maxOutputSize : ℕ := if 2 ^ k / 16 < 8 <<< 10 then 2 ^ k / 16 else 8 <<< 10

def new : MemoryLog := ⟨fun _ => ch ' ', 0⟩

/-- `std::memcpy(&buffer_[place], src, count)`. -/
def copy (buffer : Memory) (place : ℕ) (src : List UInt8) (count : ℕ) : Except Fault Memory :=
  if count ≤ src.length ∧ place + count ≤ 2 ^ k then .ok (buffer.store place (src.take count)) else .error .outside

def hexDigit (d : ℕ) : UInt8 := if d < 10 then UInt8.ofNat (48 + d) else UInt8.ofNat (87 + d)

/-- A `uint32` as `%08x` prints it. -/
def hex (x : ℕ) : List UInt8 := (List.range 8).map fun i => hexDigit (x / 16 ^ (7 - i) % 16)

/-- `"LOG:%08x: "`. -/
def label (realPos : ℕ) : List UInt8 := chs ['L', 'O', 'G', ':'] ++ hex realPos ++ chs [':', ' ']

/-- `std::snprintf(&buffer_[place], size, ..)` of the text, and how long the text is. -/
def snprintf (buffer : Memory) (place size : ℕ) (text : List UInt8) : Except Fault (Memory × ℕ) := do
  let buffer ← copy k buffer place (text.take (size - 1) ++ [0]) ((text.take (size - 1)).length + 1)
  return (buffer, text.length)

/-- What is left of the text of a record. -/
def shortened (newSlice : List UInt8) : List UInt8 :=
  (newSlice.take (maxOutputSize k)).rdropWhile fun c => c = ch '\n'

/-- The text and the padding. -/
def writeText (buffer : Memory) (slice : List UInt8) (padSize startPos endPos : ℕ) : Except Fault Memory :=
  let spaces := List.replicate 15 (ch ' ') ++ [0]
  if endPos ≤ 2 ^ k then do
    let buffer ← copy k buffer (startPos + magicSize) slice slice.length
    copy k buffer (startPos + magicSize + slice.length) spaces padSize
  else do
    let first := Word.sub 64 (Word.sub 32 (2 ^ k) startPos) magicSize
    let second := Word.sub 64 slice.length first
    let buffer ← copy k buffer (startPos + magicSize) slice first
    let buffer ← copy k buffer 0 (slice.drop first) second
    copy k buffer second spaces padSize

def writeHeader (buffer : Memory) (startPos realPos : ℕ) : Except Fault Memory := do
  if startPos &&& 15 ≠ 0 then throw .check
  if ¬startPos ≤ 2 ^ k - magicSize then throw .check
  let buffer ← copy k buffer startPos [ch '\n'] 1
  let (buffer, printed) ← snprintf k buffer (startPos + 1) (magicSize - 1) (label realPos)
  if printed ≠ magicSize - 2 then throw .check
  copy k buffer (startPos + magicSize - 1) [ch ' '] 1

/-- `append`; the flag is a call of `process_fatal_error`, which does not return. -/
def append (log : MemoryLog) (newSlice : List UInt8) (logLevel : ℤ) : Except Fault (MemoryLog × Bool) := do
  let slice := shortened k newSlice
  if ¬slice.length * 3 < 2 ^ k then throw .check
  let padSize := Word.sub 64 ((slice.length + 15) &&& (2 ^ 64 - 16)) slice.length
  let totalSize := (slice.length + padSize + magicSize) % 2 ^ 32
  let realPos := log.pos
  if totalSize &&& 15 ≠ 0 then throw .check
  let startPos := realPos &&& (2 ^ k - 1)
  let buffer ← writeText k log.buffer slice padSize startPos (Word.add 32 startPos totalSize)
  let buffer ← writeHeader k buffer startPos realPos
  return (⟨buffer, Word.add 32 realPos totalSize⟩, decide (logLevel = fatal))

/-- The calls for some records, up to the first one that is fatal. -/
def run (log : MemoryLog) : List (List UInt8 × ℤ) → Except Fault MemoryLog
  | [] => .ok log
  | (newSlice, logLevel) :: records =>
    match append k log newSlice logLevel with
    | .error fault => .error fault
    | .ok (log, true) => .ok log
    | .ok (log, false) => run log records

/-! ### The record of a text -/

variable {k}

/-- The size of the padding. -/
def padding (n : ℕ) : ℕ := (n + 15) / 16 * 16 - n

/-- A new line, the position and a separator. -/
def header (realPos : ℕ) : List UInt8 := [ch '\n'] ++ label realPos ++ [ch ' ']

def padded (text : List UInt8) : List UInt8 := text ++ List.replicate (padding text.length) (ch ' ')

/-- The bytes of a record. -/
def image (realPos : ℕ) (text : List UInt8) : List UInt8 := header realPos ++ padded text

theorem length_label (realPos : ℕ) : (label realPos).length = 14 := by simp [label, hex, chs]

theorem length_header (realPos : ℕ) : (header realPos).length = 16 := by simp [header, length_label]

theorem length_padded (text : List UInt8) : (padded text).length = text.length + padding text.length := by
  simp [padded]

theorem length_image (realPos : ℕ) (text : List UInt8) :
    (image realPos text).length = text.length + padding text.length + 16 := by
  rw [image, List.length_append, length_header, length_padded, Nat.add_comm]

theorem length_image_mod (realPos : ℕ) (text : List UInt8) : (image realPos text).length % 16 = 0 := by
  rw [length_image]
  unfold padding
  omega

theorem length_shortened (newSlice : List UInt8) : (shortened k newSlice).length ≤ 2 ^ k / 16 := by
  have hmax : maxOutputSize k ≤ 2 ^ k / 16 := by
    unfold maxOutputSize
    split_ifs with h
    · exact Nat.le_refl _
    · omega
  have hdrop := (List.rdropWhile_prefix (fun c => decide (c = ch '\n')) (newSlice.take (maxOutputSize k))).length_le
  have htake := List.length_take_le (maxOutputSize k) newSlice
  exact (hdrop.trans htake).trans hmax

/-! ### One call -/

section Writes

variable {buffer : Memory} {start pos realPos : ℕ} {slice tail : List UInt8}

theorem copy_eq {place count : ℕ} {src : List UInt8} (hsrc : count ≤ src.length) (hroom : place + count ≤ 2 ^ k) :
    copy k buffer place src count = .ok (buffer.store place (src.take count)) := if_pos ⟨hsrc, hroom⟩

theorem take_spaces {n : ℕ} (h : n ≤ 15) :
    (List.replicate 15 (ch ' ') ++ [0]).take n = List.replicate n (ch ' ') := by
  rw [List.take_append_of_le_length (by simpa using h), List.take_replicate, Nat.min_eq_left h]

theorem padding_le (n : ℕ) : padding n ≤ 15 := by
  unfold padding
  omega

/-- The padded text, cut where the buffer ends. -/
theorem writeText_eq (hk : 4 ≤ k) (hk' : k ≤ 30) (hstart : start % 16 = 0) (hroom : start + 16 ≤ 2 ^ k)
    (hfits : (padded slice).length + 16 ≤ 2 ^ k) :
    writeText k buffer slice (padding slice.length) start (start + (padded slice).length + 16) =
      .ok ((buffer.store (start + 16) ((padded slice).take (2 ^ k - start - 16))).store 0
        ((padded slice).drop (2 ^ k - start - 16))) := by
  have hpad := padding_le slice.length
  have hlen := length_padded slice
  have hsize : (2 : ℕ) ^ k = 16 * 2 ^ (k - 4) := by
    rw [show (16 : ℕ) = 2 ^ 4 from rfl, ← Nat.pow_add, show 4 + (k - 4) = k by omega]
  have hbound : (2 : ℕ) ^ k ≤ 2 ^ 30 := Nat.pow_le_pow_right (by omega) hk'
  have hspaces : padding slice.length ≤ (List.replicate 15 (ch ' ') ++ [0]).length := by
    rw [List.length_append, List.length_replicate]
    omega
  unfold writeText magicSize
  dsimp only
  split_ifs with hend
  · rw [copy_eq (Nat.le_refl _) (by omega)]
    change copy k _ _ _ _ = _
    rw [copy_eq hspaces (by omega), take_spaces hpad, List.take_length, ← Memory.store_append,
      List.take_of_length_le (by omega), List.drop_of_length_le (by omega), Memory.store_nil]
    rfl
  · -- the text does not end in front of the end of the buffer, since everything is a multiple of 16
    have hmultiple : (padded slice).length % 16 = 0 := by
      rw [hlen]
      unfold padding
      omega
    have hfirst : Word.sub 64 (Word.sub 32 (2 ^ k) start) 16 = 2 ^ k - start - 16 := by
      rw [Word.sub_of_le (w := 32) (by omega) (by omega), Word.sub_of_le (by omega) (by omega)]
    have hsecond : Word.sub 64 slice.length (2 ^ k - start - 16) = slice.length - (2 ^ k - start - 16) :=
      Word.sub_of_le (by omega) (by omega)
    rw [hfirst, hsecond, copy_eq (by omega) (by omega)]
    change (copy k _ _ _ _ >>= _) = _
    rw [copy_eq (by rw [List.length_drop]) (by omega)]
    change copy k _ _ _ _ = _
    have hdrop : (slice.drop (2 ^ k - start - 16)).length = slice.length - (2 ^ k - start - 16) := List.length_drop
    have htail : (padded slice).drop (2 ^ k - start - 16) =
        slice.drop (2 ^ k - start - 16) ++ List.replicate (padding slice.length) (ch ' ') :=
      List.drop_append_of_le_length (by omega)
    have hhead : (padded slice).take (2 ^ k - start - 16) = slice.take (2 ^ k - start - 16) :=
      List.take_append_of_le_length (by omega)
    have hwhole : (slice.drop (2 ^ k - start - 16)).take (slice.length - (2 ^ k - start - 16)) =
        slice.drop (2 ^ k - start - 16) := List.take_of_length_le hdrop.le
    rw [copy_eq hspaces (by omega), take_spaces hpad, hwhole, htail, hhead, Memory.store_append, hdrop, Nat.zero_add]

/-- The terminator of what `snprintf` writes is overwritten. -/
theorem writeHeader_eq (hstart : start % 16 = 0) (hroom : start + 16 ≤ 2 ^ k) :
    writeHeader k buffer start realPos = .ok (buffer.store start (header realPos)) := by
  have hand : start &&& 15 = start % 16 := Bits.and_low start 4
  have hlabel := length_label realPos
  have htake : (label realPos).take 14 = label realPos := List.take_of_length_le hlabel.le
  have hlen : ((label realPos ++ [0]).length) = 15 := by rw [List.length_append, hlabel]; rfl
  have hline : copy k buffer start [ch '\n'] 1 = .ok (buffer.store start [ch '\n']) :=
    copy_eq (Nat.le_refl 1) (by omega)
  have hplace : start + ([ch '\n'] ++ label realPos).length = start + 15 := by
    rw [List.length_append, hlabel]
    rfl
  have hprint : snprintf k (buffer.store start [ch '\n']) (start + 1) 15 (label realPos) =
      .ok ((buffer.store start ([ch '\n'] ++ label realPos)).store (start + 15) [0], 14) := by
    have hstore : (buffer.store start [ch '\n']).store (start + 1) (label realPos ++ [0]) =
        (buffer.store start ([ch '\n'] ++ label realPos)).store (start + 15) [0] := by
      have happend := Memory.store_append buffer start [ch '\n'] (label realPos ++ [0])
      rw [← List.append_assoc, Memory.store_append, hplace] at happend
      exact happend.symm
    unfold snprintf
    rw [show 15 - 1 = 14 from rfl, htake, hlabel, copy_eq (by omega) (by omega), List.take_of_length_le (by omega),
      hstore]
    rfl
  have hlast : copy k ((buffer.store start ([ch '\n'] ++ label realPos)).store (start + 15) [0]) (start + 15)
      [ch ' '] 1 = .ok (buffer.store start (header realPos)) := by
    have hheader : header realPos = ([ch '\n'] ++ label realPos) ++ [ch ' '] := rfl
    have htwice := Memory.store_store (buffer.store start ([ch '\n'] ++ label realPos)) (start + 15)
      (show [(0 : UInt8)].length = [ch ' '].length from rfl)
    rw [copy_eq (Nat.le_refl 1) (by omega), hheader, Memory.store_append _ _ (_ ++ _), hplace]
    exact congrArg Except.ok htwice
  unfold writeHeader magicSize
  rw [if_neg (by omega), if_neg (by omega), hline]
  change (snprintf k _ _ 15 _ >>= _) = _
  rw [hprint]
  exact hlast

/-- The stores of a record are one write into the ring. -/
theorem puts_record {head : List UInt8} (hhead : head.length = 16) (hroom : pos % 2 ^ k + 16 ≤ 2 ^ k)
    (hfits : tail.length + 16 ≤ 2 ^ k) :
    Puts (2 ^ k) buffer (((buffer.store (pos % 2 ^ k + 16) (tail.take (2 ^ k - pos % 2 ^ k - 16))).store 0
      (tail.drop (2 ^ k - pos % 2 ^ k - 16))).store (pos % 2 ^ k) head) pos (head ++ tail) := by
  generalize hB : 2 ^ k = B at *
  generalize hstart : pos % B = start at *
  have hBpos : 0 < B := by omega
  -- the two forms of a place of the record
  have hnear : ∀ j, start + j < B → (pos + j) % B = start + j := by
    intro j hj
    rw [Nat.add_mod, hstart, Nat.mod_eq_of_lt (show j < B by omega), Nat.mod_eq_of_lt hj]
  have hfar : ∀ j < B, B ≤ start + j → (pos + j) % B = start + j - B := by
    intro j hj hge
    rw [Nat.add_mod, hstart, Nat.mod_eq_of_lt hj, Nat.mod_eq_sub_mod hge, Nat.mod_eq_of_lt (by omega)]
  have hdrop : (tail.drop (B - start - 16)).length = tail.length - (B - start - 16) := List.length_drop
  have htake : (tail.take (B - start - 16)).length = min (B - start - 16) tail.length := List.length_take
  constructor
  · intro j hj
    rw [List.length_append, hhead] at hj
    by_cases h16 : j < 16
    · rw [hnear j (by omega), Memory.store_of_mem (by omega), List.getElem_append_left (by omega)]
    · obtain ⟨i, rfl⟩ := Nat.exists_eq_add_of_le (Nat.le_of_not_lt h16)
      rw [List.getElem_append_right (by omega)]
      by_cases hi : i < B - start - 16
      · rw [hnear _ (by omega), Memory.store_of_ge (by omega), Memory.store_of_ge (by omega), ← Nat.add_assoc,
          Memory.store_of_mem (by omega), List.getElem_take]
        simp [hhead]
      · have hplace : start + (16 + i) - B = 0 + (i - (B - start - 16)) := by omega
        rw [hfar _ (by omega) (by omega), Memory.store_of_lt (by omega), hplace, Memory.store_of_mem (by omega),
          List.getElem_drop]
        congr 1
        omega
  · intro q hq hnone
    have hlen : (head ++ tail).length = 16 + tail.length := by rw [List.length_append, hhead]
    have hheader : ¬(start ≤ q ∧ q < start + 16) := by
      rintro ⟨hge, hlt⟩
      exact hnone (q - start) (by omega) (by rw [hnear _ (by omega)]; omega)
    have htext : ¬(start + 16 ≤ q ∧ q < start + 16 + tail.length) := by
      rintro ⟨hge, hlt⟩
      exact hnone (q - start) (by omega) (by rw [hnear _ (by omega)]; omega)
    have hrest : ¬q + (B - start - 16) < tail.length := by
      intro hlt
      exact hnone (q + (B - start)) (by omega) (by rw [hfar _ (by omega) (by omega)]; omega)
    have hstay : ∀ {mem : Memory} {p : ℕ} {bytes : List UInt8}, ¬(p ≤ q ∧ q < p + bytes.length) →
        mem.store p bytes q = mem q := by
      intro mem p bytes hout
      rcases Nat.lt_or_ge q p with h | h
      · exact Memory.store_of_lt h
      · exact Memory.store_of_ge (by omega)
    rw [hstay (by omega), hstay (by omega), hstay (by omega)]

end Writes

section Append

variable {log : MemoryLog}

/-- The buffer has at least 8 KiB, and its size is an `int`. -/
theorem size_bounds (hk : 13 ≤ k) (hk' : k ≤ 30) : 2 ^ 13 ≤ 2 ^ k ∧ 2 ^ k ≤ 2 ^ 30 :=
  ⟨Nat.pow_le_pow_right (by omega) hk, Nat.pow_le_pow_right (by omega) hk'⟩

/-- Each call goes through, and writes the record of its text at the position. -/
theorem append_spec (hk : 13 ≤ k) (hk' : k ≤ 30) (hpos : log.pos % 16 = 0)
    (newSlice : List UInt8) (logLevel : ℤ) :
    ∃ buffer, append k log newSlice logLevel = .ok (⟨buffer, (log.pos + (image log.pos (shortened k newSlice)).length) %
        2 ^ 32⟩, decide (logLevel = fatal)) ∧
      Puts (2 ^ k) log.buffer buffer log.pos (image log.pos (shortened k newSlice)) := by
  obtain ⟨hmin, hmax⟩ := size_bounds hk hk'
  have hslice := length_shortened (k := k) newSlice
  have himage := length_image log.pos (shortened k newSlice)
  have hmultiple := length_image_mod log.pos (shortened k newSlice)
  have hpadded := length_padded (shortened k newSlice)
  have hpadding := padding_le (shortened k newSlice).length
  have hsize : (2 : ℕ) ^ k = 16 * 2 ^ (k - 4) := by
    rw [show (16 : ℕ) = 2 ^ 4 from rfl, ← Nat.pow_add, show 4 + (k - 4) = k by omega]
  have hstart : log.pos % 2 ^ k % 16 = 0 := by rw [Nat.mod_mod_of_dvd _ ⟨_, hsize⟩, hpos]
  have hlt : log.pos % 2 ^ k < 2 ^ k := Nat.mod_lt _ (by omega)
  have hroom : log.pos % 2 ^ k + 16 ≤ 2 ^ k := by omega
  have hpad : Word.sub 64 (((shortened k newSlice).length + 15) &&& (2 ^ 64 - 16)) (shortened k newSlice).length =
      padding (shortened k newSlice).length := by
    have hmask : ((shortened k newSlice).length + 15) &&& (2 ^ 64 - 16) =
        ((shortened k newSlice).length + 15) / 16 % 2 ^ 60 * 16 := Bits.and_mask _ 4 60
    rw [hmask, Nat.mod_eq_of_lt (by omega), Word.sub_of_le (by omega) (by omega)]
    rfl
  have htotal : ((shortened k newSlice).length + padding (shortened k newSlice).length + 16) % 2 ^ 32 =
      (image log.pos (shortened k newSlice)).length := by
    rw [himage, Nat.mod_eq_of_lt (by omega)]
  have hand15 : (image log.pos (shortened k newSlice)).length &&& 15 =
      (image log.pos (shortened k newSlice)).length % 16 := Bits.and_low _ 4
  have hplace : log.pos &&& (2 ^ k - 1) = log.pos % 2 ^ k := Bits.and_low _ k
  have hend : Word.add 32 (log.pos % 2 ^ k) (image log.pos (shortened k newSlice)).length =
      log.pos % 2 ^ k + (padded (shortened k newSlice)).length + 16 := by
    rw [Word.add_of_lt (by omega)]
    omega
  have htext : writeText k log.buffer (shortened k newSlice) _ (log.pos % 2 ^ k) _ = _ :=
    writeText_eq (by omega) hk' hstart hroom (by omega)
  refine ⟨_, ?_, puts_record (length_header log.pos) hroom (by omega)⟩
  unfold append magicSize
  dsimp only
  rw [if_neg (by omega), hpad, htotal, hand15, if_neg (by omega), hplace, hend, htext]
  change (writeHeader k _ _ _ >>= _) = _
  rw [writeHeader_eq hstart hroom]
  rfl

end Append

/-! ### Runs -/

section Runs

variable {log : MemoryLog}

/-- The records that are appended: nothing follows a fatal one. -/
def appended : List (List UInt8 × ℤ) → List (List UInt8 × ℤ)
  | [] => []
  | record :: records => if record.2 = fatal then [record] else record :: appended records

/-- The padded size of a record, with its header. -/
def recordSize (k : ℕ) (record : List UInt8 × ℤ) : ℕ :=
  (shortened k record.1).length + padding (shortened k record.1).length + magicSize

def totalSize (k : ℕ) (records : List (List UInt8 × ℤ)) : ℕ := (records.map (recordSize k)).sum

/-- Everything that is written for the records, when so much was written before. -/
def stream (k : ℕ) : ℕ → List (List UInt8 × ℤ) → List UInt8
  | _, [] => []
  | size, record :: records =>
    image (size % 2 ^ 32) (shortened k record.1) ++ stream k (size + recordSize k record) records

theorem stream_append (size : ℕ) (a b : List (List UInt8 × ℤ)) :
    stream k size (a ++ b) = stream k size a ++ stream k (size + totalSize k a) b := by
  induction a generalizing size with
  | nil => rfl
  | cons record a ih =>
    have htotal : totalSize k (record :: a) = recordSize k record + totalSize k a := rfl
    rw [List.cons_append, stream, ih, stream, List.append_assoc, htotal, Nat.add_assoc]

theorem length_stream (size : ℕ) (records : List (List UInt8 × ℤ)) :
    (stream k size records).length = totalSize k records := by
  induction records generalizing size with
  | nil => rfl
  | cons record records ih =>
    rw [stream, List.length_append, ih, length_image]
    rfl

/-- The log after so much was written: the position counts it, and the ring has the end of it. -/
structure Wrote (k : ℕ) (log : MemoryLog) (written : List UInt8) : Prop where
  pos : log.pos = written.length % 2 ^ 32
  multiple : written.length % 16 = 0
  holds : Holds (2 ^ k) log.buffer written

theorem new_wrote (k : ℕ) : Wrote k new [] := ⟨rfl, rfl, holds_nil _ _⟩

/-- A call appends its record to what was written. -/
theorem Wrote.append {written : List UInt8} (hk : 13 ≤ k) (hk' : k ≤ 30) (h : Wrote k log written)
    (record : List UInt8 × ℤ) :
    ∃ log', append k log record.1 record.2 = .ok (log', decide (record.2 = fatal)) ∧
      Wrote k log' (written ++ image (written.length % 2 ^ 32) (shortened k record.1)) := by
  have hmultiple := h.multiple
  have hpos16 : log.pos % 16 = 0 := by
    rw [h.pos]
    omega
  obtain ⟨buffer, hcall, hputs⟩ := append_spec hk hk' hpos16 record.1 record.2
  rw [h.pos] at hcall hputs
  refine ⟨_, hcall, ?_, ?_, ?_⟩
  · rw [List.length_append, Nat.mod_add_mod]
  · have himage := length_image_mod (written.length % 2 ^ 32) (shortened k record.1)
    rw [List.length_append]
    omega
  · have hdvd : 2 ^ k ∣ 2 ^ 32 := Nat.pow_dvd_pow 2 (by omega)
    exact h.holds.append (hputs.congr (Nat.mod_mod_of_dvd _ hdvd))

theorem Wrote.run (hk : 13 ≤ k) (hk' : k ≤ 30) : ∀ (records : List (List UInt8 × ℤ)) {log : MemoryLog}
    {written : List UInt8}, Wrote k log written →
      ∃ log', run k log records = .ok log' ∧
        Wrote k log' (written ++ stream k written.length (appended records))
  | [], log, written, h => ⟨log, rfl, by rwa [appended, stream, List.append_nil]⟩
  | record :: records, log, written, h => by
    obtain ⟨log', hcall, hwrote⟩ := h.append hk hk' record
    have himage := length_image (written.length % 2 ^ 32) (shortened k record.1)
    by_cases hfatal : record.2 = fatal
    · rw [decide_eq_true hfatal] at hcall
      refine ⟨log', by rw [MemoryLog.run, hcall], ?_⟩
      rwa [appended, if_pos hfatal, stream, stream, List.append_nil]
    · rw [decide_eq_false hfatal] at hcall
      obtain ⟨last, hrun, hlast⟩ := Wrote.run hk hk' records hwrote
      refine ⟨last, by rw [MemoryLog.run, hcall]; exact hrun, ?_⟩
      rw [List.length_append, himage, List.append_assoc] at hlast
      rwa [appended, if_neg hfatal, stream]

end Runs

/-- **Records in the ring.**  For every size of the buffer that the assertions allow and all records no call fails; and
of the records at the end that fit into the buffer together each one is there, from its position modulo the size on. -/
theorem records_intact (k : ℕ) (hk : 13 ≤ k) (hk' : k ≤ 30) (records : List (List UInt8 × ℤ)) :
    ∃ log, run k new records = .ok log ∧ log.pos = totalSize k (appended records) % 2 ^ 32 ∧
      ∀ before record after, appended records = before ++ record :: after →
        totalSize k (record :: after) ≤ 2 ^ k →
          cells (2 ^ k) log.buffer (totalSize k before % 2 ^ 32) (recordSize k record) =
            image (totalSize k before % 2 ^ 32) (shortened k record.1) := by
  obtain ⟨log, hrun, hwrote⟩ := Wrote.run hk hk' records (new_wrote k)
  rw [List.nil_append, List.length_nil] at hwrote
  refine ⟨log, hrun, by rw [hwrote.pos, length_stream], fun before record after hrecords hfits => ?_⟩
  have hholds := hwrote.holds
  rw [hrecords, stream_append, stream, Nat.zero_add] at hholds
  have hcells := hholds.cells_eq (by
    rw [List.length_append, length_stream, length_image]
    exact hfits)
  rw [length_stream, length_image] at hcells
  rw [cells_mod (Nat.pow_dvd_pow 2 (by omega))]
  exact hcells

/-- Sixteen long records, which are cut to 512 bytes, and a short one in the smallest buffer.  The last long one goes on at
the start of the buffer, over the first one. -/
def seventeen : List (List UInt8 × ℤ) :=
  List.replicate 16 (List.replicate 600 0x61, 3) ++ [([0x68, 0x69, 0x0a], 3)]

theorem records_intact_round : ∃ log, run 13 new seventeen = .ok log ∧ log.pos = 8480 ∧
    cells (2 ^ 13) log.buffer 7920 528 = image 7920 (List.replicate 512 0x61) ∧
    cells (2 ^ 13) log.buffer 8448 32 = image 8448 [0x68, 0x69] := by
  have hshort : shortened 13 (List.replicate 600 0x61) = List.replicate 512 0x61 := by decide +kernel
  have hsize : recordSize 13 (List.replicate 600 0x61, 3) = 528 := by
    unfold recordSize
    rw [hshort, List.length_replicate]
    rfl
  have htotal : ∀ n, totalSize 13 (List.replicate n (List.replicate 600 0x61, 3)) = n * 528 := fun n => by
    rw [totalSize, List.map_replicate, List.sum_replicate_nat, hsize]
  obtain ⟨log, hrun, hpos, hintact⟩ := records_intact 13 (by decide) (by decide) seventeen
  have hlong := hintact (List.replicate 15 (List.replicate 600 0x61, 3)) (List.replicate 600 0x61, 3)
    [([0x68, 0x69, 0x0a], 3)] rfl
  have hlast := hintact (List.replicate 16 (List.replicate 600 0x61, 3)) ([0x68, 0x69, 0x0a], 3) [] rfl
  have htwo : totalSize 13 [(List.replicate 600 0x61, 3), ([0x68, 0x69, 0x0a], 3)] = 528 + 32 := by
    rw [totalSize, List.map_cons, List.sum_cons, hsize]
    rfl
  have hall : totalSize 13 (appended seventeen) = 16 * 528 + 32 := by
    have hnone : appended seventeen = seventeen := rfl
    rw [hnone, totalSize, seventeen, List.map_append, List.sum_append_nat, ← totalSize, htotal]
    rfl
  rw [htotal, hsize, hshort, htwo] at hlong
  rw [htotal] at hlast
  rw [hall] at hpos
  exact ⟨log, hrun, hpos, hlong (by decide), hlast (by decide)⟩

end MemoryLog

end TdUtils.Log
