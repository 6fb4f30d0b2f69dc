import TdUtils.Lib.LittleEndian
import TdUtils.Lib.Machine
import TdUtils.Lib.Word

/-!
# Tl.TlParser — the TL parser over one block of input

`check_len` only adjusts a counter; the read that follows relies on the pointer: it is as far from
the end of the input as the counter says, or it was redirected to the zero block `empty_data`.
`good` and `bad` are the two shapes of state this leaves, and every operation is described on both.
A read outside its block, a failed `CHECK` and a failed `LOG_CHECK` are `none`.
-/

namespace TdUtils.Tl

open Lib LittleEndian

/-- `std::numeric_limits<size_t>::max()`. -/
def sizeMax : ℕ := 2 ^ 64 - 1

/-- What the pointer `data` points into. -/
inductive Block where
  | input
  | emptyData
  deriving DecidableEq, Repr

/-- The parser: the bytes it was created for, the pointer `data` as a block and an offset into it,
and the other fields of the source. -/
structure TlParser where
  input : List UInt8
  block : Block
  data : ℕ
  dataLen : ℕ
  leftLen : ℕ
  errorPos : ℕ
  error : String
  deriving DecidableEq, Repr

namespace TlParser

/-- `empty_data`: as many zeros as a `UInt256` has bytes. -/
def emptyData : List UInt8 := List.replicate 32 0

/-- The bytes of a block. -/
def blockBytes (p : TlParser) : Block → List UInt8
  | .input => p.input
  | .emptyData => emptyData

/-- Read `n` bytes at an offset of a block; the whole range has to lie inside the block. -/
def readAt (p : TlParser) (b : Block) (off n : ℕ) : Option (List UInt8) :=
  if off + n ≤ (p.blockBytes b).length then some (((p.blockBytes b).drop off).take n) else none

/-- `memcpy` of `n` bytes from `data`. -/
def read (p : TlParser) (n : ℕ) : Option (List UInt8) := p.readAt p.block p.data n

/-- `data += n`. -/
def advance (p : TlParser) (n : ℕ) : TlParser := { p with data := p.data + n }

/-- The number of bytes of the aligned copy that the constructor makes: the small array, or an
allocated array of `int32`. -/
def copyCapacity (size : ℕ) : ℕ := if size ≤ 6 * 4 then 6 * 4 else (1 + size / 4) * 4

/-- `TlParser(Slice slice)`: the bytes are used in place when their pointer is aligned and copied
otherwise; a copy that does not fit its buffer is `none`. -/
def ofSlice (isAligned : Bool) (slice : List UInt8) : Option TlParser :=
  if isAligned ∨ slice.length ≤ copyCapacity slice.length then
    some ⟨slice, .input, 0, slice.length, slice.length, sizeMax, ""⟩
  else none

def setError (p : TlParser) (errorMessage : String) : Option TlParser :=
  if p.error = "" then
    if errorMessage = "" then none  -- CHECK(!error_message.empty())
    else some { p with
      error := errorMessage
      errorPos := Word.sub 64 p.dataLen p.leftLen
      block := .emptyData
      data := 0
      leftLen := 0
      dataLen := 0 }
  else if p.errorPos ≠ sizeMax ∧ p.dataLen = 0 ∧ p.leftLen = 0 then
    some { p with block := .emptyData, data := 0 }
  else none  -- LOG_CHECK

/-- `get_status`: the text of the error, or none. -/
def getStatus (p : TlParser) : Except String Unit :=
  if p.error = "" then .ok () else .error (p.error ++ " at " ++ toString p.errorPos)

def checkLen (p : TlParser) (len : ℕ) : Option TlParser :=
  if p.leftLen < len then p.setError "Not enough data to read"
  else some { p with leftLen := p.leftLen - len }

/-- `check_len(size)`, a copy of `size` bytes and `data += size`: the shape of all fetches of a
fixed size. -/
def fetchSized (p : TlParser) (size : ℕ) : Option (TlParser × List UInt8) := do
  let p ← p.checkLen size
  let bytes ← p.read size
  return (p.advance size, bytes)

def fetchInt (p : TlParser) : Option (TlParser × BitVec 32) :=
  (p.fetchSized 4).map fun r => (r.1, BitVec.ofNat 32 (ofLE r.2))

def fetchLong (p : TlParser) : Option (TlParser × BitVec 64) :=
  (p.fetchSized 8).map fun r => (r.1, BitVec.ofNat 64 (ofLE r.2))

/-- `fetch_binary<T>` with `sizeof(T) = size`. -/
def fetchBinary (p : TlParser) (size : ℕ) : Option (TlParser × List UInt8) := p.fetchSized size

/-- The header of a string: its length, where its bytes begin, and how many bytes follow the first
four or eight; `none` in the last component stands for the early return. -/
def fetchStringHeader (p : TlParser) :
    Option (TlParser × Option (ℕ × (Block × ℕ) × ℕ)) := do
  let first ← p.read 1
  let resultLen := ofLE first
  if resultLen < 254 then
    return (p.advance 4, some (resultLen, (p.block, p.data + 1), (resultLen >>> 2) <<< 2))
  else if resultLen = 254 then
    let bytes ← (p.advance 1).read 3
    let resultLen := ofLE bytes
    return (p.advance 4, some (resultLen, (p.block, p.data + 4), ((resultLen + 3) >>> 2) <<< 2))
  else
    let p ← p.checkLen 4
    let bytes ← (p.advance 1).read 7
    let resultLen := ofLE bytes
    if sizeMax - 3 < resultLen then
      let p ← p.setError "Too big string found"
      return (p, none)
    else
      return (p.advance 8, some (resultLen, (p.block, p.data + 8), ((resultLen + 3) >>> 2) <<< 2))

/-- The part of `fetch_string` behind the header. -/
def fetchStringBody (p : TlParser) (resultLen : ℕ) (begin_ : Block × ℕ) (alignedLen : ℕ) :
    Option (TlParser × List UInt8) := do
  let p ← p.checkLen alignedLen
  if p.error ≠ "" then return (p, [])
  else
    let bytes ← p.readAt begin_.1 begin_.2 resultLen
    return (p.advance alignedLen, bytes)

def fetchString (p : TlParser) : Option (TlParser × List UInt8) := do
  let p ← p.checkLen 4
  match ← p.fetchStringHeader with
  | (p, none) => return (p, [])
  | (p, some (resultLen, begin_, alignedLen)) => p.fetchStringBody resultLen begin_ alignedLen

def fetchStringRaw (p : TlParser) (size : ℕ) : Option (TlParser × List UInt8) := do
  let p ← p.checkLen size
  if p.error ≠ "" then return (p, [])
  else
    let bytes ← p.read size
    return (p.advance size, bytes)

def fetchEnd (p : TlParser) : Option TlParser :=
  if p.leftLen ≠ 0 then p.setError "Too much data to fetch" else some p

/-- The operations, with the static bound of `fetch_binary` and the precondition of `set_error`. -/
inductive Op where
  | fetchInt
  | fetchLong
  | fetchBinary (size : ℕ) (h : size ≤ 32)
  | fetchString
  | fetchStringRaw (size : ℕ)
  | fetchEnd
  | setError (message : String) (h : message ≠ "")

/-- The answers to operations. -/
inductive Answer where
  | int (x : BitVec 32)
  | long (x : BitVec 64)
  | binary (bytes : List UInt8)
  | string (bytes : List UInt8)
  | unit
  deriving DecidableEq

/-- Zero or the empty value. -/
def Answer.IsZero : Answer → Prop
  | .int x => x = 0
  | .long x => x = 0
  | .binary bytes => ∀ b ∈ bytes, b = 0
  | .string bytes => bytes = []
  | .unit => True

def step (p : TlParser) : Op → Option (TlParser × Answer)
  | .fetchInt => p.fetchInt.map fun r => (r.1, .int r.2)
  | .fetchLong => p.fetchLong.map fun r => (r.1, .long r.2)
  | .fetchBinary size _ => (p.fetchBinary size).map fun r => (r.1, .binary r.2)
  | .fetchString => p.fetchString.map fun r => (r.1, .string r.2)
  | .fetchStringRaw size => (p.fetchStringRaw size).map fun r => (r.1, .string r.2)
  | .fetchEnd => p.fetchEnd.map fun p => (p, .unit)
  | .setError message _ => (p.setError message).map fun p => (p, .unit)

def machine : Machine TlParser Op Answer := ⟨step⟩

/-! ### The two shapes of state -/

/-- No error so far: `data` stands at offset `pos` of the input and `left` bytes are left. -/
def good (input : List UInt8) (pos left : ℕ) : TlParser :=
  ⟨input, .input, pos, input.length, left, sizeMax, ""⟩

/-- After the error `error` at `errorPos`: `data` stands at offset `pos` of the zero block. -/
def bad (input : List UInt8) (pos : ℕ) (error : String) (errorPos : ℕ) : TlParser :=
  ⟨input, .emptyData, pos, 0, 0, errorPos, error⟩

variable {input : List UInt8} {pos left errorPos : ℕ} {error : String}

@[simp] theorem error_good : (good input pos left).error = "" := rfl
@[simp] theorem block_good : (good input pos left).block = .input := rfl
@[simp] theorem data_good : (good input pos left).data = pos := rfl
@[simp] theorem input_good : (good input pos left).input = input := rfl
@[simp] theorem leftLen_good : (good input pos left).leftLen = left := rfl
@[simp] theorem error_bad : (bad input pos error errorPos).error = error := rfl
@[simp] theorem block_bad : (bad input pos error errorPos).block = .emptyData := rfl
@[simp] theorem data_bad : (bad input pos error errorPos).data = pos := rfl
@[simp] theorem leftLen_bad : (bad input pos error errorPos).leftLen = 0 := rfl

/-! ### After an error -/

section Bad

theorem checkLen_bad {len : ℕ} (hlen : 0 < len) (he : error ≠ "") (hep : errorPos ≠ sizeMax) :
    (bad input pos error errorPos).checkLen len = some (bad input 0 error errorPos) := by
  simp [checkLen, setError, bad, hlen, he, hep]

theorem checkLen_bad_zero :
    (bad input pos error errorPos).checkLen 0 = some (bad input pos error errorPos) := by
  simp [checkLen, bad]

theorem readAt_bad {p : TlParser} {off n : ℕ} (h : off + n ≤ 32) :
    p.readAt .emptyData off n = some (List.replicate n 0) := by
  simp only [readAt, blockBytes, emptyData, List.length_replicate, h, if_true,
    List.drop_replicate, List.take_replicate]
  rw [min_eq_left (by omega)]

theorem read_bad {n : ℕ} (h : pos + n ≤ 32) :
    (bad input pos error errorPos).read n = some (List.replicate n 0) := readAt_bad h

@[simp] theorem advance_bad {n : ℕ} :
    (bad input pos error errorPos).advance n = bad input (pos + n) error errorPos := rfl

variable (input) in
theorem fetchSized_bad {size : ℕ} (hsize : size ≤ 32) (hpos : pos ≤ 32) (he : error ≠ "")
    (hep : errorPos ≠ sizeMax) :
    ∃ pos' ≤ 32, (bad input pos error errorPos).fetchSized size =
      some (bad input pos' error errorPos, List.replicate size 0) := by
  unfold fetchSized
  rcases Nat.eq_zero_or_pos size with rfl | h
  · exact ⟨pos, hpos, by simp [checkLen_bad_zero, read_bad (n := 0) hpos]⟩
  · refine ⟨size, hsize, ?_⟩
    simp [checkLen_bad h he hep, read_bad (show 0 + size ≤ 32 by omega)]

theorem fetchStringHeader_bad :
    (bad input 0 error errorPos).fetchStringHeader =
      some (bad input 4 error errorPos, some (0, (.emptyData, 1), 0)) := by
  unfold fetchStringHeader
  simp [read_bad (show 0 + 1 ≤ 32 by omega), ofLE]

theorem fetchStringBody_bad {begin_ : Block × ℕ} (he : error ≠ "") :
    (bad input pos error errorPos).fetchStringBody 0 begin_ 0 =
      some (bad input pos error errorPos, []) := by
  unfold fetchStringBody
  simp [checkLen_bad_zero, he]

theorem fetchString_bad (he : error ≠ "") (hep : errorPos ≠ sizeMax) :
    (bad input pos error errorPos).fetchString = some (bad input 4 error errorPos, []) := by
  unfold fetchString
  simp [checkLen_bad (show 0 < 4 by omega) he hep, fetchStringHeader_bad, fetchStringBody_bad he]

variable (input pos) in
theorem fetchStringRaw_bad (size : ℕ) (he : error ≠ "") (hep : errorPos ≠ sizeMax) :
    ∃ pos' ≤ pos, (bad input pos error errorPos).fetchStringRaw size =
      some (bad input pos' error errorPos, []) := by
  unfold fetchStringRaw
  rcases Nat.eq_zero_or_pos size with rfl | h
  · exact ⟨pos, le_rfl, by simp [checkLen_bad_zero, he]⟩
  · exact ⟨0, Nat.zero_le _, by simp [checkLen_bad h he hep, he]⟩

variable (input) in
/-- After an error no operation fails, the error stays, and every answer is zero or empty. -/
theorem step_bad (op : Op) (hpos : pos ≤ 32) (he : error ≠ "") (hep : errorPos ≠ sizeMax) :
    ∃ pos' a, step (bad input pos error errorPos) op = some (bad input pos' error errorPos, a) ∧
      pos' ≤ 32 ∧ a.IsZero := by
  cases op with
  | fetchInt =>
    obtain ⟨pos', h, hr⟩ := fetchSized_bad input (show 4 ≤ 32 by omega) hpos he hep
    exact ⟨pos', .int 0, by simp only [step, fetchInt, hr, Option.map_some, ofLE_replicate_zero]; rfl,
      h, rfl⟩
  | fetchLong =>
    obtain ⟨pos', h, hr⟩ := fetchSized_bad input (show 8 ≤ 32 by omega) hpos he hep
    exact ⟨pos', .long 0, by simp only [step, fetchLong, hr, Option.map_some, ofLE_replicate_zero]; rfl,
      h, rfl⟩
  | fetchBinary size hs =>
    obtain ⟨pos', h, hr⟩ := fetchSized_bad input hs hpos he hep
    exact ⟨pos', .binary (List.replicate size 0), by simp only [step, fetchBinary, hr]; rfl, h,
      fun b hb => List.eq_of_mem_replicate hb⟩
  | fetchString =>
    exact ⟨4, .string [], by simp [step, fetchString_bad he hep], by omega, rfl⟩
  | fetchStringRaw size =>
    obtain ⟨pos', h, hr⟩ := fetchStringRaw_bad input pos size he hep
    exact ⟨pos', .string [], by simp [step, hr], by omega, rfl⟩
  | fetchEnd =>
    exact ⟨pos, .unit, by simp [step, fetchEnd, bad], hpos, trivial⟩
  | setError message hm =>
    exact ⟨0, .unit, by simp [step, setError, bad, he, hep], by omega, trivial⟩

end Bad

/-! ### Before an error -/

section Good

theorem checkLen_good {len : ℕ} (h : len ≤ left) :
    (good input pos left).checkLen len = some (good input pos (left - len)) := by
  simp [checkLen, good, Nat.not_lt.mpr h]

variable (pos) in
theorem setError_good {message : String} (hm : message ≠ "") (hleft : left ≤ input.length)
    (hlen : input.length < sizeMax) :
    (good input pos left).setError message =
      some (bad input 0 message (input.length - left)) := by
  have hlen' : input.length < 2 ^ 64 := by unfold sizeMax at hlen; omega
  simp [setError, good, bad, hm, Word.sub_of_le hleft hlen']

theorem checkLen_good_short {len : ℕ} (h : left < len) (hleft : left ≤ input.length)
    (hlen : input.length < sizeMax) :
    (good input pos left).checkLen len =
      some (bad input 0 "Not enough data to read" (input.length - left)) := by
  have hs := setError_good pos (show "Not enough data to read" ≠ "" by decide) hleft hlen
  simpa [checkLen, h, good] using hs

theorem readAt_good {p : TlParser} {off n : ℕ} (h : off + n ≤ p.input.length) :
    p.readAt .input off n = some ((p.input.drop off).take n) := by
  simp [readAt, blockBytes, h]

theorem read_good {n : ℕ} (h : pos + n ≤ input.length) :
    (good input pos left).read n = some ((input.drop pos).take n) := readAt_good h

@[simp] theorem advance_good {n : ℕ} :
    (good input pos left).advance n = good input (pos + n) left := rfl

theorem fetchSized_good {size : ℕ} (h : size ≤ left) (hpos : pos + left = input.length) :
    (good input pos left).fetchSized size =
      some (good input (pos + size) (left - size), (input.drop pos).take size) := by
  unfold fetchSized
  simp [checkLen_good h, read_good (show pos + size ≤ input.length by omega)]

theorem ofLE_lt_of_length {bs : List UInt8} {n : ℕ} (h : bs.length ≤ n) : ofLE bs < 256 ^ n :=
  (ofLE_lt bs).trans_le (Nat.pow_le_pow_right (by omega) h)

theorem align_eq (n : ℕ) : (n >>> 2) <<< 2 = n / 4 * 4 := by
  rw [Nat.shiftLeft_eq, Nat.shiftRight_eq_div_pow]

/-- What the header of a string leaves: its bytes lie before the end of the aligned rest. -/
structure Header (input : List UInt8) (pos left resultLen begin_ alignedLen : ℕ) : Prop where
  pos_add_left : pos + left = input.length
  fits : begin_ + resultLen ≤ pos + alignedLen

theorem fetchStringHeader_good (h4 : 4 ≤ left) (hpos : pos + left = input.length)
    (hlen : input.length < sizeMax) :
    (∃ pos' left' resultLen begin_ alignedLen,
      (good input pos (left - 4)).fetchStringHeader =
        some (good input pos' left', some (resultLen, (.input, begin_), alignedLen)) ∧
      Header input pos' left' resultLen begin_ alignedLen) ∨
    (good input pos (left - 4)).fetchStringHeader =
      some (bad input 8 "Not enough data to read" (input.length - (left - 4)),
        some (0, (.emptyData, 8), 0)) := by
  have hpos1 : pos + 1 ≤ input.length := by omega
  have hpos3 : pos + 1 + 3 ≤ input.length := by omega
  have hfirst : ofLE ((input.drop pos).take 1) < 256 ^ 1 := ofLE_lt_of_length (by simp)
  unfold fetchStringHeader
  simp only [read_good hpos1, Option.bind_eq_bind, Option.bind_some, advance_good, block_good,
    data_good, align_eq]
  generalize ofLE ((input.drop pos).take 1) = n at hfirst ⊢
  split_ifs with h1 h2
  · exact Or.inl ⟨pos + 4, left - 4, n, pos + 1, _, rfl, by omega, by omega⟩
  · simp only [read_good hpos3, Option.bind_some]
    exact Or.inl ⟨pos + 4, left - 4, _, pos + 4, _, rfl, by omega, by omega⟩
  · rcases Nat.lt_or_ge (left - 4) 4 with hs | hs
    · right
      simp only [checkLen_good_short hs (show left - 4 ≤ input.length by omega) hlen,
        Option.bind_some, advance_bad,
        read_bad (show 0 + 1 + 7 ≤ 32 by omega), ofLE_replicate_zero]
      rfl
    · left
      have hpos7 : pos + 1 + 7 ≤ input.length := by omega
      have hseven : ofLE ((input.drop (pos + 1)).take 7) < 256 ^ 7 := ofLE_lt_of_length (by simp)
      simp only [checkLen_good hs, read_good hpos7, Option.bind_some, advance_good, block_good,
        data_good]
      -- seven bytes are below the bound on every 64-bit platform
      rw [if_neg (by unfold sizeMax; omega)]
      exact ⟨pos + 8, left - 4 - 4, _, pos + 8, _, rfl, by omega, by omega⟩

theorem fetchStringBody_good {resultLen begin_ alignedLen : ℕ}
    (h : Header input pos left resultLen begin_ alignedLen) (hlen : input.length < sizeMax) :
    (alignedLen ≤ left ∧
      (good input pos left).fetchStringBody resultLen (.input, begin_) alignedLen =
        some (good input (pos + alignedLen) (left - alignedLen),
          (input.drop begin_).take resultLen)) ∨
    (good input pos left).fetchStringBody resultLen (.input, begin_) alignedLen =
      some (bad input 0 "Not enough data to read" (input.length - left), []) := by
  obtain ⟨hpos, hfits⟩ := h
  unfold fetchStringBody
  rcases Nat.lt_or_ge left alignedLen with hs | hs
  · right
    simp [checkLen_good_short hs (by omega) hlen]
  · left
    refine ⟨hs, ?_⟩
    have hread : begin_ + resultLen ≤ (good input pos (left - alignedLen)).input.length := by
      simp only [input_good]
      omega
    simp [checkLen_good hs, readAt_good hread]

/-- What an operation makes of a state without an error: the pointer keeps its distance to the end
of the input, or the first error is set and the answer is zero or empty. -/
def Stepped (input : List UInt8) (r : Option (TlParser × Answer)) : Prop :=
  (∃ pos left a, r = some (good input pos left, a) ∧ pos + left = input.length) ∨
  (∃ pos error errorPos a, r = some (bad input pos error errorPos, a) ∧ pos ≤ 32 ∧ error ≠ "" ∧
    errorPos ≠ sizeMax ∧ a.IsZero)

theorem stepped_fetchSized {size : ℕ} (hsize : size ≤ 32) (hpos : pos + left = input.length)
    (hlen : input.length < sizeMax) (f : List UInt8 → Answer)
    (hf : (f (List.replicate size 0)).IsZero) :
    Stepped input (((good input pos left).fetchSized size).map fun r => (r.1, f r.2)) := by
  rcases Nat.lt_or_ge left size with hs | hs
  · right
    refine ⟨size, "Not enough data to read", input.length - left, f (List.replicate size 0), ?_,
      hsize, by decide, by omega, hf⟩
    unfold fetchSized
    simp [checkLen_good_short hs (by omega) hlen,
      read_bad (show 0 + size ≤ 32 by omega)]
  · left
    exact ⟨pos + size, left - size, _, by rw [fetchSized_good hs hpos]; rfl, by omega⟩

theorem stepped_fetchString (hpos : pos + left = input.length) (hlen : input.length < sizeMax) :
    Stepped input (((good input pos left).fetchString).map fun r => (r.1, .string r.2)) := by
  unfold fetchString
  rcases Nat.lt_or_ge left 4 with hs | hs
  · right
    refine ⟨4, "Not enough data to read", input.length - left, .string [], ?_, by omega, by decide,
      by omega, rfl⟩
    simp [checkLen_good_short hs (by omega) hlen, fetchStringHeader_bad, fetchStringBody_bad]
  · rcases fetchStringHeader_good hs hpos hlen with ⟨pos', left', len, b, al, hh, hd⟩ | hh
    · rcases fetchStringBody_good hd hlen with ⟨hal, hb⟩ | hb
      · left
        refine ⟨pos' + al, left' - al, .string ((input.drop b).take len), ?_, ?_⟩
        · simp [checkLen_good hs, hh, hb]
        · have := hd.pos_add_left
          omega
      · right
        refine ⟨0, "Not enough data to read", input.length - left', .string [], ?_, by omega,
          by decide, by omega, rfl⟩
        simp [checkLen_good hs, hh, hb]
    · right
      refine ⟨8, "Not enough data to read", input.length - (left - 4), .string [], ?_, by omega,
        by decide, by omega, rfl⟩
      simp [checkLen_good hs, hh, fetchStringBody_bad]

theorem stepped_fetchStringRaw {size : ℕ} (hpos : pos + left = input.length)
    (hlen : input.length < sizeMax) :
    Stepped input (((good input pos left).fetchStringRaw size).map fun r => (r.1, .string r.2)) := by
  unfold fetchStringRaw
  rcases Nat.lt_or_ge left size with hs | hs
  · right
    refine ⟨0, "Not enough data to read", input.length - left, .string [], ?_, by omega, by decide,
      by omega, rfl⟩
    simp [checkLen_good_short hs (by omega) hlen]
  · left
    refine ⟨pos + size, left - size, .string ((input.drop pos).take size), ?_, by omega⟩
    simp [checkLen_good hs, read_good (show pos + size ≤ input.length by omega)]

theorem stepped_setError {message : String} (hm : message ≠ "") (hpos : pos + left = input.length)
    (hlen : input.length < sizeMax) :
    Stepped input (((good input pos left).setError message).map fun p => (p, .unit)) :=
  Or.inr ⟨0, message, input.length - left, .unit, by rw [setError_good pos hm (by omega) hlen]; rfl,
    by omega, hm, by omega, trivial⟩

/-- One operation before any error. -/
theorem step_good (op : Op) (hpos : pos + left = input.length) (hlen : input.length < sizeMax) :
    Stepped input (step (good input pos left) op) := by
  cases op with
  | fetchInt =>
    have h := stepped_fetchSized (show 4 ≤ 32 by omega) hpos hlen
      (fun bs => .int (BitVec.ofNat 32 (ofLE bs))) (by rw [ofLE_replicate_zero]; rfl)
    simpa [step, fetchInt, Function.comp_def] using h
  | fetchLong =>
    have h := stepped_fetchSized (show 8 ≤ 32 by omega) hpos hlen
      (fun bs => .long (BitVec.ofNat 64 (ofLE bs))) (by rw [ofLE_replicate_zero]; rfl)
    simpa [step, fetchLong, Function.comp_def] using h
  | fetchBinary size hs =>
    exact stepped_fetchSized hs hpos hlen .binary fun b hb => List.eq_of_mem_replicate hb
  | fetchString => exact stepped_fetchString hpos hlen
  | fetchStringRaw size => exact stepped_fetchStringRaw hpos hlen
  | fetchEnd =>
    rcases Nat.eq_zero_or_pos left with rfl | h
    · exact Or.inl ⟨pos, 0, .unit, by simp [step, fetchEnd], hpos⟩
    · have hs := stepped_setError (show "Too much data to fetch" ≠ "" by decide) hpos hlen
      simpa [step, fetchEnd, h.ne'] using hs
  | setError message hm => exact stepped_setError hm hpos hlen

end Good

/-! ### Whole runs -/

/-- The states that runs reach. -/
def Valid (input : List UInt8) (p : TlParser) : Prop :=
  (∃ pos left, p = good input pos left ∧ pos + left = input.length) ∨
  (∃ pos error errorPos, p = bad input pos error errorPos ∧ pos ≤ 32 ∧ error ≠ "" ∧
    errorPos ≠ sizeMax)

theorem step_valid {p : TlParser} (hlen : input.length < sizeMax) (h : Valid input p) (op : Op) :
    ∃ q a, step p op = some (q, a) ∧ Valid input q ∧ (q.error ≠ "" → a.IsZero) := by
  rcases h with ⟨pos, left, rfl, hpos⟩ | ⟨pos, error, errorPos, rfl, hpos, he, hep⟩
  · rcases step_good op hpos hlen with ⟨pos', left', a, hs, h⟩ | ⟨pos', e, ep, a, hs, h, he, hep, ha⟩
    · exact ⟨_, a, hs, Or.inl ⟨pos', left', rfl, h⟩, fun hne => absurd rfl hne⟩
    · exact ⟨_, a, hs, Or.inr ⟨pos', e, ep, rfl, h, he, hep⟩, fun _ => ha⟩
  · obtain ⟨pos', a, hs, h, ha⟩ := step_bad input op hpos he hep
    exact ⟨_, a, hs, Or.inr ⟨pos', error, errorPos, rfl, h, he, hep⟩, fun _ => ha⟩

/-- The first error is sticky. -/
theorem run_bad (ops : List Op) (hpos : pos ≤ 32) (he : error ≠ "") (hep : errorPos ≠ sizeMax) :
    ∃ q answers, machine.run (bad input pos error errorPos) ops = some (q, answers) ∧
      q.error = error ∧ q.errorPos = errorPos ∧ ∀ a ∈ answers, a.IsZero := by
  obtain ⟨q, answers, hr, ⟨pos', -, rfl⟩, ha⟩ := Machine.run_total (M := machine)
    (P := fun p => ∃ pos ≤ 32, p = bad input pos error errorPos) (Q := Answer.IsZero)
    (fun p op => by
      rintro ⟨pos, hpos, rfl⟩
      obtain ⟨pos', a, hs, h, ha⟩ := step_bad input op hpos he hep
      exact ⟨_, a, hs, ⟨pos', h, rfl⟩, ha⟩)
    ops _ ⟨pos, hpos, rfl⟩
  exact ⟨_, answers, hr, rfl, rfl, ha⟩

theorem ofSlice_eq (isAligned : Bool) (input : List UInt8) :
    ofSlice isAligned input = some (good input 0 input.length) := by
  have hcap : input.length ≤ copyCapacity input.length := by
    unfold copyCapacity
    split_ifs <;> omega
  simp [ofSlice, good, hcap]

theorem fetchEnd_status {p : TlParser} (hlen : input.length < sizeMax) (h : Valid input p) :
    ∃ q, p.fetchEnd = some q ∧ (q.getStatus = .ok () ↔ p.error = "" ∧ p.leftLen = 0) := by
  rcases h with ⟨pos, left, rfl, hpos⟩ | ⟨pos, error, errorPos, rfl, hpos, he, hep⟩
  · rcases Nat.eq_zero_or_pos left with rfl | hl
    · exact ⟨good input pos 0, by simp [fetchEnd], by simp [getStatus]⟩
    · have hs := setError_good pos (show "Too much data to fetch" ≠ "" by decide)
        (show left ≤ input.length by omega) hlen
      exact ⟨_, by simpa [fetchEnd, hl.ne'] using hs, by simp [getStatus, hl.ne']⟩
  · exact ⟨bad input pos error errorPos, by simp [fetchEnd], by simp [getStatus, he]⟩

/-- The bytes of an object in memory: no object is larger than `PTRDIFF_MAX`. -/
structure Slice where
  bytes : List UInt8
  size_lt : bytes.length < 2 ^ 63

/-- **Safety of the parser.**  For every input and every sequence of operations no read leaves its
block and no `CHECK` or `LOG_CHECK` fails.  While no error is set the pointer is `data_len -
left_len` bytes into the input; an operation that ends with an error answers zero or empty; the first
error never changes and all later answers are zero or empty; and after `fetch_end` the status is OK
exactly when no error occurred and the whole input was consumed. -/
theorem parser_safe (isAligned : Bool) (slice : Slice) (ops : List Op) :
    ∃ p₀ p answers, ofSlice isAligned slice.bytes = some p₀ ∧
      machine.run p₀ ops = some (p, answers) ∧
      (p.error = "" → p.block = .input ∧ p.dataLen = slice.bytes.length ∧ p.leftLen ≤ p.dataLen ∧
        p.data = p.dataLen - p.leftLen) ∧
      (∀ op, ∃ q a, machine.step p op = some (q, a) ∧ (q.error ≠ "" → a.IsZero)) ∧
      (p.error ≠ "" → ∀ later, ∃ q answers', machine.run p later = some (q, answers') ∧
        q.error = p.error ∧ q.errorPos = p.errorPos ∧ ∀ a ∈ answers', a.IsZero) ∧
      ∃ q, p.fetchEnd = some q ∧ (q.getStatus = .ok () ↔ p.error = "" ∧ p.leftLen = 0) := by
  have hlen : slice.bytes.length < sizeMax := by
    have := slice.size_lt
    unfold sizeMax
    omega
  obtain ⟨p, answers, hrun, hv, -⟩ := Machine.run_total (M := machine)
    (P := Valid slice.bytes) (Q := fun _ => True)
    (fun p op h => by
      obtain ⟨q, a, hs, hq, -⟩ := step_valid hlen h op
      exact ⟨q, a, hs, hq, trivial⟩)
    ops (good slice.bytes 0 slice.bytes.length) (Or.inl ⟨0, _, rfl, Nat.zero_add _⟩)
  refine ⟨_, p, answers, ofSlice_eq isAligned _, hrun, ?_, ?_, ?_, fetchEnd_status hlen hv⟩
  · rintro he
    rcases hv with ⟨pos, left, rfl, hpos⟩ | ⟨pos, error, errorPos, rfl, hpos, hne, hep⟩
    · refine ⟨rfl, rfl, ?_, ?_⟩
      · show left ≤ slice.bytes.length
        omega
      · show pos = slice.bytes.length - left
        omega
    · exact absurd he hne
  · intro op
    obtain ⟨q, a, hs, -, ha⟩ := step_valid hlen hv op
    exact ⟨q, a, hs, ha⟩
  · intro he later
    rcases hv with ⟨pos, left, rfl, hpos⟩ | ⟨pos, error, errorPos, rfl, hpos, hne, hep⟩
    · exact absurd rfl he
    · exact run_bad later hpos hne hep

end TlParser

end TdUtils.Tl
