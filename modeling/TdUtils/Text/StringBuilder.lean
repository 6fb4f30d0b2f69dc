import TdUtils.Lib.Part
import TdUtils.Text.PrintInteger

/-!
# Text.StringBuilder — texts built in a buffer

`end_ptr_` stands 30 bytes in front of the end of the buffer.  Characters and integers are written when `current_ptr_` is
in front of it, and so may go past it; strings have to end at it, or may use what is behind it when the buffer cannot
grow.  Positions are counted from `begin_ptr_`, and a call that goes wrong says how.
-/

namespace TdUtils

open Lib Text

/-- What goes wrong in a call. -/
inductive StringBuilder.Failure
  /-- A write behind the end of the buffer. -/
  | outside
  /-- A failed `CHECK` in `reserve_inner`. -/
  | check
  /-- `std::abort` in `as_cslice`. -/
  | abort
  /-- There is no memory for a new buffer. -/
  | badAlloc
deriving DecidableEq

structure StringBuilder where
  /-- The bytes from `begin_ptr_` to the end of the buffer. -/
  buffer : List UInt8
  current : ℕ
  end_ : ℕ
  errorFlag : Bool
  useBuffer : Bool
deriving DecidableEq

namespace StringBuilder

def reservedSize : ℕ := 30

/-- `std::numeric_limits<size_t>::max()`. -/
def sizeMax : ℕ := 2 ^ 64 - 1

/-- `std::make_unique<char[]>(size)`, with blocks of up to `memory` bytes. -/
def alloc (memory size : ℕ) : Except Failure (List UInt8) :=
  if size ≤ memory then .ok (List.replicate size 0) else .error .badAlloc

/-- The constructor. -/
def new (memory : ℕ) (slice : List UInt8) (useBuffer : Bool) : Except Failure StringBuilder := do
  if slice.length ≤ reservedSize then
    let bufferSize := reservedSize + 100
    let buffer ← alloc memory bufferSize
    return ⟨buffer, 0, bufferSize - reservedSize, false, useBuffer⟩
  else return ⟨slice, 0, slice.length - reservedSize, false, useBuffer⟩

/-- The bytes are written at `current_ptr_`, which goes on behind them. -/
def write (sb : StringBuilder) (text : List UInt8) : Except Failure StringBuilder :=
  if sb.current + text.length ≤ sb.buffer.length then
    .ok { sb with buffer := overwrite sb.buffer sb.current text, current := sb.current + text.length }
  else .error .outside

def onError (sb : StringBuilder) : StringBuilder := { sb with errorFlag := true }

/-- The new size of the buffer, without the bytes behind `end_ptr_`. -/
def grownSize (oldBufferSize needDataSize : ℕ) : ℕ :=
  let newBufferSize := (oldBufferSize + 1) * 2
  let newBufferSize := if newBufferSize < needDataSize then needDataSize else newBufferSize
  if newBufferSize < 100 then 100 else newBufferSize

def reserveInner (memory : ℕ) (sb : StringBuilder) (size : ℕ) : Except Failure (StringBuilder × Bool) := do
  if ¬ sb.useBuffer then return (sb, false)
  else
    let oldDataSize := sb.current
    if size ≥ sizeMax - reservedSize - oldDataSize - 1 then return (sb, false)
    else
      let oldBufferSize := sb.end_
      if oldBufferSize ≥ (sizeMax - reservedSize) / 2 - 2 then return (sb, false)
      else
        let newBufferSize := grownSize oldBufferSize (oldDataSize + size) + reservedSize
        let newBuffer ← alloc memory newBufferSize
        if newBuffer.length < oldDataSize then throw .outside
        else
          let sb := { sb with
            buffer := overwrite newBuffer 0 (sb.buffer.take oldDataSize)
            end_ := newBufferSize - reservedSize }
          if sb.end_ > sb.current ∧ sb.end_ - sb.current ≥ size then return (sb, true)
          else throw .check

/-- `reserve()`. -/
def reserve (memory : ℕ) (sb : StringBuilder) : Except Failure (StringBuilder × Bool) :=
  if sb.end_ > sb.current then .ok (sb, true) else sb.reserveInner memory reservedSize

/-- `reserve(size)`. -/
def reserveSize (memory : ℕ) (sb : StringBuilder) (size : ℕ) : Except Failure (StringBuilder × Bool) :=
  if sb.end_ > sb.current ∧ sb.end_ - sb.current ≥ size then .ok (sb, true) else sb.reserveInner memory size

/-- `operator<<(Slice)`. -/
def appendSlice (memory : ℕ) (sb : StringBuilder) (slice : List UInt8) : Except Failure StringBuilder := do
  let (sb, reserved) ← sb.reserveSize memory slice.length
  if reserved then sb.write slice
  else if sb.end_ < sb.current then return sb.onError
  else
    let availableSize := sb.end_ + reservedSize - 1 - sb.current
    if slice.length > availableSize then sb.onError.write (slice.take availableSize) else sb.write slice

/-- The `operator<<` for characters and integers, which write a few bytes. -/
def appendShort (memory : ℕ) (sb : StringBuilder) (text : List UInt8) : Except Failure StringBuilder := do
  let (sb, reserved) ← sb.reserve memory
  if reserved then sb.write text else return sb.onError

/-- `operator<<(char)`. -/
def appendChar (memory : ℕ) (sb : StringBuilder) (c : UInt8) : Except Failure StringBuilder :=
  sb.appendShort memory [c]

/-- `operator<<(int)` and the others. -/
def appendInteger (memory : ℕ) (sb : StringBuilder) (T : IntType) (x : ℤ) : Except Failure StringBuilder :=
  sb.appendShort memory (printInteger T x)

/-- The text that is returned; the zero behind it is written, too. -/
def asCslice (sb : StringBuilder) : Except Failure (List UInt8) :=
  if sb.current ≥ sb.end_ + reservedSize then .error .abort
  else if sb.current < sb.buffer.length then .ok ((overwrite sb.buffer sb.current [0]).take sb.current)
  else .error .outside

/-! ### What is appended -/

inductive Piece
  | slice (s : List UInt8)
  | char (c : UInt8)
  | integer (T : IntType) (x : {x : ℤ // T.InRange x})

namespace Piece

/-- What is to be appended. -/
def text : Piece → List UInt8
  | slice s => s
  | char c => [c]
  | integer _ x => decimal x

/-- A character or an integer. -/
def Short : Piece → Prop
  | slice _ => False
  | _ => True

end Piece

def append (memory : ℕ) (sb : StringBuilder) : Piece → Except Failure StringBuilder
  | .slice s => sb.appendSlice memory s
  | .char c => sb.appendChar memory c
  | .integer T x => sb.appendInteger memory T x

def text (pieces : List Piece) : List UInt8 := pieces.flatMap Piece.text

/-- A builder on a buffer, and what is appended to it. -/
def build (memory : ℕ) (slice : List UInt8) (useBuffer : Bool) (pieces : List Piece) : Except Failure StringBuilder := do
  pieces.foldlM (append memory) (← new memory slice useBuffer)

/-! ### What the buffer holds -/

/-- The text stands in the buffer, and `current_ptr_` behind it, in front of the end. -/
structure Holds (sb : StringBuilder) (text : List UInt8) : Prop where
  contents : sb.buffer.take sb.current = text
  room : sb.buffer.length = sb.end_ + reservedSize
  few : sb.current < sb.end_ + reservedSize
  addressable : sb.buffer.length < 2 ^ 63

variable {sb sb' : StringBuilder} {memory : ℕ} {t : List UInt8} {p : Piece} {ps : List Piece}

theorem Holds.current_eq (h : Holds sb t) : sb.current = t.length := by
  have hroom := h.room
  have hfew := h.few
  rw [← h.contents, List.length_take]
  omega

theorem Holds.onError (h : Holds sb t) : Holds sb.onError t := ⟨h.contents, h.room, h.few, h.addressable⟩

/-- What is written in front of the last byte stands behind the text. -/
theorem Holds.write (h : Holds sb t) (new : List UInt8) (hfew : sb.current + new.length < sb.end_ + reservedSize) :
    ∃ sb', sb.write new = .ok sb' ∧ Holds sb' (t ++ new) ∧ sb'.end_ = sb.end_ ∧ sb'.errorFlag = sb.errorFlag ∧
      sb'.useBuffer = sb.useBuffer := by
  have hroom := h.room
  have hfits : sb.current + new.length ≤ sb.buffer.length := by omega
  have hlen : (overwrite sb.buffer sb.current new).length = sb.buffer.length := length_overwrite hfits
  have hpart := @part_overwrite_behind _ sb.buffer new 0 sb.current (Nat.zero_le _) hfits
  unfold part at hpart
  simp only [List.drop_zero, Nat.sub_zero] at hpart
  unfold StringBuilder.write
  rw [if_pos hfits]
  refine ⟨_, rfl, ⟨?_, ?_, hfew, ?_⟩, rfl, rfl, rfl⟩
  · rw [← h.contents]
    exact hpart
  · rw [← hroom]
    exact hlen
  · exact hlen ▸ h.addressable

/-- `as_cslice` returns the text. -/
theorem Holds.asCslice (h : Holds sb t) : sb.asCslice = .ok t := by
  have hroom := h.room
  have hfew := h.few
  unfold StringBuilder.asCslice
  rw [if_neg (by omega), if_pos (by omega)]
  unfold overwrite
  rw [List.append_assoc, List.take_left' (by rw [List.length_take]; omega), h.contents]

theorem new_holds (slice : List UInt8) (useBuffer : Bool) (hslice : slice.length < 2 ^ 63)
    (hmem : slice.length ≤ 30 → 130 ≤ memory) : ∃ sb, new memory slice useBuffer = .ok sb ∧ Holds sb [] ∧ sb.errorFlag = false ∧
      sb.useBuffer = useBuffer ∧ sb.end_ = (if slice.length ≤ 30 then 130 else slice.length) - 30 := by
  unfold new
  by_cases hsmall : slice.length ≤ reservedSize
  · have halloc : alloc memory (reservedSize + 100) = .ok (List.replicate 130 0) := if_pos (hmem hsmall)
    rw [if_pos hsmall]
    dsimp only
    rw [halloc]
    refine ⟨_, rfl, ⟨rfl, List.length_replicate, Nat.succ_pos _, ?_⟩, rfl, rfl, ?_⟩
    · rw [List.length_replicate]
      decide
    · have hsmall' : slice.length ≤ 30 := hsmall
      rw [if_pos hsmall']
      rfl
  · have hlarge : ¬ slice.length ≤ 30 := hsmall
    rw [if_neg hsmall]
    refine ⟨_, rfl, ⟨rfl, ?_, ?_, hslice⟩, rfl, rfl, ?_⟩
    · show slice.length = slice.length - 30 + 30
      omega
    · exact Nat.succ_pos _
    · rw [if_neg hlarge]
      rfl

/-! ### A buffer that grows -/

/-- A new buffer has room for what is asked for, and is less than twice as large as it has to be. -/
theorem grownSize_spec (oldBufferSize needDataSize : ℕ) : needDataSize ≤ grownSize oldBufferSize needDataSize ∧
    2 * oldBufferSize + 2 ≤ grownSize oldBufferSize needDataSize ∧ 100 ≤ grownSize oldBufferSize needDataSize ∧
    (grownSize oldBufferSize needDataSize ≤ needDataSize ∨
      grownSize oldBufferSize needDataSize ≤ 2 * oldBufferSize + 100) := by
  unfold grownSize
  dsimp only
  split_ifs <;> omega

/-- A call of `reserve_inner` for `size` bytes, when the text behind them is `total` bytes long. -/
theorem Holds.reserveInner (h : Holds sb t) (huse : sb.useBuffer = true) (size : ℕ) {total : ℕ}
    (hfull : sb.end_ ≤ sb.current + size) (htotal : sb.current + size ≤ total + 30) (hmem : memory < 2 ^ 63)
    (hfit : total < 2 ^ 63) :
    (sb.reserveInner memory size = .error .badAlloc ∧ memory < 2 * total + 192) ∨
      ∃ sb', sb.reserveInner memory size = .ok (sb', true) ∧ Holds sb' t ∧ sb'.useBuffer = true ∧
        sb'.errorFlag = sb.errorFlag ∧ sb'.current = sb.current ∧ sb.current + size ≤ sb'.end_ ∧
        sb.current < sb'.end_ := by
  have hroom := h.room
  have haddressable := h.addressable
  have hfew := h.few
  obtain ⟨hneed, hdouble, hhundred, hle⟩ := grownSize_spec sb.end_ (sb.current + size)
  unfold reservedSize at hroom hfew
  have hfirst : ¬ size ≥ sizeMax - reservedSize - sb.current - 1 := by
    unfold sizeMax reservedSize
    omega
  have hsecond : ¬ sb.end_ ≥ (sizeMax - reservedSize) / 2 - 2 := by
    unfold sizeMax reservedSize
    omega
  unfold StringBuilder.reserveInner
  rw [if_neg (not_not.mpr huse)]
  dsimp only
  rw [if_neg hfirst, if_neg hsecond]
  generalize grownSize sb.end_ (sb.current + size) = n at hneed hdouble hhundred hle
  by_cases hmemory : n + reservedSize ≤ memory
  · right
    have halloc : alloc memory (n + reservedSize) = .ok (List.replicate (n + reservedSize) 0) := if_pos hmemory
    have hcopy : ¬ (List.replicate (n + reservedSize) (0 : UInt8)).length < sb.current := by
      rw [List.length_replicate]
      omega
    rw [halloc]
    simp only [bind, Except.bind]
    rw [if_neg hcopy, if_pos ⟨by omega, by omega⟩]
    have hold : (sb.buffer.take sb.current).length = sb.current := by
      rw [List.length_take]
      omega
    have hlen : (overwrite (List.replicate (n + reservedSize) (0 : UInt8)) 0 (sb.buffer.take sb.current)).length =
        n + reservedSize := by
      rw [length_overwrite (by rw [List.length_replicate, hold]; omega), List.length_replicate]
    refine ⟨_, rfl, ⟨?_, ?_, ?_, ?_⟩, huse, rfl, rfl, ?_, ?_⟩
    · show (overwrite (List.replicate (n + reservedSize) 0) 0 (sb.buffer.take sb.current)).take sb.current = t
      unfold overwrite
      rw [List.take_zero, List.nil_append, List.take_left' hold, h.contents]
    · rw [hlen]
      rfl
    · show sb.current < n + reservedSize - reservedSize + reservedSize
      omega
    · rw [hlen]
      omega
    · show sb.current + size ≤ n + reservedSize - reservedSize
      omega
    · show sb.current < n + reservedSize - reservedSize
      omega
  · left
    have halloc : alloc memory (n + reservedSize) = .error .badAlloc := if_neg hmemory
    rw [halloc]
    unfold reservedSize at hmemory
    exact ⟨rfl, by omega⟩

/-- What comes of an append: the memory is not enough, or the text stands behind the old one. -/
def Appended (memory total : ℕ) (sb : StringBuilder) (t : List UInt8) (r : Except Failure StringBuilder) : Prop :=
  (r = .error .badAlloc ∧ memory < 2 * total + 192) ∨
    ∃ sb', r = .ok sb' ∧ Holds sb' t ∧ sb'.useBuffer = true ∧ sb'.errorFlag = sb.errorFlag

theorem Holds.appendSlice_grows (h : Holds sb t) (huse : sb.useBuffer = true) {s : List UInt8} {total : ℕ}
    (htotal : sb.current + s.length ≤ total) (hmem : memory < 2 ^ 63) (hfit : total < 2 ^ 63) :
    Appended memory total sb (t ++ s) (sb.appendSlice memory s) := by
  unfold StringBuilder.appendSlice reserveSize
  by_cases hroom : sb.end_ > sb.current ∧ sb.end_ - sb.current ≥ s.length
  · obtain ⟨sb', hrun, hholds, -, hflag, huse'⟩ := h.write s (by unfold reservedSize; omega)
    rw [if_pos hroom]
    exact .inr ⟨sb', hrun, hholds, huse'.trans huse, hflag⟩
  · rw [if_neg hroom]
    rcases h.reserveInner huse s.length (by omega) (by omega) hmem hfit with
      ⟨hrun, hlow⟩ | ⟨sb₁, hrun, hholds, huse₁, hflag₁, hcurrent, hsize, hlt⟩
    · rw [hrun]
      exact .inl ⟨rfl, hlow⟩
    · obtain ⟨sb', hwrite, hholds', -, hflag, huse'⟩ := hholds.write s (by unfold reservedSize; omega)
      rw [hrun]
      exact .inr ⟨sb', hwrite, hholds', huse'.trans huse₁, hflag.trans hflag₁⟩

theorem Holds.appendShort_grows (h : Holds sb t) (huse : sb.useBuffer = true) {s : List UInt8} (hs : s.length ≤ 20)
    {total : ℕ} (htotal : sb.current ≤ total) (hmem : memory < 2 ^ 63) (hfit : total < 2 ^ 63) :
    Appended memory total sb (t ++ s) (sb.appendShort memory s) := by
  unfold StringBuilder.appendShort StringBuilder.reserve
  by_cases hroom : sb.end_ > sb.current
  · obtain ⟨sb', hrun, hholds, -, hflag, huse'⟩ := h.write s (by unfold reservedSize; omega)
    rw [if_pos hroom]
    exact .inr ⟨sb', hrun, hholds, huse'.trans huse, hflag⟩
  · rw [if_neg hroom]
    rcases h.reserveInner huse reservedSize (by omega) (by unfold reservedSize; omega) hmem hfit with
      ⟨hrun, hlow⟩ | ⟨sb₁, hrun, hholds, huse₁, hflag₁, hcurrent, hsize, hlt⟩
    · rw [hrun]
      exact .inl ⟨rfl, hlow⟩
    · obtain ⟨sb', hwrite, hholds', -, hflag, huse'⟩ := hholds.write s (by unfold reservedSize; omega)
      rw [hrun]
      exact .inr ⟨sb', hwrite, hholds', huse'.trans huse₁, hflag.trans hflag₁⟩

/-- What a character or an integer writes is its text, of a few bytes. -/
theorem append_short (hp : p.Short) (memory : ℕ) (sb : StringBuilder) :
    append memory sb p = sb.appendShort memory p.text ∧ 1 ≤ p.text.length ∧ p.text.length ≤ 20 := by
  rcases p with s | c | ⟨T, x, hx⟩
  · exact absurd hp not_false
  · exact ⟨rfl, Nat.le_refl 1, show 1 ≤ 20 by decide⟩
  · have hlen := length_printInteger hx
    rw [printInteger_eq hx] at hlen
    refine ⟨?_, hlen⟩
    show sb.appendInteger memory T x = _
    unfold appendInteger
    rw [printInteger_eq hx]
    rfl

theorem Holds.append_grows (h : Holds sb t) (huse : sb.useBuffer = true) (p : Piece) (total : ℕ)
    (htotal : sb.current + p.text.length ≤ total) (hmem : memory < 2 ^ 63) (hfit : total < 2 ^ 63) :
    Appended memory total sb (t ++ p.text) (append memory sb p) := by
  by_cases hp : p.Short
  · obtain ⟨hrun, -, hlen⟩ := append_short hp memory sb
    rw [hrun]
    exact h.appendShort_grows huse hlen (by omega) hmem hfit
  · cases p with
    | slice s => exact h.appendSlice_grows huse htotal hmem hfit
    | char c => exact absurd trivial hp
    | integer T x => exact absurd trivial hp

theorem Holds.run_grows (h : Holds sb t) (huse : sb.useBuffer = true) (ps : List Piece)
    (hmem : memory < 2 ^ 63) (hfit : sb.current + (text ps).length < 2 ^ 63) :
    Appended memory (sb.current + (text ps).length) sb (t ++ text ps) (ps.foldlM (append memory) sb) := by
  induction ps generalizing sb t with
  | nil => exact .inr ⟨sb, rfl, by rwa [text, List.flatMap_nil, List.append_nil], huse, rfl⟩
  | cons p ps ih =>
    have hsplit : text (p :: ps) = p.text ++ text ps := List.flatMap_cons
    rw [hsplit, List.length_append] at hfit ⊢
    rw [List.foldlM_cons]
    rcases h.append_grows huse p (sb.current + (p.text.length + (text ps).length)) (by omega) hmem hfit with
      ⟨hrun, hlow⟩ | ⟨sb₁, hrun, hholds, huse₁, hflag⟩
    · rw [hrun]
      exact .inl ⟨rfl, hlow⟩
    · have hcurrent : sb₁.current + (text ps).length = sb.current + (p.text.length + (text ps).length) := by
        rw [hholds.current_eq, h.current_eq, List.length_append]
        omega
      have hrest := ih hholds huse₁ (by omega)
      rw [hcurrent, List.append_assoc] at hrest
      rw [hrun]
      rcases hrest with hfail | ⟨sb', hrun', hholds', huse', hflag'⟩
      · exact .inl hfail
      · exact .inr ⟨sb', hrun', hholds', huse', hflag'.trans hflag⟩

/-! ### A buffer that stays -/

/-- What is written of a piece when `current` bytes stand. -/
def written (end_ current : ℕ) : Piece → List UInt8
  | .slice s => if end_ < current then [] else s.take (end_ + 29 - current)
  | p => if current < end_ then p.text else []

/-- What is written of all pieces. -/
def kept (end_ : ℕ) : ℕ → List Piece → List UInt8
  | _, [] => []
  | current, p :: ps => written end_ current p ++ kept end_ (current + (written end_ current p).length) ps

theorem Holds.reserveInner_fixed (h : sb.useBuffer = false) (memory size : ℕ) :
    sb.reserveInner memory size = .ok (sb, false) := by
  unfold StringBuilder.reserveInner
  rw [h]
  rfl

/-- What comes of an append: a piece is written, as far as there is room, and the flag says that something is lost. -/
def Kept (sb : StringBuilder) (t new full : List UInt8) (r : Except Failure StringBuilder) : Prop :=
  ∃ sb', r = .ok sb' ∧ Holds sb' (t ++ new) ∧ sb'.end_ = sb.end_ ∧ sb'.useBuffer = false ∧
    (sb'.errorFlag = false → sb.errorFlag = false ∧ new = full)

theorem Holds.kept_write (h : Holds sb t) (huse : sb.useBuffer = false) {s : List UInt8}
    (hfew : sb.current + s.length < sb.end_ + reservedSize) : Kept sb t s s (sb.write s) := by
  obtain ⟨sb', hrun, hholds, hend, hflag, huse'⟩ := h.write s hfew
  exact ⟨sb', hrun, hholds, hend, huse'.trans huse, fun hfalse => ⟨hflag ▸ hfalse, rfl⟩⟩

theorem Holds.kept_onError (h : Holds sb t) (huse : sb.useBuffer = false) (full : List UInt8) :
    Kept sb t [] full (.ok sb.onError) := by
  refine ⟨sb.onError, rfl, ?_, rfl, huse, fun hfalse => absurd hfalse (by simp [StringBuilder.onError])⟩
  rw [List.append_nil]
  exact h.onError

theorem Holds.appendSlice_kept (h : Holds sb t) (huse : sb.useBuffer = false) (memory : ℕ) (s : List UInt8) :
    Kept sb t (written sb.end_ sb.current (.slice s)) s (sb.appendSlice memory s) := by
  have hfew := h.few
  unfold reservedSize at hfew
  have hwritten : written sb.end_ sb.current (.slice s) =
      if sb.end_ < sb.current then [] else s.take (sb.end_ + 29 - sb.current) := rfl
  unfold StringBuilder.appendSlice reserveSize
  rw [hwritten, Holds.reserveInner_fixed huse]
  by_cases hroom : sb.end_ > sb.current ∧ sb.end_ - sb.current ≥ s.length
  · rw [if_pos hroom, if_neg (show ¬ sb.end_ < sb.current by omega), List.take_of_length_le (by omega)]
    exact h.kept_write huse (by unfold reservedSize; omega)
  · rw [if_neg hroom]
    simp only [bind, Except.bind]
    rw [if_neg Bool.false_ne_true]
    by_cases hbehind : sb.end_ < sb.current
    · rw [if_pos hbehind, if_pos hbehind]
      exact h.kept_onError huse s
    · rw [if_neg hbehind, if_neg hbehind]
      unfold reservedSize
      have havailable : sb.end_ + 30 - 1 - sb.current = sb.end_ + 29 - sb.current := by omega
      rw [havailable]
      by_cases hlong : s.length > sb.end_ + 29 - sb.current
      · rw [if_pos hlong]
        obtain ⟨sb', hrun, hholds, hend, hflag, huse'⟩ := h.onError.write
          (s.take (sb.end_ + 29 - sb.current)) (by
            show sb.current + (s.take (sb.end_ + 29 - sb.current)).length < sb.end_ + 30
            rw [List.length_take]
            omega)
        exact ⟨sb', hrun, hholds, hend, huse'.trans huse, fun hfalse => absurd (hflag.symm.trans hfalse)
          (by simp [StringBuilder.onError])⟩
      · rw [if_neg hlong, List.take_of_length_le (by omega)]
        exact h.kept_write huse (by unfold reservedSize; omega)

theorem Holds.append_kept (h : Holds sb t) (huse : sb.useBuffer = false) (memory : ℕ) (p : Piece) :
    Kept sb t (written sb.end_ sb.current p) p.text (append memory sb p) := by
  by_cases hp : p.Short
  · obtain ⟨hrun, -, hlen⟩ := append_short hp memory sb
    have hwritten : written sb.end_ sb.current p = if sb.current < sb.end_ then p.text else [] := by
      cases p with
      | slice s => exact absurd hp not_false
      | char c => rfl
      | integer T x => rfl
    rw [hrun, hwritten]
    unfold StringBuilder.appendShort StringBuilder.reserve
    rw [Holds.reserveInner_fixed huse]
    by_cases hroom : sb.end_ > sb.current
    · rw [if_pos hroom, if_pos hroom]
      exact h.kept_write huse (by unfold reservedSize; omega)
    · rw [if_neg hroom, if_neg hroom]
      exact h.kept_onError huse p.text
  · cases p with
    | slice s => exact h.appendSlice_kept huse memory s
    | char c => exact absurd trivial hp
    | integer T x => exact absurd trivial hp

theorem Holds.run_kept (h : Holds sb t) (huse : sb.useBuffer = false) (memory : ℕ) (ps : List Piece) :
    Kept sb t (kept sb.end_ sb.current ps) (text ps) (ps.foldlM (append memory) sb) := by
  induction ps generalizing sb t with
  | nil =>
    refine ⟨sb, rfl, ?_, rfl, huse, fun hfalse => ⟨hfalse, rfl⟩⟩
    rwa [kept, List.append_nil]
  | cons p ps ih =>
    obtain ⟨sb₁, hrun, hholds, hend, huse₁, hflag⟩ := h.append_kept huse memory p
    obtain ⟨sb', hrun', hholds', hend', huse', hflag'⟩ := ih hholds huse₁
    have hcurrent : sb₁.current = sb.current + (written sb.end_ sb.current p).length := by
      rw [hholds.current_eq, h.current_eq, List.length_append]
    rw [hend, hcurrent] at hholds' hflag'
    rw [List.foldlM_cons, hrun]
    refine ⟨sb', hrun', ?_, hend'.trans hend, huse', fun hfalse => ?_⟩
    · rw [kept, ← List.append_assoc]
      exact hholds'
    · obtain ⟨hfalse₁, hrest⟩ := hflag' hfalse
      obtain ⟨hfalse₀, hfirst⟩ := hflag hfalse₁
      refine ⟨hfalse₀, ?_⟩
      rw [kept, hrest, hfirst]
      rfl

/-! ### What is kept of the text -/

variable {end_ current : ℕ}

theorem written_short (hp : p.Short) : written end_ current p = if current < end_ then p.text else [] := by
  cases p with
  | slice s => exact absurd hp not_false
  | char c => rfl
  | integer T x => rfl

theorem written_slice (s : List UInt8) :
    written end_ current (.slice s) = if end_ < current then [] else s.take (end_ + 29 - current) := rfl

/-- Nothing is written any more when `current_ptr_` is behind `end_ptr_`. -/
theorem kept_behind (h : end_ < current) (ps : List Piece) : kept end_ current ps = [] := by
  induction ps with
  | nil => rfl
  | cons p ps ih =>
    have hwritten : written end_ current p = [] := by
      by_cases hp : p.Short
      · rw [written_short hp, if_neg (by omega)]
      · cases p with
        | slice s => rw [written_slice, if_pos h]
        | char c => exact absurd trivial hp
        | integer T x => exact absurd trivial hp
    rw [kept, hwritten]
    exact ih

/-- With `current_ptr_` at `end_ptr_` characters and integers are lost, and so are empty strings. -/
theorem kept_skip (hp : p.Short ∨ p.text = []) (ps : List Piece) : kept end_ end_ (p :: ps) = kept end_ end_ ps := by
  have hwritten : written end_ end_ p = [] := by
    by_cases hshort : p.Short
    · rw [written_short hshort, if_neg (Nat.lt_irrefl _)]
    · cases p with
      | slice s =>
        have hs : s = [] := hp.resolve_left hshort
        rw [written_slice, hs, List.take_nil, ite_self]
      | char c => exact absurd trivial hshort
      | integer T x => exact absurd trivial hshort
  rw [kept, hwritten]
  rfl

/-- The first string behind them is written, as far as there is room. -/
theorem kept_first {s : List UInt8} (hs : s ≠ []) (between after : List Piece)
    (hbetween : ∀ q ∈ between, q.Short ∨ q.text = []) :
    kept end_ end_ (between ++ .slice s :: after) = s.take 29 := by
  induction between with
  | nil =>
    have hlen := List.length_pos_of_ne_nil hs
    have hwritten : written end_ end_ (.slice s) = s.take 29 := by
      rw [written_slice, if_neg (Nat.lt_irrefl _), Nat.add_sub_cancel_left]
    rw [List.nil_append, kept, hwritten, kept_behind, List.append_nil]
    rw [List.length_take]
    omega
  | cons q between ih =>
    obtain ⟨hq, hbetween⟩ := List.forall_mem_cons.mp hbetween
    rw [List.cons_append, kept_skip hq, ih hbetween]

theorem exists_of_kept (ps : List Piece) (h : kept end_ end_ ps ≠ []) : ∃ between s after,
    ps = between ++ .slice s :: after ∧ (∀ q ∈ between, q.Short ∨ q.text = []) ∧ s ≠ [] := by
  induction ps with
  | nil => exact absurd rfl h
  | cons p ps ih =>
    by_cases hp : p.Short ∨ p.text = []
    · rw [kept_skip hp] at h
      obtain ⟨between, s, after, rfl, hbetween, hs⟩ := ih h
      exact ⟨p :: between, s, after, rfl, List.forall_mem_cons.mpr ⟨hp, hbetween⟩, hs⟩
    · rw [not_or] at hp
      cases p with
      | slice s => exact ⟨[], s, ps, rfl, List.forall_mem_nil _, hp.2⟩
      | char c => exact absurd trivial hp.1
      | integer T x => exact absurd trivial hp.1

/-- No character and no integer is appended with `current_ptr_` at `end_ptr_` when a string that is not empty follows;
or the first such string, cut, is how the lost text begins. -/
def NoneSkipped (end_ current : ℕ) (pieces : List Piece) : Prop :=
  ∀ before p between s after, pieces = before ++ p :: (between ++ .slice s :: after) →
    current + (text before).length = end_ → p.Short → (∀ q ∈ between, q.Short ∨ q.text = []) → s ≠ [] →
    s.take 29 <+: text (p :: (between ++ .slice s :: after))

theorem text_cons (p : Piece) (ps : List Piece) : text (p :: ps) = p.text ++ text ps := List.flatMap_cons

theorem noneSkipped_cons (h : p.Short → current ≠ end_) :
    NoneSkipped end_ current (p :: ps) ↔ NoneSkipped end_ (current + p.text.length) ps := by
  constructor
  · intro hall before q between s after hps hend
    refine hall (p :: before) q between s after (by rw [hps]; rfl) ?_
    rw [text_cons, List.length_append]
    omega
  · rintro hall (- | ⟨b, before⟩) q between s after hps hend hq
    · obtain ⟨rfl, -⟩ := List.cons.inj hps
      exact absurd hend (h hq)
    · obtain ⟨rfl, rfl⟩ := List.cons.inj hps
      rw [text_cons, List.length_append] at hend
      exact hall before q between s after rfl (by omega) hq

theorem noneSkipped_of_lt (h : end_ < current) (ps : List Piece) : NoneSkipped end_ current ps := by
  intro before q between s after hps hend
  omega

/-- What is written of a string and not cut off does not matter. -/
theorem kept_whole (hwritten : written end_ current p = p.text)
    (ih : kept end_ (current + p.text.length) ps <+: text ps ↔ NoneSkipped end_ (current + p.text.length) ps)
    (h : p.Short → current ≠ end_) :
    kept end_ current (p :: ps) <+: text (p :: ps) ↔ NoneSkipped end_ current (p :: ps) := by
  rw [kept, hwritten, text_cons, List.prefix_append_right_inj, ih, noneSkipped_cons h]

theorem kept_prefix_iff (end_ current : ℕ) (ps : List Piece) :
    kept end_ current ps <+: text ps ↔ NoneSkipped end_ current ps := by
  induction ps generalizing current with
  | nil => exact ⟨fun _ before p between s after hps => absurd hps (by simp), fun _ => List.nil_prefix⟩
  | cons p ps ih =>
    by_cases hbehind : end_ < current
    · rw [kept_behind hbehind]
      exact ⟨fun _ => noneSkipped_of_lt hbehind _, fun _ => List.nil_prefix⟩
    by_cases hp : p.Short
    · by_cases hlt : current < end_
      · exact kept_whole (by rw [written_short hp, if_pos hlt]) (ih _) fun _ => hlt.ne
      · obtain rfl : current = end_ := by omega
        have hlen := (append_short hp 0 ⟨[], 0, 0, false, false⟩).2.1
        rw [kept_skip (.inl hp)]
        constructor
        · rintro hprefix (- | ⟨b, before⟩) q between s after hps hend hq hbetween hs
          · obtain ⟨rfl, rfl⟩ := List.cons.inj hps
            rwa [kept_first hs between after hbetween] at hprefix
          · obtain ⟨rfl, rfl⟩ := List.cons.inj hps
            rw [text_cons, List.length_append] at hend
            omega
        · intro hall
          by_cases hnone : kept current current ps = []
          · rw [hnone]
            exact List.nil_prefix
          · obtain ⟨between, s, after, rfl, hbetween, hs⟩ := exists_of_kept ps hnone
            rw [kept_first hs between after hbetween]
            exact hall [] p between s after rfl rfl hp hbetween hs
    · cases p with
      | slice s =>
        have hslice : written end_ current (.slice s) = s.take (end_ + 29 - current) := by
          rw [written_slice, if_neg hbehind]
        by_cases hlong : end_ + 29 - current < s.length
        · have hcut : (s.take (end_ + 29 - current)).length = end_ + 29 - current := by
            rw [List.length_take]
            omega
          rw [kept, hslice, kept_behind (by omega), List.append_nil, noneSkipped_cons fun h : Piece.Short (.slice s) => absurd h not_false]
          refine ⟨fun _ => noneSkipped_of_lt ?_ _, fun _ => ?_⟩
          · show end_ < current + s.length
            omega
          · exact (List.take_prefix _ _).trans (List.prefix_append _ _)
        · rw [List.take_of_length_le (by omega)] at hslice
          exact kept_whole hslice (ih _) fun h => absurd h not_false
      | char c => exact absurd trivial hp
      | integer T x => exact absurd trivial hp

/-! ### Both modes -/

/-- The size of the buffer at the start. -/
def bufferSize (slice : List UInt8) : ℕ := if slice.length ≤ 30 then 130 else slice.length

/-- A buffer that can grow gets all of the text, unless the memory is not enough; then its texts are longer. -/
def Grows (memory : ℕ) (slice : List UInt8) (pieces : List Piece) : Prop :=
  (build memory slice true pieces = .error .badAlloc ∧ memory < 2 * (text pieces).length + 192) ∨
    ∃ sb, build memory slice true pieces = .ok sb ∧ sb.errorFlag = false ∧ sb.asCslice = .ok (text pieces)

/-- A buffer that cannot grow gets the start of the text, and all of it without an error. -/
def Truncates (memory : ℕ) (slice : List UInt8) (pieces : List Piece) : Prop :=
  ∃ sb result, build memory slice false pieces = .ok sb ∧ sb.asCslice = .ok result ∧
    result.length ≤ bufferSize slice ∧ result <+: text pieces ∧ (sb.errorFlag = false → result = text pieces)

section Modes

variable {slice : List UInt8} {pieces : List Piece} (hslice : slice.length < 2 ^ 63)
  (hpermits : slice.length ≤ 30 → 130 ≤ memory)

include hslice hpermits

theorem grows (hmem : memory < 2 ^ 63) (hfit : (text pieces).length < 2 ^ 63) : Grows memory slice pieces := by
  obtain ⟨sb, hnew, hholds, hflag, huse, -⟩ := new_holds slice true hslice hpermits
  have hcurrent : sb.current = 0 := hholds.current_eq
  have hrun := hholds.run_grows huse pieces hmem (by omega)
  rw [hcurrent, Nat.zero_add, List.nil_append] at hrun
  unfold Grows build
  rw [hnew]
  rcases hrun with hfail | ⟨sb', hrun, hholds', -, hflag'⟩
  · exact .inl hfail
  · exact .inr ⟨sb', hrun, hflag'.trans hflag, hholds'.asCslice⟩

/-- No call goes wrong in a buffer that cannot grow; what it gets fits, and it is the text without an error. -/
theorem build_kept : ∃ sb, build memory slice false pieces = .ok sb ∧
    sb.asCslice = .ok (kept (bufferSize slice - 30) 0 pieces) ∧
    (kept (bufferSize slice - 30) 0 pieces).length < bufferSize slice ∧
    (sb.errorFlag = false → kept (bufferSize slice - 30) 0 pieces = text pieces) := by
  obtain ⟨sb, hnew, hholds, -, huse, hend⟩ := new_holds slice false hslice hpermits
  have hcurrent : sb.current = 0 := hholds.current_eq
  have hsize : sb.end_ = bufferSize slice - 30 := hend
  have hlarge : 30 < bufferSize slice := by
    unfold bufferSize
    split_ifs <;> omega
  obtain ⟨sb', hrun, hholds', hend', -, hflag⟩ := hholds.run_kept huse memory pieces
  rw [hcurrent, hsize, List.nil_append] at hholds'
  rw [hcurrent, hsize] at hflag
  have hfew := hholds'.few
  rw [hholds'.current_eq, hend', hsize] at hfew
  unfold build
  rw [hnew]
  refine ⟨sb', hrun, hholds'.asCslice, ?_, fun hfalse => (hflag hfalse).2⟩
  unfold reservedSize at hfew
  omega

end Modes

/-- **Building texts.**  A buffer that can grow gets the text as it is to be; one that cannot grow does, exactly when no
character or integer is lost in front of a string that is still written. -/
theorem builds_iff {memory : ℕ} {slice : List UInt8} {pieces : List Piece} (hslice : slice.length < 2 ^ 63)
    (hpermits : 130 ≤ memory) (hmem : memory < 2 ^ 63) (hfit : (text pieces).length < 2 ^ 63) :
    Grows memory slice pieces ∧ Truncates memory slice pieces ↔ NoneSkipped (bufferSize slice - 30) 0 pieces := by
  obtain ⟨sb, hbuild, hresult, hlen, hflag⟩ := @build_kept memory slice pieces hslice fun _ => hpermits
  rw [← kept_prefix_iff]
  constructor
  · rintro ⟨-, sb', result, hbuild', hresult', -, hprefix, -⟩
    obtain rfl := Except.ok.inj (hbuild.symm.trans hbuild')
    obtain rfl := Except.ok.inj (hresult.symm.trans hresult')
    exact hprefix
  · intro hprefix
    exact ⟨grows hslice (fun _ => hpermits) hmem hfit, sb, _, hbuild, hresult, hlen.le, hprefix, hflag⟩

theorem builds_iff_two :
    Grows 1000 (List.replicate 31 0) [.char 0x61, .slice [0x62, 0x63]] ∧
      Truncates 1000 (List.replicate 31 0) [.char 0x61, .slice [0x62, 0x63]] ↔
        NoneSkipped (bufferSize (List.replicate 31 0) - 30) 0 [.char 0x61, .slice [0x62, 0x63]] :=
  builds_iff (by decide) (by decide) (by decide) (by decide)

/-- In 31 bytes the second character is lost, and the string behind it is written. -/
theorem second_character_lost : ¬ ∀ (memory : ℕ) (slice : List UInt8) (pieces : List Piece), slice.length < 2 ^ 63 →
    130 ≤ memory → memory < 2 ^ 63 → (text pieces).length < 2 ^ 63 →
    Grows memory slice pieces ∧ Truncates memory slice pieces := by
  intro hall
  obtain ⟨-, sb, result, hbuild, hresult, -, hprefix, -⟩ := hall 1000 (List.replicate 31 0)
    [.char 0x61, .char 0x62, .slice [0x63]] (by decide) (by decide) (by decide) (by decide)
  have hrun : build 1000 (List.replicate 31 0) false [.char 0x61, .char 0x62, .slice [0x63]] =
      .ok ⟨[0x61, 0x63] ++ List.replicate 29 0, 2, 1, true, false⟩ := rfl
  obtain rfl := Except.ok.inj (hrun.symm.trans hbuild)
  have htext : [0x61, 0x63] = result := Except.ok.inj hresult
  rw [← htext] at hprefix
  exact absurd hprefix (by decide)

/-! ### The buffer of a `Logger` -/

def loggerBufferSize : ℕ := 128 * 1024

/-- `PSLICE()`: what is built in the buffer of a `Logger`, which does not grow. -/
def pslice (memory : ℕ) (pieces : List Piece) : Except Failure (List UInt8) := do
  (← build memory (List.replicate loggerBufferSize 0) false pieces).asCslice

/-- Nothing goes wrong in the buffer of a `Logger`. -/
theorem pslice_eq (memory : ℕ) (pieces : List Piece) :
    pslice memory pieces = .ok (kept (loggerBufferSize - 30) 0 pieces) := by
  have hlen : (List.replicate loggerBufferSize (0 : UInt8)).length = loggerBufferSize := List.length_replicate
  have hlarge : loggerBufferSize = 128 * 1024 := rfl
  have hsize : bufferSize (List.replicate loggerBufferSize 0) = loggerBufferSize := by
    unfold bufferSize
    rw [hlen, if_neg (by omega)]
  obtain ⟨sb, hbuild, hresult, -, -⟩ := @build_kept memory (List.replicate loggerBufferSize 0) pieces
    (by rw [hlen]; omega) fun hle => by rw [hlen] at hle; omega
  rw [hsize] at hresult
  unfold pslice
  rw [hbuild]
  exact hresult

/-- What is written of a text that fits is all of it. -/
theorem kept_of_le {end_ : ℕ} : ∀ {pieces : List Piece} {current : ℕ},
    current + (text pieces).length ≤ end_ → kept end_ current pieces = text pieces
  | [], _, _ => rfl
  | piece :: pieces, current, h => by
    rw [text_cons, List.length_append] at h
    have hwritten : written end_ current piece = piece.text := by
      by_cases hshort : piece.Short
      · rw [written_short hshort]
        split_ifs with hlt
        · rfl
        · exact (List.eq_nil_of_length_eq_zero (by omega)).symm
      · cases piece with
        | slice s =>
          change current + (s.length + _) ≤ end_ at h
          rw [written_slice, if_neg (by omega), List.take_of_length_le (by omega)]
          rfl
        | char c => exact absurd trivial hshort
        | integer T x => exact absurd trivial hshort
    rw [kept, hwritten, kept_of_le (by omega), text_cons]

end StringBuilder

end TdUtils
