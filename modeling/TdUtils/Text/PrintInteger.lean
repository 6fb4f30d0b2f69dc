import TdUtils.Text.Misc

/-!
# Text.PrintInteger — how `StringBuilder` prints integers

`print_uint` writes the digits from the lowest one on and turns them around; `print_int` negates what is negative,
and leaves the minimum of its type, which has no negation there, to a `std::stringstream`.  What comes out is the
decimal form of the number, and fits into the bytes that `StringBuilder` keeps free.
-/

namespace TdUtils.Text

open Lib Bytes

/-- The widths of the standard signed and unsigned integer types, of which `char` alone is none. -/
inductive Width
  | char | short | int | long | longLong
deriving DecidableEq

def Width.bits : Width → ℕ
  | char => 8
  | short => 16
  | int => 32
  | long => 64
  | longLong => 64

structure IntType where
  width : Width
  signed : Bool
deriving DecidableEq

namespace IntType

/-- `std::numeric_limits<T>::max()`. -/
def max (T : IntType) : ℕ := if T.signed then 2 ^ (T.width.bits - 1) - 1 else 2 ^ T.width.bits - 1

/-- `std::numeric_limits<T>::min()`. -/
def min (T : IntType) : ℤ := if T.signed then -2 ^ (T.width.bits - 1) else 0

def InRange (T : IntType) (x : ℤ) : Prop := T.min ≤ x ∧ x ≤ T.max

instance (T : IntType) (x : ℤ) : Decidable (T.InRange x) := inferInstanceAs (Decidable (_ ∧ _))

/-- The type of the `operator<<` that prints a `T`. -/
def printed (T : IntType) : IntType :=
  match T.width with
  | .char => ⟨.int, T.signed⟩
  | .short => ⟨.int, true⟩
  | _ => T

end IntType

def digit (d : ℕ) : UInt8 := UInt8.ofNat (48 + d)

/-- The loop that writes the digits. -/
def writeDigits (x : ℕ) : List UInt8 :=
  digit (x % 10) :: if 0 < x / 10 then writeDigits (x / 10) else []
termination_by x
decreasing_by omega

def printUint (x : ℕ) : List UInt8 :=
  if x < 100 then
    if x < 10 then [digit x] else [digit (x / 10), digit (x % 10)]
  else (writeDigits x).reverse

/-- What a `std::stringstream` writes for a negative integer, with the classic locale, which is the global one until a
program sets another. -/
def streamed (x : ℤ) : List UInt8 := ch '-' :: toDecimal x.natAbs

def printInt (T : IntType) (x : ℤ) : List UInt8 :=
  if x < 0 then
    if x = T.min then streamed x else ch '-' :: printUint (-x).toNat
  else printUint x.toNat

/-- What `operator<<` writes for an `x` of type `T`. -/
def printInteger (T : IntType) (x : ℤ) : List UInt8 :=
  if T.printed.signed then printInt T.printed x else printUint x.toNat

/-! ### The decimal form -/

/-- The canonical decimal form. -/
def decimal (x : ℤ) : List UInt8 := if x < 0 then ch '-' :: toDecimal x.natAbs else toDecimal x.natAbs

theorem writeDigits_eq (x : ℕ) (h : 0 < x) : writeDigits x = (Nat.digits 10 x).map digit := by
  induction x using Nat.strong_induction_on with
  | _ x ih =>
    rw [writeDigits, Nat.digits_def' (by omega) h, List.map_cons]
    by_cases hrest : 0 < x / 10
    · rw [if_pos hrest, ih (x / 10) (by omega) hrest]
    · rw [if_neg hrest, Nat.eq_zero_of_not_pos hrest]
      rfl

theorem printUint_eq (x : ℕ) : printUint x = toDecimal x := by
  unfold printUint toDecimal
  by_cases hzero : x = 0
  · rw [hzero]
    rfl
  rw [if_neg hzero]
  by_cases hten : x < 10
  · rw [if_pos (by omega), if_pos hten, Nat.digits_of_lt 10 x hzero hten]
    rfl
  by_cases hhundred : x < 100
  · rw [if_pos hhundred, if_neg hten, Nat.digits_def' (by omega) (by omega),
      Nat.digits_of_lt 10 (x / 10) (by omega) (by omega)]
    rfl
  · rw [if_neg hhundred, writeDigits_eq x (by omega), List.map_reverse]
    rfl

/-- **Integers are printed canonically.** -/
theorem printInteger_eq {T : IntType} {x : ℤ} (h : T.InRange x) : printInteger T x = decimal x := by
  have hnonneg : T.signed = false → 0 ≤ x := by
    intro hsigned
    have hmin := h.1
    rwa [IntType.min, hsigned] at hmin
  have hprinted : T.printed.signed = false → T.signed = false := by
    rcases T with ⟨width, signed⟩
    cases width <;> simp [IntType.printed]
  unfold printInteger printInt decimal
  simp only [printUint_eq]
  by_cases hneg : x < 0
  · have hsigned : T.printed.signed = true := by
      by_contra hfalse
      have := hnonneg (hprinted (Bool.eq_false_iff.mpr hfalse))
      omega
    have habs : (-x).toNat = x.natAbs := by omega
    rw [if_pos hsigned, if_pos hneg, if_pos hneg, habs, streamed, ite_self]
  · have habs : x.toNat = x.natAbs := by omega
    rw [if_neg hneg, if_neg hneg, habs, ite_self]

/-! ### The length -/

theorem length_toDecimal_le {n k : ℕ} (hn : n < 10 ^ k) (hk : 0 < k) : (toDecimal n).length ≤ k := by
  unfold toDecimal
  split_ifs with hzero
  · exact hk
  · rw [List.length_map, List.length_reverse, Nat.digits_length_le_iff (by omega)]
    exact hn

/-- A printed integer has a digit, and no more bytes than are kept free. -/
theorem length_printInteger {T : IntType} {x : ℤ} (h : T.InRange x) :
    1 ≤ (printInteger T x).length ∧ (printInteger T x).length ≤ 20 := by
  have hbounds : -2 ^ 63 ≤ x ∧ x < 2 ^ 64 := by
    obtain ⟨hmin, hmax⟩ := h
    rcases T with ⟨width, signed⟩
    cases width <;> cases signed <;> simp [IntType.min, IntType.max, Width.bits] at hmin hmax <;> omega
  rw [printInteger_eq h]
  have hpos := List.length_pos_of_ne_nil (toDecimal_ne_nil x.natAbs)
  unfold decimal
  by_cases hneg : x < 0
  · rw [if_pos hneg, List.length_cons]
    have hle := length_toDecimal_le (n := x.natAbs) (k := 19) (by omega) (by omega)
    omega
  · rw [if_neg hneg]
    have hle := length_toDecimal_le (n := x.natAbs) (k := 20) (by omega) (by omega)
    omega

end TdUtils.Text
