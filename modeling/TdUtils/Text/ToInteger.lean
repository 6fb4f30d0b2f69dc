import Mathlib.Data.Int.ModEq
import TdUtils.Text.StringBuilder

/-!
# Text.ToInteger — integers read from strings

`to_integer` reads digits into an unsigned type, in which they wrap around, and negates there.  `to_integer_safe` prints
what was read and compares.  Arithmetic on signed types is written with a check that it does not overflow.
-/

namespace TdUtils.Text

open Lib Bytes StringBuilder

/-! ### Signed arithmetic -/

namespace IntType

/-- What a variable of the type can hold. -/
abbrev Value (T : IntType) : Type := {x : ℤ // T.InRange x}

/-- The remainder of an integer that is in the range of the type. -/
def wrap (T : IntType) (x : ℤ) : ℤ := (x - T.min) % 2 ^ T.width.bits + T.min

theorem two_pow_bits (T : IntType) : (2 : ℤ) ^ T.width.bits = T.max - T.min + 1 := by
  rcases T with ⟨width, signed⟩
  cases width <;> cases signed <;> rfl

theorem min_le_max (T : IntType) : T.min ≤ T.max := by
  rcases T with ⟨width, signed⟩
  cases width <;> cases signed <;> decide

theorem wrap_inRange (T : IntType) (x : ℤ) : T.InRange (T.wrap x) := by
  have hle := T.min_le_max
  have hpos := T.two_pow_bits
  have hnonneg := Int.emod_nonneg (x - T.min) (show (2 : ℤ) ^ T.width.bits ≠ 0 by omega)
  have hlt := Int.emod_lt_of_pos (x - T.min) (show (0 : ℤ) < 2 ^ T.width.bits by omega)
  unfold InRange wrap
  omega

/-- `static_cast<T>`. -/
def cast (T : IntType) (x : ℤ) : T.Value := ⟨T.wrap x, T.wrap_inRange x⟩

/-- `std::numeric_limits<T>::min()`. -/
def minValue (T : IntType) : T.Value := ⟨T.min, Int.le_refl _, T.min_le_max⟩

end IntType

/-- The result of an operation on signed integers of so many bits; none is an overflow. -/
def signed (bits : ℕ) (x : ℤ) : Option ℤ := if -2 ^ (bits - 1) ≤ x ∧ x < 2 ^ (bits - 1) then some x else none

/-- Smaller types are promoted to `int`. -/
def promotedBits (bits : ℕ) : ℕ := if bits < 32 then 32 else bits

/-! ### Reading -/

/-- `static_cast<unsigned_T>(integer_value * 10 + digit)`. -/
def addDigit (bits value digit : ℕ) : Option ℕ :=
  if bits < 32 then (signed 32 (value * 10 + digit)).map fun x => x.toNat % 2 ^ bits
  else some ((value * 10 + digit) % 2 ^ bits)

/-- The loop over the digits. -/
def readInteger (bits : ℕ) : ℕ → List UInt8 → Option ℕ
  | value, [] => some value
  | value, c :: s =>
    if isDigit c then (addDigit bits value (c.toNat - 48)).bind fun value => readInteger bits value s
    else some value

/-- `is_negative ? static_cast<T>(-static_cast<T>(integer_value)) : static_cast<T>(integer_value)`. -/
def withSign (T : IntType) (isNegative : Bool) (value : ℕ) : Option T.Value :=
  if isNegative then (signed (promotedBits T.width.bits) (-(T.cast value).val)).map T.cast
  else some (T.cast value)

/-- `to_integer` for the signed types. -/
def toSigned (T : IntType) (str : List UInt8) : Option T.Value := do
  let isNegative := decide (str.head? = some (ch '-'))
  let value ← readInteger T.width.bits 0 (if isNegative then str.tail else str)
  if value > T.max then
    let value := (2 ^ T.width.bits - value) % 2 ^ T.width.bits  -- ~integer_value + 1
    if value > T.max then return T.minValue else withSign T (!isNegative) value
  else withSign T isNegative value

/-- `to_integer` for the unsigned types. -/
def toUnsigned (T : IntType) (str : List UInt8) : Option T.Value :=
  (readInteger T.width.bits 0 str).map fun value => T.cast value

def toIntegerOf (T : IntType) (str : List UInt8) : Option T.Value :=
  if T.signed then toSigned T str else toUnsigned T str

/-- What `to_integer_safe` makes of `res`; the inner error is the text of the status. -/
def checkPrinted (memory : ℕ) (T : IntType) (str : List UInt8) (res : T.Value) :
    Except Failure (Except (List UInt8) T.Value) := do
  if (← pslice memory [.integer T res]) ≠ str then
    return .error (← pslice memory
      [.slice (chs ['C', 'a', 'n', '\'', 't', ' ', 'p', 'a', 'r', 's', 'e', ' ', '"']), .slice str,
        .slice (chs ['"', ' ', 'a', 's', ' ', 'n', 'u', 'm', 'b', 'e', 'r'])])
  else return .ok res

def toIntegerSafe (memory : ℕ) (T : IntType) (str : List UInt8) :
    Option (Except Failure (Except (List UInt8) T.Value)) :=
  (toIntegerOf T str).map (checkPrinted memory T str)

/-! ### What is read -/

/-- The number of the leading digits. -/
def leadingValue (str : List UInt8) : ℕ := decimalValue (str.takeWhile isDigit)

/-- The number a string starts with; only signed types have a sign. -/
def startValue (T : IntType) (str : List UInt8) : ℤ :=
  if T.signed ∧ str.head? = some (ch '-') then -leadingValue str.tail else leadingValue str

namespace IntType

variable {T : IntType}

theorem wrap_modEq (T : IntType) (x : ℤ) : T.wrap x ≡ x [ZMOD 2 ^ T.width.bits] := by
  have hmod := (Int.mod_modEq (x - T.min) (2 ^ T.width.bits)).add_right T.min
  rwa [Int.sub_add_cancel] at hmod

/-- There is only one remainder in the range of the type. -/
theorem eq_of_modEq {x y : ℤ} (hx : T.InRange x) (hy : T.InRange y) (h : x ≡ y [ZMOD 2 ^ T.width.bits]) : x = y := by
  have hcard := T.two_pow_bits
  obtain ⟨hxmin, hxmax⟩ := hx
  obtain ⟨hymin, hymax⟩ := hy
  have hzero : y - x = 0 := by
    apply Int.eq_zero_of_abs_lt_dvd h.dvd
    rw [abs_lt]
    omega
  omega

theorem cast_eq {x : ℤ} (h : T.InRange x) : (T.cast x).val = x :=
  eq_of_modEq (T.wrap_inRange x) h (T.wrap_modEq x)

end IntType

/-! ### The digits -/

theorem addDigit_eq {bits value d : ℕ} (hbits : bits ≤ 16 ∨ 32 ≤ bits) (hvalue : value < 2 ^ bits) (hd : d ≤ 9) :
    addDigit bits value d = some ((value * 10 + d) % 2 ^ bits) := by
  unfold addDigit
  by_cases hsmall : bits < 32
  · have hpow : 2 ^ bits ≤ 2 ^ 16 := Nat.pow_le_pow_right (by omega) (by omega)
    have hfits : signed 32 (value * 10 + d) = some ((value * 10 + d : ℕ) : ℤ) := by
      unfold signed
      rw [if_pos (by omega)]
      push_cast
      rfl
    rw [if_pos hsmall, hfits, Option.map_some, Int.toNat_natCast]
  · rw [if_neg hsmall]

theorem isDigit_le {c : UInt8} (h : isDigit c = true) : c.toNat - 48 ≤ 9 := by
  have hle : c ≤ ch '9' := (of_decide_eq_true h).2
  have hle := UInt8.le_iff_toNat_le.mp hle
  have hnine : (ch '9').toNat = 57 := rfl
  omega

theorem readInteger_eq_foldl {bits : ℕ} (hbits : bits ≤ 16 ∨ 32 ≤ bits) (str : List UInt8) {value : ℕ}
    (hvalue : value < 2 ^ bits) : readInteger bits value str =
      some ((str.takeWhile isDigit).foldl (fun value c => (value * 10 + (c.toNat - 48)) % 2 ^ bits) value) := by
  induction str generalizing value with
  | nil => rfl
  | cons c str ih =>
    rw [readInteger]
    by_cases hdigit : isDigit c = true
    · rw [if_pos hdigit, addDigit_eq hbits hvalue (isDigit_le hdigit), Option.bind_some,
        ih (Nat.mod_lt _ (Nat.two_pow_pos bits)), List.takeWhile_cons_of_pos hdigit, List.foldl_cons]
    · rw [if_neg hdigit, List.takeWhile_cons_of_neg hdigit]
      rfl

/-- The digits are read to the end, and what they are worth wraps around. -/
theorem readInteger_eq (T : IntType) (str : List UInt8) :
    readInteger T.width.bits 0 str = some (leadingValue str % 2 ^ T.width.bits) := by
  have hbits : T.width.bits ≤ 16 ∨ 32 ≤ T.width.bits := by
    generalize T.width = width
    cases width <;> decide
  have hfold := foldl_mod (2 ^ T.width.bits) (str.takeWhile isDigit) 0
  rw [Nat.zero_mod] at hfold
  rw [readInteger_eq_foldl hbits str (Nat.two_pow_pos _), hfold]
  rfl

/-! ### The sign -/

section Signed

variable {T : IntType}

/-- The bounds of a signed type. -/
theorem IntType.signed_bounds (hT : T.signed = true) : T.min = -T.max - 1 ∧
    -2 ^ (promotedBits T.width.bits - 1) ≤ T.min ∧ (T.max : ℤ) < 2 ^ (promotedBits T.width.bits - 1) := by
  rcases T with ⟨width, signed⟩
  obtain rfl : signed = true := hT
  cases width <;> decide

/-- A value that is not above the maximum is converted and negated without an overflow. -/
theorem withSign_eq (hT : T.signed = true) (isNegative : Bool) {value : ℕ} (hvalue : value ≤ T.max) :
    ∃ v : T.Value, withSign T isNegative value = some v ∧ v.val = if isNegative then -(value : ℤ) else value := by
  obtain ⟨hmin, hlow, hhigh⟩ := IntType.signed_bounds hT
  have hin : T.InRange value := ⟨by omega, by omega⟩
  have hneg : T.InRange (-(value : ℤ)) := ⟨by omega, by omega⟩
  unfold withSign
  rw [IntType.cast_eq hin]
  cases isNegative with
  | false => exact ⟨T.cast value, rfl, IntType.cast_eq hin⟩
  | true =>
    have hfits : signed (promotedBits T.width.bits) (-(value : ℤ)) = some (-(value : ℤ)) := if_pos (by omega)
    exact ⟨T.cast (-(value : ℤ)), by rw [hfits]; rfl, IntType.cast_eq hneg⟩

theorem signed_modEq {n m k : ℤ} (isNegative : Bool) (h : m ≡ n [ZMOD k]) :
    (if isNegative then -m else m) ≡ (if isNegative then -n else n) [ZMOD k] := by
  cases isNegative with
  | false => exact h
  | true => exact h.neg

/-- A value above the maximum stands for a negative number; its negation is not above, unless that is the minimum. -/
theorem negated_spec (hT : T.signed = true) (isNegative : Bool) {value : ℕ} (habove : T.max < value)
    (hlt : value < 2 ^ T.width.bits) :
    ∃ v : T.Value, (if (2 ^ T.width.bits - value) % 2 ^ T.width.bits > T.max then some T.minValue
        else withSign T (!isNegative) ((2 ^ T.width.bits - value) % 2 ^ T.width.bits)) = some v ∧
      v.val ≡ (if isNegative then -(value : ℤ) else value) [ZMOD 2 ^ T.width.bits] := by
  obtain ⟨hmin, -, -⟩ := IntType.signed_bounds hT
  have hcard := T.two_pow_bits
  have hpow : ((2 ^ T.width.bits : ℕ) : ℤ) = 2 ^ T.width.bits := by push_cast; rfl
  rw [Nat.mod_eq_of_lt (by omega)]
  by_cases hmost : 2 ^ T.width.bits - value > T.max
  · -- only the minimum is its own negation
    have hvalue : (value : ℤ) = -T.min := by omega
    rw [if_pos hmost]
    refine ⟨T.minValue, rfl, ?_⟩
    rw [hvalue, neg_neg]
    cases isNegative with
    | false =>
      apply Int.modEq_iff_dvd.mpr
      exact ⟨1, show -T.min - T.min = _ by omega⟩
    | true => exact Int.ModEq.refl _
  · obtain ⟨v, hrun, hv⟩ := withSign_eq hT (!isNegative) (Nat.not_lt.mp hmost)
    have hcast : ((2 ^ T.width.bits - value : ℕ) : ℤ) = 2 ^ T.width.bits - value := by
      rw [Nat.cast_sub hlt.le, hpow]
    rw [if_neg hmost]
    refine ⟨v, hrun, ?_⟩
    rw [hv, hcast]
    apply Int.modEq_iff_dvd.mpr
    cases isNegative with
    | false => exact ⟨1, show (value : ℤ) - -(2 ^ T.width.bits - value) = _ by ring⟩
    | true => exact ⟨-1, show -(value : ℤ) - (2 ^ T.width.bits - value) = _ by ring⟩

theorem toSigned_spec (hT : T.signed = true) (str : List UInt8) :
    ∃ v : T.Value, toSigned T str = some v ∧ v.val ≡ startValue T str [ZMOD 2 ^ T.width.bits] := by
  have hstart : startValue T str = if decide (str.head? = some (ch '-')) then
      -(leadingValue (if decide (str.head? = some (ch '-')) then str.tail else str) : ℤ)
      else leadingValue (if decide (str.head? = some (ch '-')) then str.tail else str) := by
    unfold startValue
    by_cases hminus : str.head? = some (ch '-') <;> simp [hT, hminus]
  unfold toSigned
  simp only [hstart, readInteger_eq, Option.bind_eq_bind, Option.bind_some]
  generalize decide (str.head? = some (ch '-')) = isNegative
  generalize (if isNegative then str.tail else str) = s
  have hmod : ((leadingValue s % 2 ^ T.width.bits : ℕ) : ℤ) ≡ leadingValue s [ZMOD 2 ^ T.width.bits] := by
    push_cast
    exact Int.mod_modEq _ _
  have hlt := Nat.mod_lt (leadingValue s) (Nat.two_pow_pos T.width.bits)
  by_cases habove : leadingValue s % 2 ^ T.width.bits > T.max
  · obtain ⟨v, hrun, hv⟩ := negated_spec hT isNegative habove hlt
    rw [if_pos habove]
    exact ⟨v, hrun, hv.trans (signed_modEq isNegative hmod)⟩
  · obtain ⟨v, hrun, hv⟩ := withSign_eq hT isNegative (Nat.not_lt.mp habove)
    rw [if_neg habove]
    refine ⟨v, hrun, ?_⟩
    rw [hv]
    exact signed_modEq isNegative hmod

end Signed

/-- **Reading wraps around.** -/
theorem toIntegerOf_spec (T : IntType) (str : List UInt8) :
    ∃ v : T.Value, toIntegerOf T str = some v ∧ v.val ≡ startValue T str [ZMOD 2 ^ T.width.bits] := by
  unfold toIntegerOf
  by_cases hT : T.signed = true
  · rw [if_pos hT]
    exact toSigned_spec hT str
  · have hstart : startValue T str = leadingValue str := if_neg fun h => hT h.1
    rw [if_neg hT, toUnsigned, readInteger_eq, hstart]
    refine ⟨_, rfl, (T.wrap_modEq _).trans ?_⟩
    push_cast
    exact Int.mod_modEq _ _

/-- `to_integer<int>` as the parsers use it is one of these. -/
theorem toIntegerOf_int (str : List UInt8) : (toIntegerOf ⟨.int, true⟩ str).map Subtype.val = some (toInteger str) := by
  obtain ⟨v, hrun, hmod⟩ := toIntegerOf_spec ⟨.int, true⟩ str
  have hlt : ∀ s, readDigits 0 s < 2 ^ 32 := by
    intro s
    rw [readDigits_eq_mod]
    exact Nat.mod_lt _ (Nat.two_pow_pos 32)
  have hread : ∀ s, (readDigits 0 s : ℤ) ≡ leadingValue s [ZMOD 2 ^ 32] := by
    intro s
    rw [readDigits_eq_mod]
    push_cast
    exact Int.mod_modEq _ _
  have hin : IntType.InRange ⟨.int, true⟩ (toInteger str) := by
    show -2 ^ 31 ≤ toInteger str ∧ toInteger str ≤ 2 ^ 31 - 1
    unfold toInteger
    dsimp only
    split_ifs <;> omega
  have hvalue : toInteger str ≡ startValue ⟨.int, true⟩ str [ZMOD 2 ^ 32] := by
    apply Int.modEq_iff_dvd.mpr
    unfold toInteger startValue
    by_cases hminus : str.head? = some (ch '-')
    · have hbound := hlt str.tail
      have hdvd := (hread str.tail).dvd
      simp only [hminus, if_true, true_and]
      split_ifs <;> omega
    · have hbound := hlt str
      have hdvd := (hread str).dvd
      simp only [hminus, if_false, and_false]
      split_ifs <;> omega
  rw [hrun, Option.map_some, IntType.eq_of_modEq v.2 hin (hmod.trans hvalue.symm)]

/-! ### Printing and reading back -/

theorem leadingValue_toDecimal (n : ℕ) : leadingValue (toDecimal n) = n := by
  rw [leadingValue, takeWhile_toDecimal, decimalValue_toDecimal]

theorem startValue_decimal {T : IntType} {x : ℤ} (hx : T.InRange x) : startValue T (decimal x) = x := by
  have hplus : ∀ n, (toDecimal n).head? ≠ some (ch '-') := by
    intro n hhead
    exact absurd (toDecimal_isDigit n _ (List.mem_of_mem_head? hhead)) (by decide)
  unfold startValue decimal
  by_cases hneg : x < 0
  · have hsigned : T.signed = true := by
      by_contra hfalse
      have hmin := hx.1
      rw [IntType.min, if_neg hfalse] at hmin
      omega
    rw [if_pos hneg, if_pos ⟨hsigned, rfl⟩, List.tail_cons, leadingValue_toDecimal]
    omega
  · rw [if_neg hneg, if_neg fun h => hplus _ h.2, leadingValue_toDecimal]
    omega

theorem toIntegerOf_decimal {T : IntType} (v : T.Value) : toIntegerOf T (decimal v) = some v := by
  obtain ⟨w, hrun, hmod⟩ := toIntegerOf_spec T (decimal v)
  rw [startValue_decimal v.2] at hmod
  rw [hrun, Subtype.ext (IntType.eq_of_modEq w.2 v.2 hmod)]

theorem pslice_integer (memory : ℕ) {T : IntType} (v : T.Value) : pslice memory [.integer T v] = .ok (decimal v) := by
  rw [pslice_eq, kept, written_short (p := .integer T v) trivial, if_pos (by decide), kept, List.append_nil]
  rfl

/-- **Integers are parsed and printed.**  A string is read with two's complement, and without an overflow; it is
accepted exactly when it is the decimal form of what is returned; this form is what is printed. -/
theorem parses_prints (memory : ℕ) (T : IntType) :
    (∀ str, ∃ v : T.Value, toIntegerOf T str = some v ∧ v.val ≡ startValue T str [ZMOD 2 ^ T.width.bits]) ∧
      (∀ str (v : T.Value), toIntegerSafe memory T str = some (.ok (.ok v)) ↔ str = decimal v) ∧
      ∀ v : T.Value, pslice memory [.integer T v] = .ok (decimal v) := by
  refine ⟨toIntegerOf_spec T, fun str v => ?_, pslice_integer memory⟩
  obtain ⟨w, hrun, -⟩ := toIntegerOf_spec T str
  unfold toIntegerSafe checkPrinted
  rw [hrun, Option.map_some, pslice_integer, pslice_eq]
  constructor
  · intro h
    by_cases heq : decimal w = str
    · simp [bind, Except.bind, pure, Except.pure, heq] at h
      rw [← heq, h]
    · simp [bind, Except.bind, pure, Except.pure, heq] at h
  · intro heq
    rw [heq, toIntegerOf_decimal] at hrun
    obtain rfl := Option.some.inj hrun
    simp [bind, Except.bind, pure, Except.pure, heq]

end TdUtils.Text
