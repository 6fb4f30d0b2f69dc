import Mathlib.Data.List.TakeWhile
import Mathlib.Data.Nat.Digits.Defs
import Mathlib.Data.Nat.Digits.Lemmas
import TdUtils.Lib.Bytes

/-!
# Text.Misc — letters, spaces and numbers in strings

`to_integer<int>` reads digits into an `uint32` that wraps around, so any number of digits has a value;
up to `2 ^ 31 - 1` it reads back what `to_string` writes.
-/

namespace TdUtils.Text

open Lib Bytes

/-- `to_lower(char)`. -/
def toLowerChar (c : UInt8) : UInt8 := if ch 'A' ≤ c ∧ c ≤ ch 'Z' then c - ch 'A' + ch 'a' else c

/-- `to_lower(Slice)`. -/
def toLower (s : List UInt8) : List UInt8 := s.map toLowerChar

def isSpace (c : UInt8) : Bool :=
  c = ch ' ' ∨ c = ch '\t' ∨ c = ch '\r' ∨ c = ch '\n' ∨ c = 0 ∨ c = 0x0b

def isDigit (c : UInt8) : Bool := ch '0' ≤ c ∧ c ≤ ch '9'

/-- The loop of `to_integer<int>` over the digits. -/
def readDigits (value : ℕ) (s : List UInt8) : ℕ :=
  (s.takeWhile isDigit).foldl (fun value c => (value * 10 + (c.toNat - 48)) % 2 ^ 32) value

/-- `to_integer<int>`. -/
def toInteger (s : List UInt8) : ℤ :=
  let isNegative := s.head? = some (ch '-')
  let value := readDigits 0 (if isNegative then s.tail else s)
  if 2 ^ 31 - 1 < value then
    -- the value is negated in two's complement
    let value : ℕ := (2 ^ 32 - value) % 2 ^ 32
    if 2 ^ 31 - 1 < value then -2 ^ 31 else if isNegative then (value : ℤ) else -(value : ℤ)
  else if isNegative then -(value : ℤ) else (value : ℤ)

/-- `to_string` of an `int` that is not negative. -/
def toDecimal (n : ℕ) : List UInt8 :=
  if n = 0 then [ch '0'] else (Nat.digits 10 n).reverse.map fun d => UInt8.ofNat (48 + d)

/-! ### Numbers -/

theorem toDecimal_isDigit (n : ℕ) : ∀ c ∈ toDecimal n, isDigit c = true := by
  intro c hc
  unfold toDecimal at hc
  split_ifs at hc with hzero
  · obtain rfl := List.mem_singleton.mp hc
    rfl
  · obtain ⟨d, hd, rfl⟩ := List.mem_map.mp hc
    have hlt : d < 10 := Nat.digits_lt_base (by omega) (List.mem_reverse.mp hd)
    interval_cases d <;> rfl

theorem takeWhile_toDecimal (n : ℕ) : (toDecimal n).takeWhile isDigit = toDecimal n :=
  List.takeWhile_eq_self_iff.mpr (toDecimal_isDigit n)

/-- The number that digits denote. -/
def decimalValue (t : List UInt8) : ℕ := t.foldl (fun value c => value * 10 + (c.toNat - 48)) 0

theorem foldl_reverse_digits (n : ℕ) :
    (Nat.digits 10 n).reverse.foldl (fun value d => value * 10 + d) 0 = n := by
  have hfold := Nat.ofDigits_eq_foldr 10 (Nat.digits 10 n)
  rw [Nat.ofDigits_digits] at hfold
  rw [List.foldl_reverse]
  conv_rhs => rw [hfold]
  apply congrArg (fun f => List.foldr f 0 (Nat.digits 10 n))
  funext d value
  rw [Nat.cast_id, Nat.add_comm, Nat.mul_comm]

theorem decimalValue_toDecimal (n : ℕ) : decimalValue (toDecimal n) = n := by
  unfold decimalValue toDecimal
  split_ifs with hzero
  · rw [hzero]
    rfl
  · rw [List.foldl_map]
    have hdigit : ∀ d ∈ (Nat.digits 10 n).reverse, ∀ value : ℕ,
        value * 10 + ((UInt8.ofNat (48 + d)).toNat - 48) = value * 10 + d := by
      intro d hd value
      have hlt : d < 10 := Nat.digits_lt_base (by omega) (List.mem_reverse.mp hd)
      have hbyte : (UInt8.ofNat (48 + d)).toNat = 48 + d := by
        rw [UInt8.toNat_ofNat']
        exact Nat.mod_eq_of_lt (by omega)
      rw [hbyte, Nat.add_sub_cancel_left]
    rw [List.foldl_ext _ _ _ fun value d hd => hdigit d hd value]
    exact foldl_reverse_digits n

theorem foldl_mod (m : ℕ) : ∀ (t : List UInt8) (v : ℕ),
    t.foldl (fun value c => (value * 10 + (c.toNat - 48)) % m) (v % m) =
      t.foldl (fun value c => value * 10 + (c.toNat - 48)) v % m
  | [], _ => rfl
  | c :: t, v => by
    have hstep : (v % m * 10 + (c.toNat - 48)) % m = (v * 10 + (c.toNat - 48)) % m := by
      rw [Nat.add_mod, Nat.mod_mul_mod, ← Nat.add_mod]
    rw [List.foldl_cons, List.foldl_cons, hstep, foldl_mod m t]

theorem readDigits_eq_mod (s : List UInt8) : readDigits 0 s = decimalValue (s.takeWhile isDigit) % 2 ^ 32 := by
  have hfold := foldl_mod (2 ^ 32) (s.takeWhile isDigit) 0
  rwa [Nat.zero_mod] at hfold

theorem readDigits_toDecimal {n : ℕ} (h : n < 2 ^ 32) : readDigits 0 (toDecimal n) = n := by
  rw [readDigits_eq_mod, takeWhile_toDecimal, decimalValue_toDecimal, Nat.mod_eq_of_lt h]

/-- `to_integer` reads what `to_string` writes. -/
theorem toInteger_toDecimal {n : ℕ} (h : n < 2 ^ 31) : toInteger (toDecimal n) = n := by
  have hsign : (toDecimal n).head? ≠ some (ch '-') := by
    intro hhead
    have hdigit := toDecimal_isDigit n _ (List.mem_of_mem_head? hhead)
    exact absurd hdigit (by decide)
  unfold toInteger
  dsimp only
  rw [if_neg hsign, readDigits_toDecimal (by omega), if_neg (by omega), if_neg hsign]

theorem toDecimal_ne_nil (n : ℕ) : toDecimal n ≠ [] := by
  unfold toDecimal
  split_ifs with hzero
  · exact List.cons_ne_nil _ _
  · rw [Ne, List.map_eq_nil_iff, List.reverse_eq_nil_iff, Nat.digits_eq_nil_iff_eq_zero]
    exact hzero

/-- A number is written without leading zeros. -/
theorem toDecimal_head {n : ℕ} (h : n ≠ 0) : (toDecimal n).head? ≠ some (ch '0') := by
  have hne : Nat.digits 10 n ≠ [] := fun hnil => h (Nat.digits_eq_nil_iff_eq_zero.mp hnil)
  have hlast := Nat.getLast_digit_ne_zero 10 h
  have hlt : (Nat.digits 10 n).getLast hne < 10 :=
    Nat.digits_lt_base (by omega) (List.getLast_mem hne)
  intro hhead
  unfold toDecimal at hhead
  rw [if_neg h, List.head?_map, List.head?_reverse, List.getLast?_eq_some_getLast hne,
    Option.map_some] at hhead
  have hall : ∀ d < 10, UInt8.ofNat (48 + d) = ch '0' → d = 0 := by decide
  exact hlast (hall _ hlt (Option.some.inj hhead))

/-! ### Letters -/

variable {c d : UInt8}

theorem toLowerChar_of_not_capital (h : ¬ (ch 'A' ≤ c ∧ c ≤ ch 'Z')) : toLowerChar c = c := if_neg h

/-- A capital letter becomes a small one. -/
theorem toLowerChar_of_capital (h : ch 'A' ≤ c ∧ c ≤ ch 'Z') : ch 'a' ≤ toLowerChar c ∧ toLowerChar c ≤ ch 'z' := by
  have hlow : 65 ≤ c.toNat := UInt8.le_iff_toNat_le.mp h.1
  have hhigh : c.toNat ≤ 90 := UInt8.le_iff_toNat_le.mp h.2
  have hsub : (c - ch 'A').toNat = c.toNat - 65 := UInt8.toNat_sub_of_le _ _ h.1
  have hsum : (c - ch 'A' + ch 'a').toNat = c.toNat - 65 + 97 := by
    rw [UInt8.toNat_add, hsub]
    exact Nat.mod_eq_of_lt (show c.toNat - 65 + 97 < 256 by omega)
  rw [toLowerChar, if_pos h, UInt8.le_iff_toNat_le, UInt8.le_iff_toNat_le, hsum]
  exact ⟨show 97 ≤ c.toNat - 65 + 97 by omega, show c.toNat - 65 + 97 ≤ 122 by omega⟩

/-- What is not a small letter is the lower case of nothing else. -/
theorem eq_of_toLowerChar (h : toLowerChar c = d) (hd : ¬ (ch 'a' ≤ d ∧ d ≤ ch 'z')) : c = d := by
  by_cases hc : ch 'A' ≤ c ∧ c ≤ ch 'Z'
  · exact absurd (h ▸ toLowerChar_of_capital hc) hd
  · rwa [toLowerChar_of_not_capital hc] at h

theorem toLowerChar_not_capital (c : UInt8) : ¬ (ch 'A' ≤ toLowerChar c ∧ toLowerChar c ≤ ch 'Z') := by
  by_cases hc : ch 'A' ≤ c ∧ c ≤ ch 'Z'
  · have hsmall := UInt8.le_iff_toNat_le.mp (toLowerChar_of_capital hc).1
    exact fun h => absurd (hsmall.trans (UInt8.le_iff_toNat_le.mp h.2)) (by decide)
  · rwa [toLowerChar_of_not_capital hc]

theorem toLowerChar_idem (c : UInt8) : toLowerChar (toLowerChar c) = toLowerChar c :=
  toLowerChar_of_not_capital (toLowerChar_not_capital c)

theorem toLower_idem (s : List UInt8) : toLower (toLower s) = toLower s := by
  unfold toLower
  rw [List.map_map]
  exact List.map_congr_left fun c _ => toLowerChar_idem c

end TdUtils.Text
