import Mathlib.Data.Nat.ModEq
import Mathlib.Tactic.Ring
import TdUtils.Lib.Bits
import TdUtils.Num.Uint128

/-!
# Num.Uint128Exact — the words compute modulo 2 ^ 128

`toNat` is the number in the two words.  Each operation on words is held to arithmetic on these numbers;
the shifts are compared bit by bit.
-/

namespace TdUtils.Uint128Emulated

open Lib

variable {x y : Uint128Emulated}

def toNat (x : Uint128Emulated) : ℕ := x.hi.toNat * 2 ^ 64 + x.lo.toNat

/-- The same words in the compiler's type. -/
def toIntrinsic (x : Uint128Emulated) : Uint128Intrinsic := .ofWords x.hi x.lo

theorem toNat_lt (x : Uint128Emulated) : x.toNat < 2 ^ 128 := by
  have hhi := x.hi.isLt
  have hlo := x.lo.isLt
  unfold toNat
  omega

theorem toNat_value (x : Uint128Emulated) : x.toIntrinsic.value.toNat = x.toNat := by
  have hhi := x.hi.isLt
  have hlo := x.lo.isLt
  unfold toIntrinsic Uint128Intrinsic.ofWords toNat
  rw [BitVec.toNat_or, BitVec.toNat_shiftLeft, BitVec.toNat_setWidth, BitVec.toNat_setWidth,
    Nat.mod_eq_of_lt (a := x.hi.toNat) (by omega), Nat.mod_eq_of_lt (a := x.lo.toNat) (by omega),
    Nat.mod_eq_of_lt (by rw [Nat.shiftLeft_eq]; omega), Bits.shiftLeft_or hlo]

/-- Two numbers are equal as words if they are equal. -/
theorem toIntrinsic_eq {v : BitVec 128} (h : x.toNat = v.toNat) : x.toIntrinsic = ⟨v⟩ := by
  have hv : x.toIntrinsic.value = v := BitVec.eq_of_toNat_eq (x.toNat_value.trans h)
  rw [← hv]

@[simp] theorem toNat_one : (1 : BitVec 64).toNat = 1 := rfl

@[simp] theorem toNat_zero : (0 : BitVec 64).toNat = 0 := rfl

/-! ### Addition and subtraction -/

theorem toNat_add (x y : Uint128Emulated) : (x.add y).toNat = (x.toNat + y.toNat) % 2 ^ 128 := by
  have hxh := x.hi.isLt
  have hxl := x.lo.isLt
  have hyh := y.hi.isLt
  have hyl := y.lo.isLt
  unfold add toNat
  dsimp only
  split_ifs with hcarry
  · rw [BitVec.lt_def, BitVec.toNat_add] at hcarry
    simp only [BitVec.toNat_add, toNat_one]
    omega
  · rw [BitVec.lt_def, BitVec.toNat_add] at hcarry
    simp only [BitVec.toNat_add]
    omega

theorem toNat_sub (x y : Uint128Emulated) :
    (x.sub y).toNat = (2 ^ 128 - y.toNat + x.toNat) % 2 ^ 128 := by
  have hxh := x.hi.isLt
  have hxl := x.lo.isLt
  have hyh := y.hi.isLt
  have hyl := y.lo.isLt
  unfold sub toNat
  dsimp only
  split_ifs with hcarry
  · rw [BitVec.lt_def] at hcarry
    simp only [BitVec.toNat_sub, toNat_one]
    omega
  · rw [BitVec.lt_def] at hcarry
    simp only [BitVec.toNat_sub, toNat_zero]
    omega

theorem toNat_negate (x : Uint128Emulated) : x.negate.toNat = (2 ^ 128 - x.toNat) % 2 ^ 128 := by
  have hxh := x.hi.isLt
  have hxl := x.lo.isLt
  unfold negate toNat
  dsimp only
  split_ifs with hzero
  · have hlo := congrArg BitVec.toNat hzero
    simp only [BitVec.toNat_add, BitVec.toNat_not, toNat_one, toNat_zero] at hlo ⊢
    omega
  · have hlo : (~~~x.lo + 1).toNat ≠ 0 := fun h => hzero (BitVec.eq_of_toNat_eq h)
    simp only [BitVec.toNat_add, BitVec.toNat_not, toNat_one] at hlo ⊢
    omega

/-! ### Shifts -/

/-- The bits of the two words. -/
theorem getLsbD_value (x : Uint128Emulated) (i : ℕ) :
    x.toIntrinsic.value.getLsbD i = if i < 64 then x.lo.getLsbD i else x.hi.getLsbD (i - 64) := by
  unfold toIntrinsic Uint128Intrinsic.ofWords
  rw [BitVec.getLsbD_or, BitVec.getLsbD_shiftLeft, BitVec.getLsbD_setWidth, BitVec.getLsbD_setWidth]
  split_ifs with h
  · simp [h, show i < 128 by omega]
  · have hlo : x.lo.getLsbD i = false := BitVec.getLsbD_of_ge _ _ (by omega)
    by_cases hi : i < 128
    · simp [h, hi, hlo, show i - 64 < 128 by omega]
    · have hhi : x.hi.getLsbD (i - 64) = false := BitVec.getLsbD_of_ge _ _ (by omega)
      simp [hlo, hhi]

theorem value_shl (x : Uint128Emulated) (cnt : ℕ) :
    (x.shl cnt).toIntrinsic.value = x.toIntrinsic.value <<< cnt := by
  apply BitVec.eq_of_getLsbD_eq
  intro i hi
  rw [BitVec.getLsbD_shiftLeft, getLsbD_value, getLsbD_value, decide_eq_true hi, Bool.true_and]
  unfold shl
  by_cases h0 : cnt = 0
  · simp [h0]
  rw [if_neg h0]
  by_cases h64 : cnt < 64
  · rw [if_pos h64]
    dsimp only
    rw [BitVec.getLsbD_or, BitVec.getLsbD_shiftLeft, BitVec.getLsbD_shiftLeft, BitVec.getLsbD_ushiftRight]
    by_cases hlow : i < 64
    · simp [hlow, show i - cnt < 64 by omega]
    · by_cases hmid : i - cnt < 64
      · simp [hlow, hmid, show i - 64 < cnt by omega, show ¬i < cnt by omega,
          show 64 - cnt + (i - 64) = i - cnt by omega]
      · have hlo : x.lo.getLsbD (64 - cnt + (i - 64)) = false := BitVec.getLsbD_of_ge _ _ (by omega)
        simp [hlow, hmid, hlo, show i - 64 < 64 by omega, show ¬i - 64 < cnt by omega,
          show ¬i < cnt by omega, show i - 64 - cnt = i - cnt - 64 by omega]
  rw [if_neg h64]
  by_cases h128 : cnt < 128
  · rw [if_pos h128]
    dsimp only
    rw [BitVec.getLsbD_shiftLeft]
    by_cases hlow : i < 64
    · simp [hlow, show i < cnt by omega]
    · simp [hlow, show i - 64 < 64 by omega, show i - cnt < 64 by omega,
        show i - 64 - (cnt - 64) = i - cnt by omega, show i - 64 < cnt - 64 ↔ i < cnt by omega]
  · rw [if_neg h128]
    simp [zero, show i < cnt by omega]

theorem value_shr (x : Uint128Emulated) (cnt : ℕ) :
    (x.shr cnt).toIntrinsic.value = x.toIntrinsic.value >>> cnt := by
  apply BitVec.eq_of_getLsbD_eq
  intro i hi
  rw [BitVec.getLsbD_ushiftRight, getLsbD_value, getLsbD_value]
  unfold shr
  by_cases h0 : cnt = 0
  · simp [h0]
  rw [if_neg h0]
  by_cases h64 : cnt < 64
  · rw [if_pos h64]
    dsimp only
    rw [BitVec.getLsbD_or, BitVec.getLsbD_shiftLeft, BitVec.getLsbD_ushiftRight, BitVec.getLsbD_ushiftRight]
    by_cases hlow : i < 64
    · by_cases hmid : cnt + i < 64
      · simp [hlow, hmid, show i < 64 - cnt by omega]
      · have hlo : x.lo.getLsbD (cnt + i) = false := BitVec.getLsbD_of_ge _ _ (by omega)
        simp [hlow, hmid, hlo, show ¬i < 64 - cnt by omega,
          show i - (64 - cnt) = cnt + i - 64 by omega]
    · simp [hlow, show ¬cnt + i < 64 by omega, show cnt + (i - 64) = cnt + i - 64 by omega]
  rw [if_neg h64]
  by_cases h128 : cnt < 128
  · rw [if_pos h128]
    dsimp only
    rw [BitVec.getLsbD_ushiftRight]
    by_cases hlow : i < 64
    · simp [hlow, show ¬cnt + i < 64 by omega, show cnt - 64 + i = cnt + i - 64 by omega]
    · have hhi : x.hi.getLsbD (cnt + i - 64) = false := BitVec.getLsbD_of_ge _ _ (by omega)
      simp [hlow, hhi, show ¬cnt + i < 64 by omega]
  · have hhi : x.hi.getLsbD (cnt + i - 64) = false := BitVec.getLsbD_of_ge _ _ (by omega)
    rw [if_neg h128]
    simp [zero, hhi, show ¬cnt + i < 64 by omega]

theorem toNat_shl (x : Uint128Emulated) (cnt : ℕ) :
    (x.shl cnt).toNat = x.toNat * 2 ^ cnt % 2 ^ 128 := by
  rw [← toNat_value, value_shl, BitVec.toNat_shiftLeft, toNat_value, Nat.shiftLeft_eq]

/-! ### Multiplication -/

theorem toNat_and_low (x : BitVec 64) : (x &&& 0xffffffff).toNat = x.toNat % 2 ^ 32 := by
  rw [BitVec.toNat_and]
  exact Bits.and_low x.toNat 32

theorem toNat_high (x : BitVec 64) : (x >>> 32).toNat = x.toNat / 2 ^ 32 := by
  rw [BitVec.toNat_ushiftRight, Nat.shiftRight_eq_div_pow]

theorem toNat_mul_of_lt {x y : BitVec 64} (hx : x.toNat < 2 ^ 32) (hy : y.toNat < 2 ^ 32) :
    (x * y).toNat = x.toNat * y.toNat := by
  have hlt : x.toNat * y.toNat < 2 ^ 32 * 2 ^ 32 := Nat.mul_lt_mul'' hx hy
  rw [BitVec.toNat_mul, Nat.mod_eq_of_lt (by omega)]

/-- The product of two numbers of two words, from the halves of the low words. -/
theorem limbs_mult (h₁ l₁ h₂ l₂ w : ℕ)
    (hw : w ≡ l₁ * h₂ + h₁ * l₂ + l₁ / 2 ^ 32 * (l₂ / 2 ^ 32) [MOD 2 ^ 64]) :
    ((w * 2 ^ 64 + l₁ % 2 ^ 32 * (l₂ % 2 ^ 32) + l₁ % 2 ^ 32 * (l₂ / 2 ^ 32) * 2 ^ 32 % 2 ^ 128) %
        2 ^ 128 + l₁ / 2 ^ 32 * (l₂ % 2 ^ 32) * 2 ^ 32 % 2 ^ 128) % 2 ^ 128 =
      (h₁ * 2 ^ 64 + l₁) * (h₂ * 2 ^ 64 + l₂) % 2 ^ 128 := by
  have hl₁ : l₁ = l₁ / 2 ^ 32 * 2 ^ 32 + l₁ % 2 ^ 32 := (Nat.div_add_mod' l₁ (2 ^ 32)).symm
  have hl₂ : l₂ = l₂ / 2 ^ 32 * 2 ^ 32 + l₂ % 2 ^ 32 := (Nat.div_add_mod' l₂ (2 ^ 32)).symm
  generalize l₁ / 2 ^ 32 = a at *
  generalize l₁ % 2 ^ 32 = b at *
  generalize l₂ / 2 ^ 32 = c at *
  generalize l₂ % 2 ^ 32 = d at *
  have hprod : l₁ * l₂ = a * c * 2 ^ 64 + (b * c + a * d) * 2 ^ 32 + b * d := by
    rw [hl₁, hl₂]
    ring
  have hall : (h₁ * 2 ^ 64 + l₁) * (h₂ * 2 ^ 64 + l₂) =
      h₁ * h₂ * 2 ^ 128 + ((l₁ * h₂ + h₁ * l₂ + a * c) * 2 ^ 64 + b * d + b * c * 2 ^ 32 +
        a * d * 2 ^ 32) := by
    calc (h₁ * 2 ^ 64 + l₁) * (h₂ * 2 ^ 64 + l₂)
        = h₁ * h₂ * 2 ^ 128 + (l₁ * h₂ + h₁ * l₂) * 2 ^ 64 + l₁ * l₂ := by ring
      _ = _ := by rw [hprod]; ring
  have hword : w * 2 ^ 64 ≡ (l₁ * h₂ + h₁ * l₂ + a * c) * 2 ^ 64 [MOD 2 ^ 128] :=
    hw.mul_right' (2 ^ 64)
  have hfirst : (w * 2 ^ 64 + b * d + b * c * 2 ^ 32 % 2 ^ 128) % 2 ^ 128 ≡
      w * 2 ^ 64 + b * d + b * c * 2 ^ 32 [MOD 2 ^ 128] :=
    (Nat.mod_modEq _ _).trans ((Nat.mod_modEq _ _).add_left _)
  have hwords : w * 2 ^ 64 + b * d + b * c * 2 ^ 32 + a * d * 2 ^ 32 ≡
      (l₁ * h₂ + h₁ * l₂ + a * c) * 2 ^ 64 + b * d + b * c * 2 ^ 32 + a * d * 2 ^ 32 [MOD 2 ^ 128] :=
    ((hword.add_right _).add_right _).add_right _
  rw [hall, Nat.mul_add_mod']
  exact (hfirst.add (Nat.mod_modEq _ _)).trans hwords

theorem toNat_mult (x y : Uint128Emulated) : (x.mult y).toNat = x.toNat * y.toNat % 2 ^ 128 := by
  have hshl : ∀ p : BitVec 64, (shl ⟨0, p⟩ 32).toNat = p.toNat * 2 ^ 32 % 2 ^ 128 := by
    intro p
    rw [toNat_shl]
    simp [toNat]
  have hal := toNat_and_low x.lo
  have hah := toNat_high x.lo
  have hbl := toNat_and_low y.lo
  have hbh := toNat_high y.lo
  have hxl := x.lo.isLt
  have hyl := y.lo.isLt
  have hmul : ∀ a b : BitVec 64, a.toNat < 2 ^ 32 → b.toNat < 2 ^ 32 →
      (a * b).toNat = a.toNat * b.toNat := fun a b => toNat_mul_of_lt
  unfold mult
  dsimp only
  rw [toNat_add, toNat_add, hshl, hshl, hmul _ _ (by omega) (by omega), hmul _ _ (by omega) (by omega),
    toNat, hmul _ _ (by omega) (by omega), hal, hah, hbl, hbh]
  refine limbs_mult x.hi.toNat x.lo.toNat y.hi.toNat y.lo.toNat _ ?_
  rw [BitVec.toNat_add, BitVec.toNat_add, BitVec.toNat_mul, BitVec.toNat_mul, BitVec.toNat_mul, hah, hbh]
  unfold Nat.ModEq
  simp only [Nat.mod_mod, Nat.add_mod_mod, Nat.mod_add_mod]

end TdUtils.Uint128Emulated
