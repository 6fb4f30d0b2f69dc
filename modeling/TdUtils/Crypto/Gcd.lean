import Mathlib.Data.Nat.GCD.Basic
import Mathlib.Data.Nat.Prime.Basic
import Mathlib.Algebra.Order.Ring.Nat

/-!
# Crypto.Gcd — the binary gcd of `pq_factorize`

Common factors of two are taken out first.  Then the larger of two odd numbers is replaced by the
difference, and the factors of two are dropped, until both are equal.  The loops have budgets; `none` is
a loop that has not ended within its budget.
-/

namespace TdUtils.Crypto

/-- `while ((a & 1) == 0) a >>= 1`. -/
def dropTwos : ℕ → ℕ → Option ℕ
  | 0, _ => none
  | budget + 1, a => if a &&& 1 = 0 then dropTwos budget (a >>> 1) else some a

/-- The loop that takes out the common factors of two. -/
def commonTwos : ℕ → ℕ → ℕ → ℕ → Option (ℕ × ℕ × ℕ)
  | 0, _, _, _ => none
  | budget + 1, a, b, shift =>
    if a &&& 1 = 0 ∧ b &&& 1 = 0 then commonTwos budget (a >>> 1) (b >>> 1) (shift + 1)
    else some (a, b, shift)

/-- The loop `while (true)`; the result is not shifted back. -/
def gcdLoop : ℕ → ℕ → ℕ → Option ℕ
  | 0, _, _ => none
  | budget + 1, a, b =>
    match dropTwos 65 a, dropTwos 65 b with
    | some a, some b =>
      if b < a then gcdLoop budget (a - b) b
      else if a < b then gcdLoop budget a (b - a)
      else some a
    | _, _ => none

def gcd (a b : ℕ) : Option ℕ :=
  if a = 0 then some b
  else if b = 0 then some a
  else
    match commonTwos 65 a b 0 with
    | none => none
    | some (a, b, shift) => (gcdLoop (a + b) a b).map fun g => g <<< shift % 2 ^ 64

/-! ### Factors of two -/

theorem dropTwos_spec : ∀ {budget a : ℕ}, 0 < a → a < 2 ^ budget →
    ∃ a' k, dropTwos budget a = some a' ∧ a = 2 ^ k * a' ∧ a' % 2 = 1
  | 0, a, hpos, hlt => by
    rw [Nat.pow_zero] at hlt
    omega
  | budget + 1, a, hpos, hlt => by
    unfold dropTwos
    rw [Nat.and_one_is_mod, Nat.shiftRight_one]
    split_ifs with heven
    · rw [Nat.pow_succ] at hlt
      obtain ⟨a', k, hrun, heq, hodd⟩ := dropTwos_spec (a := a / 2) (by omega) (by omega : a / 2 < 2 ^ budget)
      refine ⟨a', k + 1, hrun, ?_, hodd⟩
      rw [Nat.pow_succ', Nat.mul_assoc, ← heq]
      omega
    · exact ⟨a, 0, rfl, by rw [Nat.pow_zero, Nat.one_mul], by omega⟩

theorem commonTwos_spec : ∀ {budget a b : ℕ} (shift : ℕ), 0 < a → 0 < b → a < 2 ^ budget →
    ∃ a' b' k, commonTwos budget a b shift = some (a', b', shift + k) ∧ a = a' * 2 ^ k ∧ b = b' * 2 ^ k ∧
      (a' % 2 = 1 ∨ b' % 2 = 1)
  | 0, a, b, shift, ha, hb, hlt => by
    rw [Nat.pow_zero] at hlt
    omega
  | budget + 1, a, b, shift, ha, hb, hlt => by
    unfold commonTwos
    rw [Nat.and_one_is_mod, Nat.and_one_is_mod, Nat.shiftRight_one, Nat.shiftRight_one]
    split_ifs with heven
    · rw [Nat.pow_succ] at hlt
      obtain ⟨a', b', k, hrun, ha', hb', hodd⟩ := commonTwos_spec (a := a / 2) (b := b / 2) (shift + 1)
        (by omega) (by omega) (by omega : a / 2 < 2 ^ budget)
      refine ⟨a', b', k + 1, ?_, ?_, ?_, hodd⟩
      · rw [hrun, Nat.add_assoc, Nat.add_comm 1 k]
      · rw [Nat.pow_succ, ← Nat.mul_assoc, ← ha']
        omega
      · rw [Nat.pow_succ, ← Nat.mul_assoc, ← hb']
        omega
    · refine ⟨a, b, 0, rfl, ?_, ?_, by omega⟩
      · rw [Nat.pow_zero, Nat.mul_one]
      · rw [Nat.pow_zero, Nat.mul_one]

theorem coprime_two_pow {b : ℕ} (h : b % 2 = 1) (k : ℕ) : Nat.Coprime (2 ^ k) b :=
  Nat.Coprime.pow_left k (Nat.coprime_two_left.mpr (Nat.odd_iff.mpr h))

/-- Factors of two of one number do not matter when the other one is odd. -/
theorem gcd_two_pow_mul {a b : ℕ} (h : b % 2 = 1) (k : ℕ) : Nat.gcd (2 ^ k * a) b = Nat.gcd a b :=
  Nat.Coprime.gcd_mul_left_cancel a (coprime_two_pow h k)

/-- Dropping the factors of two of both numbers, one of which has none. -/
theorem gcd_dropTwos {a b a' b' k l : ℕ} (ha : a = 2 ^ k * a') (hb : b = 2 ^ l * b') (ha' : a' % 2 = 1)
    (hb' : b' % 2 = 1) (hodd : a % 2 = 1 ∨ b % 2 = 1) : Nat.gcd a b = Nat.gcd a' b' := by
  rcases hodd with hodd | hodd
  · rw [hb, Nat.gcd_comm, gcd_two_pow_mul hodd, Nat.gcd_comm, ha, gcd_two_pow_mul hb']
  · rw [ha, gcd_two_pow_mul hodd, hb, Nat.gcd_comm, gcd_two_pow_mul ha', Nat.gcd_comm]

theorem le_of_two_pow_mul {a a' k : ℕ} (h : a = 2 ^ k * a') : a' ≤ a :=
  h ▸ Nat.le_mul_of_pos_left a' (Nat.two_pow_pos k)

theorem gcdLoop_spec : ∀ {budget a b : ℕ}, 0 < a → 0 < b → a < 2 ^ 64 → b < 2 ^ 64 → a + b ≤ budget →
    (a % 2 = 1 ∨ b % 2 = 1) → gcdLoop budget a b = some (Nat.gcd a b)
  | 0, a, b, ha, hb, _, _, hle, _ => by omega
  | budget + 1, a, b, ha, hb, ha64, hb64, hle, hodd => by
    obtain ⟨a', k, hruna, heqa, hodda⟩ := dropTwos_spec ha (Nat.lt_trans ha64 (by decide : 2 ^ 64 < 2 ^ 65))
    obtain ⟨b', l, hrunb, heqb, hoddb⟩ := dropTwos_spec hb (Nat.lt_trans hb64 (by decide : 2 ^ 64 < 2 ^ 65))
    have hlea := le_of_two_pow_mul heqa
    have hleb := le_of_two_pow_mul heqb
    rw [gcd_dropTwos heqa heqb hodda hoddb hodd]
    unfold gcdLoop
    rw [hruna, hrunb]
    dsimp only
    rcases Nat.lt_trichotomy a' b' with hlt | heq | hgt
    · rw [if_neg (by omega), if_pos hlt, gcdLoop_spec (by omega) (by omega) (by omega) (by omega) (by omega)
        (Or.inl hodda), Nat.gcd_sub_self_right hlt.le]
    · rw [if_neg (by omega), if_neg (by omega), heq, Nat.gcd_self]
    · rw [if_pos hgt, gcdLoop_spec (by omega) (by omega) (by omega) (by omega) (by omega) (Or.inr hoddb),
        Nat.gcd_sub_self_left hgt.le]

/-- The loops end, and the common power of two that was taken out is put back by the shift. -/
theorem gcd_loops {a b : ℕ} (ha : 0 < a) (hb : 0 < b) (ha64 : a < 2 ^ 64) (hb64 : b < 2 ^ 64) :
    ∃ a' b' shift g, commonTwos 65 a b 0 = some (a', b', shift) ∧ gcdLoop (a' + b') a' b' = some g ∧
      g <<< shift = Nat.gcd a b := by
  obtain ⟨a', b', k, hrun, heqa, heqb, hodd⟩ := commonTwos_spec 0 ha hb (Nat.lt_trans ha64 (by decide : 2 ^ 64 < 2 ^ 65))
  rw [Nat.zero_add] at hrun
  have hposa : 0 < a' := Nat.pos_of_ne_zero fun hzero => by
    rw [heqa, hzero, Nat.zero_mul] at ha
    exact Nat.lt_irrefl 0 ha
  have hposb : 0 < b' := Nat.pos_of_ne_zero fun hzero => by
    rw [heqb, hzero, Nat.zero_mul] at hb
    exact Nat.lt_irrefl 0 hb
  have hpow := Nat.two_pow_pos k
  have hlea : a' ≤ a := heqa ▸ Nat.le_mul_of_pos_right a' hpow
  have hleb : b' ≤ b := heqb ▸ Nat.le_mul_of_pos_right b' hpow
  refine ⟨a', b', k, Nat.gcd a' b', hrun, gcdLoop_spec hposa hposb (by omega) (by omega) le_rfl hodd, ?_⟩
  rw [Nat.shiftLeft_eq, heqa, heqb, Nat.gcd_mul_right]

theorem gcd_lt {a b : ℕ} (ha : 0 < a) (ha64 : a < 2 ^ 64) : Nat.gcd a b < 2 ^ 64 :=
  Nat.lt_of_le_of_lt (Nat.gcd_le_left b ha) ha64

/-- `gcd` ends and computes the greatest common divisor. -/
theorem gcd_eq {a b : ℕ} (ha : a < 2 ^ 64) (hb : b < 2 ^ 64) : gcd a b = some (Nat.gcd a b) := by
  unfold gcd
  split_ifs with hzeroa hzerob
  · rw [hzeroa, Nat.gcd_zero_left]
  · rw [hzerob, Nat.gcd_zero_right]
  · have hposa := Nat.pos_of_ne_zero hzeroa
    obtain ⟨a', b', shift, g, hcommon, hrun, hshift⟩ := gcd_loops hposa (Nat.pos_of_ne_zero hzerob) ha hb
    rw [hcommon]
    dsimp only
    rw [hrun, Option.map_some, hshift, Nat.mod_eq_of_lt (gcd_lt hposa ha)]

/-- **The binary gcd.**  For any two 64-bit numbers the loops end and the result is the greatest common divisor.  If
neither is zero, the shift is by less than the width and nothing is shifted out. -/
theorem gcd_uint64 (a b : UInt64) : gcd a.toNat b.toNat = some (Nat.gcd a.toNat b.toNat) ∧
    gcd 0 b.toNat = some b.toNat ∧
    (a ≠ 0 → b ≠ 0 → ∃ a' b' shift g, commonTwos 65 a.toNat b.toNat 0 = some (a', b', shift) ∧
      gcdLoop (a' + b') a' b' = some g ∧ shift < 64 ∧ g <<< shift < 2 ^ 64 ∧
        gcd a.toNat b.toNat = some (g <<< shift)) := by
  have ha := a.toNat_lt
  have hb := b.toNat_lt
  refine ⟨gcd_eq ha hb, rfl, fun hzeroa hzerob => ?_⟩
  have hposa : 0 < a.toNat := Nat.pos_of_ne_zero fun hzero => hzeroa (UInt64.toNat_inj.mp hzero)
  have hposb : 0 < b.toNat := Nat.pos_of_ne_zero fun hzero => hzerob (UInt64.toNat_inj.mp hzero)
  obtain ⟨a', b', shift, g, hcommon, hrun, hshift⟩ := gcd_loops hposa hposb ha hb
  have hlt := gcd_lt (b := b.toNat) hposa ha
  have hpos := Nat.gcd_pos_of_pos_left b.toNat hposa
  refine ⟨a', b', shift, g, hcommon, hrun, ?_, hshift ▸ hlt, (gcd_eq ha hb).trans (congrArg some hshift.symm)⟩
  rw [← hshift, Nat.shiftLeft_eq] at hlt hpos
  exact (Nat.pow_lt_pow_iff_right (by omega)).mp
    (Nat.lt_of_le_of_lt (Nat.le_mul_of_pos_left _ (Nat.pos_of_mul_pos_right hpos)) hlt)

end TdUtils.Crypto
