import TdUtils.Num.Uint128Exact

/-!
# Num.Uint128Divide — long division is division

`DivInv` is the invariant of long division: what has been taken off so far, plus what is left, is the
dividend.
-/

namespace TdUtils.Uint128Emulated

variable {x other : Uint128Emulated}

/-! ### Comparisons and bits -/

theorem greaterOrEqual_iff (x y : Uint128Emulated) : x.greaterOrEqual y = true ↔ y.toNat ≤ x.toNat := by
  have hxl := x.lo.isLt
  have hyl := y.lo.isLt
  unfold greaterOrEqual toNat
  rw [Bool.or_eq_true, Bool.and_eq_true, decide_eq_true_iff, decide_eq_true_iff, beq_iff_eq,
    BitVec.lt_def, BitVec.le_def, ← BitVec.toNat_inj]
  omega

theorem isZero_iff (x : Uint128Emulated) : x.isZero = true ↔ x.toNat = 0 := by
  unfold isZero toNat
  rw [Bool.and_eq_true, beq_iff_eq, beq_iff_eq, ← BitVec.toNat_inj, ← BitVec.toNat_inj, toNat_zero]
  omega

theorem toNat_setLowerBit (h : x.toNat % 2 = 0) : x.setLowerBit.toNat = x.toNat + 1 := by
  have hlo : x.lo.toNat % 2 = 0 := by
    unfold toNat at h
    omega
  have hor : (x.lo ||| 1).toNat = x.lo.toNat + 1 := by
    have hhalf : x.lo.toNat = (x.lo.toNat / 2) <<< 1 := by
      rw [Nat.shiftLeft_eq]
      omega
    rw [BitVec.toNat_or, toNat_one, hhalf, Lib.Bits.shiftLeft_or (by decide), Nat.shiftLeft_eq]
  unfold setLowerBit toNat
  rw [hor, Nat.add_assoc]

theorem countLeadingZeroes64_spec {w : BitVec 64} (h : w ≠ 0) :
    countLeadingZeroes64 w ≤ 63 ∧ w.toNat < 2 ^ (64 - countLeadingZeroes64 w) ∧
      2 ^ (63 - countLeadingZeroes64 w) ≤ w.toNat := by
  have hne : w.toNat ≠ 0 := fun hw => h (BitVec.eq_of_toNat_eq hw)
  have hlog : w.toNat.log2 < 64 := (Nat.log2_lt hne).mpr w.isLt
  unfold countLeadingZeroes64
  rw [if_neg h]
  refine ⟨by omega, ?_, ?_⟩
  · have hpow : 64 - (63 - w.toNat.log2) = w.toNat.log2 + 1 := by omega
    rw [hpow]
    exact Nat.lt_log2_self
  · have hpow : 63 - (63 - w.toNat.log2) = w.toNat.log2 := by omega
    rw [hpow]
    exact Nat.log2_self_le hne

/-- The position of the highest bit. -/
theorem countLeadingZeroes_spec (x : Uint128Emulated) :
    x.countLeadingZeroes ≤ 128 ∧ x.toNat < 2 ^ (128 - x.countLeadingZeroes) ∧
      (x.toNat ≠ 0 → x.countLeadingZeroes ≤ 127 ∧ 2 ^ (127 - x.countLeadingZeroes) ≤ x.toNat) := by
  have hlo := x.lo.isLt
  unfold countLeadingZeroes toNat
  by_cases hhi : x.hi = 0
  · rw [if_pos hhi, hhi, toNat_zero, Nat.zero_mul, Nat.zero_add]
    by_cases hzero : x.lo = 0
    · have hclz : countLeadingZeroes64 x.lo = 64 := if_pos hzero
      rw [hclz, hzero]
      exact ⟨Nat.le_refl _, by decide, fun h => absurd toNat_zero h⟩
    · obtain ⟨hle, hlt, hge⟩ := countLeadingZeroes64_spec hzero
      have h1 : 128 - (64 + countLeadingZeroes64 x.lo) = 64 - countLeadingZeroes64 x.lo := by omega
      have h2 : 127 - (64 + countLeadingZeroes64 x.lo) = 63 - countLeadingZeroes64 x.lo := by omega
      rw [h1, h2]
      exact ⟨by omega, hlt, fun _ => ⟨by omega, hge⟩⟩
  · rw [if_neg hhi]
    obtain ⟨hle, hlt, hge⟩ := countLeadingZeroes64_spec hhi
    have h1 : 128 - countLeadingZeroes64 x.hi = (64 - countLeadingZeroes64 x.hi) + 64 := by omega
    have h2 : 127 - countLeadingZeroes64 x.hi = (63 - countLeadingZeroes64 x.hi) + 64 := by omega
    rw [h1, h2, Nat.pow_add, Nat.pow_add]
    refine ⟨by omega, by omega, fun _ => ⟨by omega, by omega⟩⟩

/-! ### `divmod` -/

/-- With `n` rounds left, the dividend is what `res` stands for and `from`, which is less than the
divisor shifted by `n`. -/
def DivInv (other : Uint128Emulated) (dividend n : ℕ) (s : Uint128Emulated × Uint128Emulated) : Prop :=
  s.2.toNat * (2 ^ n * other.toNat) + s.1.toNat = dividend ∧ s.1.toNat < 2 ^ n * other.toNat

theorem divInv_step {dividend n : ℕ} {s : Uint128Emulated × Uint128Emulated}
    (hother : 1 ≤ other.toNat) (hfits : 2 ^ n * other.toNat < 2 ^ 128) (hlt : dividend < 2 ^ 128)
    (h : DivInv other dividend (n + 1) s) : DivInv other dividend n (divStep other n s) := by
  obtain ⟨heq, hrest⟩ := h
  have hsub : (other.shl n).toNat = 2 ^ n * other.toNat := by
    rw [toNat_shl, Nat.mul_comm, Nat.mod_eq_of_lt hfits]
  have hdouble : 2 ^ (n + 1) * other.toNat = 2 * (2 ^ n * other.toNat) := by
    rw [Nat.pow_succ, Nat.mul_right_comm, Nat.mul_comm]
  rw [hdouble] at heq hrest
  have hpos : 1 ≤ 2 ^ n * other.toNat := Nat.mul_pos (Nat.two_pow_pos n) hother
  unfold divStep DivInv
  generalize 2 ^ n * other.toNat = d at *
  have hres : (s.2.shl 1).toNat = s.2.toNat * 2 := by
    have hle : s.2.toNat * 2 * 1 ≤ s.2.toNat * 2 * d := Nat.mul_le_mul_left _ hpos
    have hassoc : s.2.toNat * 2 * d = s.2.toNat * (2 * d) := Nat.mul_assoc _ _ _
    rw [toNat_shl, Nat.pow_one, Nat.mod_eq_of_lt (by omega)]
  have hassoc : s.2.toNat * 2 * d = s.2.toNat * (2 * d) := Nat.mul_assoc _ _ _
  dsimp only
  split_ifs with hge
  · rw [greaterOrEqual_iff, hsub] at hge
    have hfrom := s.1.toNat_lt
    have hlow : (s.2.shl 1).toNat % 2 = 0 := by omega
    dsimp only
    rw [toNat_setLowerBit hlow, hres, toNat_sub, hsub, Nat.succ_mul]
    omega
  · rw [greaterOrEqual_iff, hsub] at hge
    dsimp only
    rw [hres]
    omega

theorem divInv_loop {dividend : ℕ} (hother : 1 ≤ other.toNat) (hlt : dividend < 2 ^ 128) (n : ℕ)
    (s : Uint128Emulated × Uint128Emulated) (hfits : ∀ i < n, 2 ^ i * other.toNat < 2 ^ 128)
    (h : DivInv other dividend n s) : DivInv other dividend 0 (divLoop other n s) := by
  induction n generalizing s with
  | zero => exact h
  | succ n ih =>
    exact ih _ (fun i hi => hfits i (by omega)) (divInv_step hother (hfits n (by omega)) hlt h)

theorem divmod_spec (x : Uint128Emulated) (h : other.toNat ≠ 0) :
    ∃ q r, x.divmod other = some (q, r) ∧ q.toNat = x.toNat / other.toNat ∧
      r.toNat = x.toNat % other.toNat := by
  have hzero : ¬other.isZero = true := fun hz => h ((isZero_iff other).mp hz)
  obtain ⟨hle, hlt, -⟩ := countLeadingZeroes_spec x
  obtain ⟨-, holt, hone⟩ := countLeadingZeroes_spec other
  obtain ⟨hole, hoge⟩ := hone h
  unfold divmod
  rw [if_neg hzero]
  dsimp only
  by_cases hctz : other.countLeadingZeroes < x.countLeadingZeroes
  · have hpow : 2 ^ (128 - x.countLeadingZeroes) ≤ 2 ^ (127 - other.countLeadingZeroes) :=
      Nat.pow_le_pow_right (by decide) (by omega)
    have hsmall : x.toNat < other.toNat := by omega
    refine ⟨zero, x, if_pos hctz, ?_, (Nat.mod_eq_of_lt hsmall).symm⟩
    rw [Nat.div_eq_of_lt hsmall]
    rfl
  · rw [if_neg hctz]
    have hfits : ∀ i < other.countLeadingZeroes - x.countLeadingZeroes + 1,
        2 ^ i * other.toNat < 2 ^ 128 := by
      intro i hi
      have hmul : 2 ^ i * other.toNat < 2 ^ i * 2 ^ (128 - other.countLeadingZeroes) :=
        Nat.mul_lt_mul_of_pos_left holt (Nat.two_pow_pos i)
      rw [← Nat.pow_add] at hmul
      exact Nat.lt_of_lt_of_le hmul (Nat.pow_le_pow_right (by decide) (by omega))
    have hstart : DivInv other x.toNat (other.countLeadingZeroes - x.countLeadingZeroes + 1)
        (x, zero) := by
      refine ⟨?_, ?_⟩
      · have hz : zero.toNat = 0 := rfl
        dsimp only
        rw [hz, Nat.zero_mul, Nat.zero_add]
      · have hmul : 2 ^ (other.countLeadingZeroes - x.countLeadingZeroes + 1) *
            2 ^ (127 - other.countLeadingZeroes) ≤
            2 ^ (other.countLeadingZeroes - x.countLeadingZeroes + 1) * other.toNat :=
          Nat.mul_le_mul_left _ hoge
        have hexp : other.countLeadingZeroes - x.countLeadingZeroes + 1 +
            (127 - other.countLeadingZeroes) = 128 - x.countLeadingZeroes := by omega
        rw [← Nat.pow_add, hexp] at hmul
        exact Nat.lt_of_lt_of_le hlt hmul
    obtain ⟨heq, hrest⟩ := divInv_loop (by omega) x.toNat_lt _ _ hfits hstart
    rw [Nat.pow_zero, Nat.one_mul] at heq hrest
    generalize divLoop other _ (x, zero) = s at heq hrest ⊢
    refine ⟨s.2, s.1, rfl, ?_, ?_⟩
    · rw [← heq, Nat.add_comm, Nat.add_mul_div_right _ _ (by omega), Nat.div_eq_of_lt hrest,
        Nat.zero_add]
    · rw [← heq, Nat.add_comm, Nat.add_mul_mod_self_right, Nat.mod_eq_of_lt hrest]

/-! ### Signs -/

theorem isNegative_iff (x : Uint128Emulated) :
    x.isNegative = true ↔ x.toIntrinsic.value.toInt < 0 := by
  have hhi := x.hi.isLt
  have hlo := x.lo.isLt
  unfold isNegative
  rw [beq_iff_eq, ← BitVec.toNat_inj, BitVec.toNat_ushiftRight, toNat_one, BitVec.toInt_eq_toNat_cond,
    toNat_value, toNat, Nat.shiftRight_eq_div_pow]
  split_ifs <;> omega

/-- The absolute value, also of the least number. -/
theorem toNat_abs (x : Uint128Emulated) :
    (if x.isNegative then x.negate else x).toNat = x.toIntrinsic.value.toInt.natAbs := by
  have hlt := x.toNat_lt
  have hneg := isNegative_iff x
  rw [BitVec.toInt_eq_toNat_cond, toNat_value] at hneg ⊢
  by_cases h : x.isNegative = true
  · have hint := hneg.mp h
    rw [if_pos h, toNat_negate]
    split_ifs at hint ⊢ <;> omega
  · have hint := mt hneg.mpr h
    rw [if_neg h]
    split_ifs at hint ⊢ <;> omega

theorem toIntrinsic_fromSigned (y : BitVec 64) :
    (fromSigned y).toIntrinsic = Uint128Intrinsic.fromSigned y := by
  have hy := y.isLt
  have hones : (-1 : BitVec 64).toNat = 2 ^ 64 - 1 := rfl
  have hmsb := BitVec.toInt_eq_msb_cond y
  have hpos : (2 : ℕ) ^ 128 - 2 ^ 64 = (2 ^ 64 - 1) * 2 ^ 64 := by decide
  apply toIntrinsic_eq
  rw [BitVec.toNat_signExtend, BitVec.toNat_setWidth, Nat.mod_eq_of_lt (by omega), hpos]
  unfold fromSigned toNat
  cases hsign : y.msb with
  | false =>
    have hint : 0 ≤ y.toInt := by
      rw [hmsb, hsign, if_neg Bool.false_ne_true]
      omega
    rw [if_pos hint, if_neg Bool.false_ne_true]
    dsimp only
    rw [toNat_zero, Nat.zero_mul, Nat.zero_add, Nat.add_zero]
  | true =>
    have hint : ¬0 ≤ y.toInt := by
      rw [hmsb, hsign, if_pos rfl]
      omega
    rw [if_neg hint, if_pos rfl]
    dsimp only
    rw [hones, Nat.add_comm]

end TdUtils.Uint128Emulated
