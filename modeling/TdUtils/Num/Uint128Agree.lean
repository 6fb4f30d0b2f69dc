import TdUtils.Num.Uint128Divide

/-!
# Num.Uint128Agree — the two words compute what the compiler's type computes

`Agrees` lists the operations; `emulated_exact` is the agreement on all operands.
-/

namespace TdUtils.Uint128Emulated

/-! ### Truncating division from absolute values -/

theorem tdiv_eq_natAbs (a b : ℤ) :
    a.tdiv b = if decide (a < 0) != decide (b < 0) then -((a.natAbs / b.natAbs : ℕ) : ℤ)
      else ((a.natAbs / b.natAbs : ℕ) : ℤ) := by
  have habs : ((a.natAbs : ℕ) : ℤ).tdiv b.natAbs = ((a.natAbs / b.natAbs : ℕ) : ℤ) := by
    rw [Int.ofNat_tdiv]
  by_cases ha : a < 0
  · have haeq : -((a.natAbs : ℕ) : ℤ) = a := by omega
    by_cases hb : b < 0
    · have hbeq : -((b.natAbs : ℕ) : ℤ) = b := by omega
      rw [decide_eq_true ha, decide_eq_true hb, bne_self_eq_false, if_neg Bool.false_ne_true, ← habs,
        ← Int.neg_tdiv_neg (a.natAbs : ℤ), haeq, hbeq]
    · have hbeq : ((b.natAbs : ℕ) : ℤ) = b := by omega
      rw [decide_eq_true ha, decide_eq_false hb, Bool.bne_false, if_pos rfl, ← habs, ← Int.neg_tdiv, haeq, hbeq]
  · have haeq : ((a.natAbs : ℕ) : ℤ) = a := by omega
    by_cases hb : b < 0
    · have hbeq : -((b.natAbs : ℕ) : ℤ) = b := by omega
      rw [decide_eq_false ha, decide_eq_true hb, Bool.false_bne, if_pos rfl, ← habs, ← Int.tdiv_neg, haeq, hbeq]
    · have hbeq : ((b.natAbs : ℕ) : ℤ) = b := by omega
      rw [decide_eq_false ha, decide_eq_false hb, bne_self_eq_false, if_neg Bool.false_ne_true,
        ← habs, haeq, hbeq]

theorem tmod_eq_natAbs (a b : ℤ) :
    a.tmod b = if a < 0 then -((a.natAbs % b.natAbs : ℕ) : ℤ)
      else ((a.natAbs % b.natAbs : ℕ) : ℤ) := by
  have habs : ((a.natAbs : ℕ) : ℤ).tmod b = ((a.natAbs % b.natAbs : ℕ) : ℤ) := by
    by_cases hb : b < 0
    · have hbeq : -((b.natAbs : ℕ) : ℤ) = b := by omega
      rw [Int.ofNat_tmod, ← Int.tmod_neg _ (b.natAbs : ℤ), hbeq]
    · have hbeq : ((b.natAbs : ℕ) : ℤ) = b := by omega
      rw [Int.ofNat_tmod, hbeq]
  split_ifs with ha
  · have haeq : -((a.natAbs : ℕ) : ℤ) = a := by omega
    rw [← habs, ← Int.neg_tmod, haeq]
  · have haeq : ((a.natAbs : ℕ) : ℤ) = a := by omega
    rw [← habs, haeq]

/-- The low word, with its sign put back. -/
theorem ofInt_low (q : Uint128Emulated) (c : Bool) :
    (if c then -q.lo else q.lo) = BitVec.ofInt 64 (if c then -(q.toNat : ℤ) else (q.toNat : ℤ)) := by
  have hlow : q.lo = BitVec.ofNat 64 q.toNat := by
    apply BitVec.eq_of_toNat_eq
    have hlo := q.lo.isLt
    rw [BitVec.toNat_ofNat, toNat]
    omega
  cases c with
  | false =>
    rw [if_neg Bool.false_ne_true, if_neg Bool.false_ne_true, BitVec.ofInt_natCast]
    exact hlow
  | true =>
    rw [if_pos rfl, if_pos rfl, BitVec.ofInt_neg, BitVec.ofInt_natCast, ← hlow]

theorem value_fromSigned (y : BitVec 64) : (fromSigned y).toIntrinsic.value.toInt = y.toInt := by
  rw [toIntrinsic_fromSigned]
  exact BitVec.toInt_signExtend_of_le (by decide)

theorem divmodSigned_spec (x : Uint128Emulated) {y : BitVec 64} (h : y ≠ 0) :
    x.divmodSigned y = some (BitVec.ofInt 64 (x.toIntrinsic.value.toInt.tdiv y.toInt),
      BitVec.ofInt 64 (x.toIntrinsic.value.toInt.tmod y.toInt)) := by
  have hxsgn : x.isNegative = decide (x.toIntrinsic.value.toInt < 0) := by
    rw [Bool.eq_iff_iff, isNegative_iff, decide_eq_true_iff]
  have hxabs := toNat_abs x
  have huy := toNat_abs (fromSigned y)
  rw [value_fromSigned] at huy
  have hne : y.toInt ≠ 0 := fun hy => h (BitVec.eq_of_toInt_eq (hy.trans BitVec.toInt_zero.symm))
  have hdiv : (if (fromSigned y).isNegative then (fromSigned y).negate else fromSigned y).toNat ≠ 0 := by
    omega
  obtain ⟨q, r, hqr, hq, hr⟩ :=
    divmod_spec (if x.isNegative then x.negate else x) hdiv
  rw [hxabs, huy] at hq hr
  unfold divmodSigned
  rw [if_neg h]
  dsimp only
  rw [hqr, Option.map_some]
  dsimp only
  rw [ofInt_low, ofInt_low, hq, hr, hxsgn, tdiv_eq_natAbs, tmod_eq_natAbs]
  simp only [decide_eq_true_iff]

/-! ### The agreement -/

theorem roundedHi_spec (x : Uint128Emulated) : x.roundedHi = x.toIntrinsic.roundedHi := by
  have hhi := x.hi.isLt
  have hlo := x.lo.isLt
  have hhalf : (1#128 <<< 63).toNat = 2 ^ 63 := rfl
  apply BitVec.eq_of_toNat_eq
  unfold roundedHi Uint128Intrinsic.roundedHi
  rw [BitVec.toNat_add, BitVec.toNat_ushiftRight, BitVec.toNat_setWidth, BitVec.toNat_ushiftRight,
    BitVec.toNat_add, toNat_value, hhalf, toNat, Nat.shiftRight_eq_div_pow, Nat.shiftRight_eq_div_pow]
  omega

theorem toIntrinsic_shl (x : Uint128Emulated) (cnt : ℕ) :
    (x.shl cnt).toIntrinsic = x.toIntrinsic.shl cnt := by
  have hvalue := value_shl x cnt
  unfold Uint128Intrinsic.shl
  split_ifs with h
  · rw [BitVec.shiftLeft_eq_zero h] at hvalue
    exact congrArg Uint128Intrinsic.mk hvalue
  · rw [← hvalue]

theorem toIntrinsic_shr (x : Uint128Emulated) (cnt : ℕ) :
    (x.shr cnt).toIntrinsic = x.toIntrinsic.shr cnt := by
  have hvalue := value_shr x cnt
  unfold Uint128Intrinsic.shr
  split_ifs with h
  · rw [BitVec.ushiftRight_eq_zero h] at hvalue
    exact congrArg Uint128Intrinsic.mk hvalue
  · rw [← hvalue]

theorem toIntrinsic_mult (x y : Uint128Emulated) :
    (x.mult y).toIntrinsic = x.toIntrinsic.mult y.toIntrinsic := by
  apply toIntrinsic_eq
  rw [toNat_mult, BitVec.toNat_mul, toNat_value, toNat_value]

theorem toIntrinsic_divmod (x y : Uint128Emulated) :
    (x.divmod y).map (Prod.map toIntrinsic toIntrinsic) = x.toIntrinsic.divmod y.toIntrinsic := by
  have hzero : y.toIntrinsic.isZero = true ↔ y.toNat = 0 := by
    unfold Uint128Intrinsic.isZero
    rw [beq_iff_eq, ← BitVec.toNat_inj, toNat_value]
    rfl
  unfold Uint128Intrinsic.divmod
  split_ifs with h
  · have hz : y.isZero = true := (isZero_iff y).mpr (hzero.mp h)
    unfold divmod
    rw [if_pos hz]
    rfl
  · obtain ⟨q, r, hqr, hq, hr⟩ := divmod_spec x (mt hzero.mpr h)
    have hqv : q.toIntrinsic = ⟨x.toIntrinsic.value / y.toIntrinsic.value⟩ := by
      apply toIntrinsic_eq
      rw [BitVec.toNat_udiv, toNat_value, toNat_value, hq]
    have hrv : r.toIntrinsic = ⟨x.toIntrinsic.value % y.toIntrinsic.value⟩ := by
      apply toIntrinsic_eq
      rw [BitVec.toNat_umod, toNat_value, toNat_value, hr]
    rw [hqr, ← hqv, ← hrv]
    rfl

/-- Every operation gives what the compiler's type gives; the number it stands for is a residue. -/
structure Agrees (x : Uint128Emulated) : Prop where
  value : x.toIntrinsic.value.toNat = x.hi.toNat * 2 ^ 64 + x.lo.toNat
  roundedHi : x.roundedHi = x.toIntrinsic.roundedHi
  shl : ∀ cnt, (x.shl cnt).toIntrinsic = x.toIntrinsic.shl cnt ∧
    (x.shl cnt).toNat = x.toNat * 2 ^ cnt % 2 ^ 128
  shr : ∀ cnt, (x.shr cnt).toIntrinsic = x.toIntrinsic.shr cnt ∧ (x.shr cnt).toNat = x.toNat / 2 ^ cnt
  add : ∀ y, (x.add y).toIntrinsic = x.toIntrinsic.add y.toIntrinsic ∧
    (x.add y).toNat = (x.toNat + y.toNat) % 2 ^ 128
  sub : ∀ y, (x.sub y).toIntrinsic = x.toIntrinsic.sub y.toIntrinsic ∧
    ((x.sub y).toNat : ℤ) = ((x.toNat : ℤ) - y.toNat) % 2 ^ 128
  mult : ∀ y, (x.mult y).toIntrinsic = x.toIntrinsic.mult y.toIntrinsic ∧
    (x.mult y).toNat = x.toNat * y.toNat % 2 ^ 128
  multWord : ∀ w, (x.multWord w).toIntrinsic = x.toIntrinsic.multWord w ∧
    (x.multWord w).toNat = x.toNat * w.toNat % 2 ^ 128
  multSigned : ∀ w, (x.multSigned w).toIntrinsic = x.toIntrinsic.multSigned w ∧
    ((x.multSigned w).toNat : ℤ) = (x.toNat : ℤ) * w.toInt % 2 ^ 128
  divmod : ∀ y, (x.divmod y).map (Prod.map toIntrinsic toIntrinsic) =
      x.toIntrinsic.divmod y.toIntrinsic ∧
    (y.toNat ≠ 0 → (x.divmod y).map (Prod.map toNat toNat) =
      some (x.toNat / y.toNat, x.toNat % y.toNat))
  divmodSigned : ∀ w : BitVec 64, ¬(x.toIntrinsic.value.toInt = -2 ^ 127 ∧ w.toInt = -1) →
    x.divmodSigned w = x.toIntrinsic.divmodSigned w ∧
    (w ≠ 0 → x.divmodSigned w = some (BitVec.ofInt 64 (x.toIntrinsic.value.toInt.tdiv w.toInt),
      BitVec.ofInt 64 (x.toIntrinsic.value.toInt.tmod w.toInt)))

theorem emulated_exact (x : Uint128Emulated) : Agrees x where
  value := toNat_value x
  roundedHi := roundedHi_spec x
  shl cnt := ⟨toIntrinsic_shl x cnt, toNat_shl x cnt⟩
  shr cnt := by
    refine ⟨toIntrinsic_shr x cnt, ?_⟩
    rw [← toNat_value, value_shr, BitVec.toNat_ushiftRight, toNat_value, Nat.shiftRight_eq_div_pow]
  add y := by
    refine ⟨?_, toNat_add x y⟩
    apply toIntrinsic_eq
    rw [toNat_add, BitVec.toNat_add, toNat_value, toNat_value]
  sub y := by
    have hx := x.toNat_lt
    have hy := y.toNat_lt
    refine ⟨?_, ?_⟩
    · apply toIntrinsic_eq
      rw [toNat_sub, BitVec.toNat_sub, toNat_value, toNat_value]
    · rw [toNat_sub]
      omega
  mult y := ⟨toIntrinsic_mult x y, toNat_mult x y⟩
  multWord w := by
    have hword : (⟨0, w⟩ : Uint128Emulated).toNat = w.toNat := by
      unfold toNat
      rw [toNat_zero, Nat.zero_mul, Nat.zero_add]
    have hlt := w.isLt
    refine ⟨?_, ?_⟩
    · apply toIntrinsic_eq
      rw [multWord, toNat_mult, hword, BitVec.toNat_mul, toNat_value, BitVec.toNat_setWidth,
        Nat.mod_eq_of_lt (Nat.lt_trans hlt (by decide))]
    · rw [multWord, toNat_mult, hword]
  multSigned w := by
    refine ⟨?_, ?_⟩
    · rw [multSigned, toIntrinsic_mult, toIntrinsic_fromSigned]
      rfl
    · have hint := value_fromSigned w
      rw [BitVec.toInt_eq_toNat_bmod, toNat_value] at hint
      have hcast : (2 : ℤ) ^ 128 = ((2 ^ 128 : ℕ) : ℤ) := rfl
      rw [multSigned, toNat_mult, ← hint, hcast, Int.mul_emod _ (Int.bmod _ _), Int.bmod_emod,
        ← Int.mul_emod, ← Int.natCast_mul, ← Int.natCast_emod]
  divmod y := by
    refine ⟨toIntrinsic_divmod x y, fun h => ?_⟩
    obtain ⟨q, r, hqr, hq, hr⟩ := divmod_spec x h
    rw [hqr, ← hq, ← hr]
    rfl
  divmodSigned w h := by
    have hspec := divmodSigned_spec x (y := w)
    refine ⟨?_, hspec⟩
    unfold Uint128Intrinsic.divmodSigned
    split_ifs with hw
    · unfold divmodSigned
      rw [if_pos hw]
    · exact hspec hw

end TdUtils.Uint128Emulated
