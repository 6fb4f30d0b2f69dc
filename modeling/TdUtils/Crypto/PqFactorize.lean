import TdUtils.Crypto.Gcd
import TdUtils.Lib.BigEndian
import TdUtils.Lib.Bits
import TdUtils.Lib.LittleEndian
import Mathlib.Data.Nat.ModEq

/-!
# Crypto.PqFactorize — Pollard's rho with random restarts

A round of the method draws `q` and `x` and looks at the gcd of `pq` with differences of the sequence
`x ↦ x * x + q`.  The products are computed by doubling, so that everything stays below `2 * pq`, and
`pq` is at most `2 ^ 63`.  A sum that is not a `uint64` is `none`, and so is a loop without an end; the
result is that neither happens for any draws, and that the answer is a divisor that is not above the root.
-/

namespace TdUtils.Crypto

open Lib

/-- The outcomes of the generators in one round, for `Random::fast(17, 32)` and `Random::fast_uint64()`. -/
structure Draw where
  uint32 : ℕ
  uint64 : ℕ

/-- `Random::fast(17, 32)`. -/
def Draw.fast (d : Draw) : ℕ := 17 + d.uint32 % (32 - 17 + 1)

/-- The sum of two `uint64`, if it is one. -/
def add64 (a b : ℕ) : Option ℕ := if a + b < 2 ^ 64 then some (a + b) else none

/-- `if (c >= pq) c -= pq`. -/
def reduce (pq c : ℕ) : ℕ := if pq ≤ c then c - pq else c

/-- The loop `while (b)` that adds `a * b` to `c`. -/
def mulAdd (pq : ℕ) : ℕ → ℕ → ℕ → ℕ → Option ℕ
  | 0, _, _, _ => none
  | budget + 1, a, b, c =>
    if b = 0 then some c
    else
      match if b &&& 1 ≠ 0 then (add64 c a).map (reduce pq) else some c, (add64 a a).map (reduce pq) with
      | some c, some a => mulAdd pq budget a (b >>> 1) c
      | _, _ => none

/-- `x < y ? pq + x - y : x - y`. -/
def difference (pq x y : ℕ) : Option ℕ :=
  if x < y then (add64 pq x).map fun sum => sum - y else some (x - y)

/-- The `left` last steps of the inner loop from `j` on, with `g` from before: the last `g`, and `iter`. -/
def rhoLoop (pq q : ℕ) : ℕ → ℕ → ℕ → ℕ → ℕ → ℕ → Option (ℕ × ℕ)
  | 0, _, _, _, iter, g => some (g, iter)
  | left + 1, j, x, y, iter, _ =>
    match mulAdd pq 65 x x q with
    | none => none
    | some x =>
      match difference pq x y with
      | none => none
      | some z =>
        match gcd z pq with
        | none => none
        | some g =>
          if g ≠ 1 then some (g, iter + 1)
          else rhoLoop pq q left (j + 1) x (if j &&& (j - 1) = 0 then x else y) (iter + 1) g

/-- The outer loop. -/
def factorizeLoop (draws : ℕ → Draw) (pq : ℕ) : ℕ → ℕ → ℕ → ℕ → Option ℕ
  | 0, _, _, _ => none
  | budget + 1, i, iter, g =>
    if i < 3 ∨ iter < 1000 then
      let q := (draws i).fast % (pq - 1)
      let x := (draws i).uint64 % (pq - 1) + 1
      let lim := 1 <<< (min 5 i + 18)
      match rhoLoop pq q (lim - 1) 1 x x iter g with
      | none => none
      | some (g, iter) => if 1 < g ∧ g < pq then some g else factorizeLoop draws pq budget (i + 1) iter g
    else some g

/-- `pq_factorize(uint64)`. -/
def pqFactorize (draws : ℕ → Draw) (pq : ℕ) : Option ℕ :=
  if pq < 2 ∨ 1 <<< 63 < pq then some 1
  else
    (factorizeLoop draws pq 1001 0 0 0).map fun g =>
      if g ≠ 0 then
        let other := pq / g
        if other < g then other else g
      else g

/-! ### The modular multiplication -/

variable {pq : ℕ}

theorem add64_of_lt {a b : ℕ} (h : a + b < 2 ^ 64) : add64 a b = some (a + b) := if_pos h

theorem reduce_eq {c : ℕ} (h : c < 2 * pq) : reduce pq c = c % pq := by
  unfold reduce
  split_ifs with hle
  · rw [Nat.mod_eq_sub_mod hle, Nat.mod_eq_of_lt (by omega)]
  · rw [Nat.mod_eq_of_lt (by omega)]

/-- The sum of two residues, reduced. -/
theorem add64_reduce {a c : ℕ} (hpq : pq ≤ 2 ^ 63) (hc : c < pq) (ha : a < pq) :
    (add64 c a).map (reduce pq) = some ((c + a) % pq) := by
  rw [add64_of_lt (by omega), Option.map_some, reduce_eq (by omega)]

/-- No sum of the loop overflows, and it computes the residue of `c + a * b`. -/
theorem mulAdd_eq (hpq : pq ≤ 2 ^ 63) : ∀ {budget a b c : ℕ}, a < pq → c < pq → b < 2 ^ budget →
    mulAdd pq (budget + 1) a b c = some ((c + a * b) % pq)
  | budget, a, b, c, ha, hc, hb => by
    unfold mulAdd
    by_cases hzero : b = 0
    · rw [if_pos hzero, hzero, Nat.mul_zero, Nat.add_zero, Nat.mod_eq_of_lt hc]
    · have hpos : 0 < pq := Nat.zero_lt_of_lt ha
      have hstep : (if b &&& 1 ≠ 0 then (add64 c a).map (reduce pq) else some c) =
          some ((c + a * (b % 2)) % pq) := by
        rw [Nat.and_one_is_mod]
        split_ifs with hodd
        · rw [show b % 2 = 1 by omega, Nat.mul_one]
          exact add64_reduce hpq hc ha
        · rw [show b % 2 = 0 by omega, Nat.mul_zero, Nat.add_zero, Nat.mod_eq_of_lt hc]
      rw [if_neg hzero, hstep, add64_reduce hpq ha ha, Nat.shiftRight_one]
      cases budget with
      | zero =>
        rw [Nat.pow_zero] at hb
        omega
      | succ budget =>
        rw [Nat.pow_succ] at hb
        dsimp only
        rw [mulAdd_eq hpq (Nat.mod_lt _ hpos) (Nat.mod_lt _ hpos) (by omega : b / 2 < 2 ^ budget)]
        have hb2 : b = b % 2 + 2 * (b / 2) := (Nat.mod_add_div b 2).symm
        have hsum : c + a * b = c + a * (b % 2) + (a + a) * (b / 2) := by
          conv_lhs => rw [hb2]
          rw [Nat.mul_add, ← Nat.mul_assoc, ← Nat.add_assoc, Nat.mul_two]
        rw [hsum]
        have hmod : (c + a * (b % 2)) % pq + (a + a) % pq * (b / 2) ≡
            c + a * (b % 2) + (a + a) * (b / 2) [MOD pq] :=
          (Nat.mod_modEq _ _).add ((Nat.mod_modEq _ _).mul_right _)
        rw [hmod]

theorem difference_spec {x y : ℕ} (hpq : pq ≤ 2 ^ 63) (hx : x < pq) (hy : y < pq) :
    ∃ z, difference pq x y = some z ∧ z < pq := by
  unfold difference
  split_ifs with hlt
  · rw [add64_of_lt (by omega), Option.map_some]
    exact ⟨pq + x - y, rfl, by omega⟩
  · exact ⟨x - y, rfl, by omega⟩

/-! ### The loops -/

/-- The inner loop ends after at least one step, with a divisor of `pq`. -/
theorem rhoLoop_spec {q : ℕ} (hpq : pq ≤ 2 ^ 63) (hq : q < pq) : ∀ {left x y : ℕ} (j iter g : ℕ),
    x < pq → y < pq → (left = 0 → g ∣ pq) →
    ∃ g' iter', rhoLoop pq q left j x y iter g = some (g', iter') ∧ g' ∣ pq ∧
      (0 < left → iter < iter') ∧ iter ≤ iter'
  | 0, x, y, j, iter, g, _, _, hg => ⟨g, iter, rfl, hg rfl, fun h => absurd h (lt_irrefl 0), le_rfl⟩
  | left + 1, x, y, j, iter, g, hx, hy, _ => by
    have hpos : 0 < pq := Nat.zero_lt_of_lt hx
    have hmul : mulAdd pq 65 x x q = some ((q + x * x) % pq) := mulAdd_eq hpq hx hq (by omega)
    set x' := (q + x * x) % pq with hx'
    have hlt : x' < pq := Nat.mod_lt _ hpos
    obtain ⟨z, hz, hzlt⟩ := difference_spec hpq hlt hy
    have hgcd : gcd z pq = some (Nat.gcd z pq) := gcd_eq (by omega) (by omega)
    have hdvd : Nat.gcd z pq ∣ pq := Nat.gcd_dvd_right z pq
    unfold rhoLoop
    rw [hmul]
    dsimp only
    rw [hz]
    dsimp only
    rw [hgcd]
    dsimp only
    by_cases hone : Nat.gcd z pq ≠ 1
    · rw [if_pos hone]
      exact ⟨_, _, rfl, hdvd, fun _ => Nat.lt_succ_self iter, Nat.le_succ iter⟩
    · rw [if_neg hone]
      have hy' : (if j &&& (j - 1) = 0 then x' else y) < pq := by
        split_ifs
        · exact hlt
        · exact hy
      obtain ⟨g', iter', hrun, hg', -, hle⟩ := rhoLoop_spec hpq hq (j + 1) (iter + 1) _ hlt hy' fun _ => hdvd
      exact ⟨g', iter', hrun, hg', fun _ => hle, Nat.le_of_succ_le hle⟩

/-- Every round makes at least one step, so there are at most a thousand of them. -/
theorem factorizeLoop_spec (draws : ℕ → Draw) (hpq2 : 2 ≤ pq) (hpq : pq ≤ 2 ^ 63) :
    ∀ {budget i iter : ℕ} (g : ℕ), i ≤ iter → i ≤ 1000 → 1001 ≤ budget + i → (3 ≤ i → g ∣ pq) →
    ∃ g', factorizeLoop draws pq budget i iter g = some g' ∧ g' ∣ pq
  | 0, i, iter, g, _, hle, hbudget, _ => by omega
  | budget + 1, i, iter, g, hiter, _, hbudget, hg => by
    unfold factorizeLoop
    by_cases hmore : i < 3 ∨ iter < 1000
    · rw [if_pos hmore]
      dsimp only
      have hpos : 0 < pq - 1 := by omega
      have hq : (draws i).fast % (pq - 1) < pq :=
        Nat.lt_of_lt_of_le (Nat.mod_lt _ hpos) (Nat.sub_le pq 1)
      have hx : (draws i).uint64 % (pq - 1) + 1 < pq := by
        have hlt := Nat.mod_lt (draws i).uint64 hpos
        omega
      have hlim : 0 < 1 <<< (min 5 i + 18) - 1 := by
        have hpow := Nat.pow_lt_pow_right (by omega : 1 < 2) (by omega : 0 < min 5 i + 18)
        rw [Nat.shiftLeft_eq, Nat.one_mul]
        omega
      obtain ⟨g', iter', hrun, hdvd, hlt, -⟩ := rhoLoop_spec hpq hq 1 iter g hx hx
        fun hzero : 1 <<< (min 5 i + 18) - 1 = 0 => absurd hzero hlim.ne'
      have hlt' := hlt hlim
      rw [hrun]
      dsimp only
      split_ifs
      · exact ⟨g', rfl, hdvd⟩
      · exact factorizeLoop_spec draws hpq2 hpq g' (by omega) (by omega) (by omega) fun _ => hdvd
    · rw [if_neg hmore]
      exact ⟨g, rfl, hg (by omega)⟩

/-- The answer for a number in range is a divisor that is not above the root. -/
theorem pqFactorize_spec (draws : ℕ → Draw) (hpq2 : 2 ≤ pq) (hpq : pq ≤ 2 ^ 63) :
    ∃ g, pqFactorize draws pq = some g ∧ g ∣ pq ∧ g * g ≤ pq := by
  obtain ⟨g, hrun, hdvd⟩ := factorizeLoop_spec draws hpq2 hpq 0 (le_refl 0) (Nat.zero_le 1000)
    (le_refl 1001) fun h => absurd h (by omega)
  have hpos : 0 < g := Nat.pos_of_dvd_of_pos hdvd (by omega)
  have hmul : g * (pq / g) = pq := Nat.mul_div_cancel' hdvd
  have hrange : ¬ (pq < 2 ∨ 1 <<< 63 < pq) := by
    rw [Nat.shiftLeft_eq, Nat.one_mul]
    omega
  unfold pqFactorize
  rw [if_neg hrange, hrun, Option.map_some, if_pos hpos.ne']
  dsimp only
  split_ifs with hother
  · refine ⟨pq / g, rfl, Nat.div_dvd_of_dvd hdvd, ?_⟩
    calc pq / g * (pq / g) ≤ g * (pq / g) := Nat.mul_le_mul_right _ hother.le
      _ = pq := hmul
  · refine ⟨g, rfl, hdvd, ?_⟩
    calc g * g ≤ g * (pq / g) := Nat.mul_le_mul_left g (not_lt.mp hother)
      _ = pq := hmul

/-! ### Strings -/

/-- The value of `i` after the loop of `as_big_endian_string`. -/
def significant (res : List UInt8) : ℕ → ℕ
  | 0 => 0
  | i + 1 => if res[i]? = some 0 then significant res i else i + 1

/-- `as_big_endian_string`, on a machine that stores the lowest byte first. -/
def asBigEndianString (x : ℕ) : List UInt8 :=
  let res := LittleEndian.toLE 8 x
  (res.take (significant res 8)).reverse

/-- The loop that reads the first `n` bytes. -/
def readBytes (bytes : List UInt8) : ℕ :=
  bytes.foldl (fun pq b => (pq <<< 8 % 2 ^ 64) ||| b.toNat) 0

/-- `pq_factorize(Slice)`; the answer is `p_str` and `q_str`, or `none` for -1.  `big` is
`pq_factorize_big`. -/
def pqFactorizeSlice (big : List UInt8 → Option (Option (List UInt8 × List UInt8))) (draws : ℕ → Draw)
    (pqStr : List UInt8) : Option (Option (List UInt8 × List UInt8)) :=
  let size := (UInt32.ofNat pqStr.length).toInt32.toInt
  if 8 < size ∨ (size = 8 ∧ (pqStr.headD 0).toNat &&& 128 ≠ 0) then big pqStr
  else
    let pq := readBytes (pqStr.take size.toNat)
    (pqFactorize draws pq).map fun p =>
      if p = 0 ∨ pq % p ≠ 0 then none
      else some (asBigEndianString p, asBigEndianString (pq / p))

theorem readBytes_eq : ∀ {bytes : List UInt8}, bytes.length ≤ 8 → readBytes bytes = BigEndian.ofBE bytes := by
  intro bytes
  induction bytes using List.reverseRecOn with
  | nil => exact fun _ => rfl
  | append_singleton bytes b ih =>
    intro hlen
    rw [List.length_append, List.length_singleton] at hlen
    have hlt := BigEndian.ofBE_lt bytes
    have hpow : 256 ^ bytes.length ≤ 256 ^ 7 := Nat.pow_le_pow_right (by omega) (by omega)
    have hread : readBytes (bytes ++ [b]) = (readBytes bytes <<< 8 % 2 ^ 64) ||| b.toNat := by
      unfold readBytes
      rw [List.foldl_append]
      rfl
    rw [hread, ih (by omega), BigEndian.ofBE_concat]
    have hshift : BigEndian.ofBE bytes <<< 8 % 2 ^ 64 = BigEndian.ofBE bytes <<< 8 := by
      rw [Nat.shiftLeft_eq]
      exact Nat.mod_eq_of_lt (by omega)
    rw [hshift, ← Nat.shiftLeft_add_eq_or_of_lt b.toNat_lt, Nat.shiftLeft_eq, Nat.mul_comm]

theorem significant_le (res : List UInt8) : ∀ i, significant res i ≤ i
  | 0 => le_rfl
  | i + 1 => by
    unfold significant
    split_ifs
    · exact (significant_le res i).trans (Nat.le_succ i)
    · exact le_rfl

/-- The bytes that are dropped are zero. -/
theorem ofLE_take_significant (res : List UInt8) : ∀ {i : ℕ}, i ≤ res.length →
    LittleEndian.ofLE (res.take (significant res i)) = LittleEndian.ofLE (res.take i)
  | 0, _ => rfl
  | i + 1, hi => by
    unfold significant
    split_ifs with hzero
    · rw [ofLE_take_significant res (Nat.le_of_succ_le hi), List.take_add_one, hzero, LittleEndian.ofLE_append,
        Option.toList_some, show LittleEndian.ofLE [0] = 0 from rfl, Nat.mul_zero, Nat.add_zero]
    · rfl

/-- The last byte that is kept is not zero. -/
theorem getLast?_take_significant (res : List UInt8) : ∀ {i : ℕ}, i ≤ res.length →
    (res.take (significant res i)).getLast? ≠ some 0
  | 0, _ => by
    rw [significant, List.take_zero]
    exact (Option.some_ne_none 0).symm
  | i + 1, hi => by
    unfold significant
    split_ifs with hzero
    · exact getLast?_take_significant res (Nat.le_of_succ_le hi)
    · rw [List.getLast?_take, if_neg (Nat.succ_ne_zero i), Nat.add_sub_cancel, List.getElem?_eq_getElem hi,
        Option.some_or, ← List.getElem?_eq_getElem hi]
      exact hzero

theorem ofBE_reverse : ∀ bytes : List UInt8, BigEndian.ofBE bytes.reverse = LittleEndian.ofLE bytes
  | [] => rfl
  | b :: bytes => by
    rw [List.reverse_cons, BigEndian.ofBE_concat, ofBE_reverse bytes, LittleEndian.ofLE, Nat.add_comm]

/-- Big-endian, without leading zeros. -/
theorem asBigEndianString_spec {x : ℕ} (h : x < 2 ^ 64) :
    BigEndian.ofBE (asBigEndianString x) = x ∧ (asBigEndianString x).head? ≠ some 0 := by
  have hlen : (LittleEndian.toLE 8 x).length = 8 := LittleEndian.length_toLE 8 x
  unfold asBigEndianString
  dsimp only
  constructor
  · rw [ofBE_reverse, ofLE_take_significant _ hlen.ge, List.take_of_length_le hlen.le]
    exact LittleEndian.ofLE_toLE_of_lt h
  · rw [List.head?_reverse]
    exact getLast?_take_significant _ hlen.ge

theorem toInt_of_le : ∀ {n : ℕ}, n ≤ 8 → (UInt32.ofNat n).toInt32.toInt = n := by
  decide

/-- The highest bit of eight bytes is not set below `2 ^ 63`. -/
theorem head_and_eq_zero {bytes : List UInt8} (hlen : bytes.length = 8)
    (hlt : BigEndian.ofBE bytes < 2 ^ 63) : (bytes.headD 0).toNat &&& 128 = 0 := by
  obtain ⟨b, tail, rfl⟩ := List.exists_cons_of_length_eq_add_one hlen
  rw [List.length_cons] at hlen
  rw [BigEndian.ofBE_cons, show tail.length = 7 by omega] at hlt
  have hmask : b.toNat &&& 128 = b.toNat / 2 ^ 7 % 2 ^ 1 * 2 ^ 7 := Bits.and_mask b.toNat 7 1
  rw [List.headD_cons, hmask]
  omega

/-- A number below `2 ^ 63` in at most eight bytes is split into two factors. -/
theorem pqFactorizeSlice_spec (big : List UInt8 → Option (Option (List UInt8 × List UInt8)))
    (draws : ℕ → Draw) {bytes : List UInt8} (hlen : bytes.length ≤ 8) (hlt : BigEndian.ofBE bytes < 2 ^ 63)
    (hne : BigEndian.ofBE bytes ≠ 0) :
    ∃ p q, pqFactorizeSlice big draws bytes = some (some (p, q)) ∧
      BigEndian.ofBE p * BigEndian.ofBE q = BigEndian.ofBE bytes ∧ BigEndian.ofBE p ≤ BigEndian.ofBE q ∧
      p.head? ≠ some 0 ∧ q.head? ≠ some 0 := by
  have hsize := toInt_of_le hlen
  have hsmall : ¬ (8 < (bytes.length : ℤ) ∨ ((bytes.length : ℤ) = 8 ∧ (bytes.headD 0).toNat &&& 128 ≠ 0)) := by
    rintro (hbig | ⟨height, hbit⟩)
    · omega
    · exact hbit (head_and_eq_zero (by omega) hlt)
  set pq := BigEndian.ofBE bytes with hpq
  obtain ⟨p, hrun, hdvd, hroot⟩ : ∃ p, pqFactorize draws pq = some p ∧ p ∣ pq ∧ p * p ≤ pq := by
    by_cases hone : pq = 1
    · refine ⟨1, ?_, Nat.one_dvd pq, by omega⟩
      unfold pqFactorize
      rw [if_pos (Or.inl (by omega))]
    · exact pqFactorize_spec draws (by omega) (by omega)
  have hpos : 0 < p := Nat.pos_of_dvd_of_pos hdvd (Nat.pos_of_ne_zero hne)
  have hle : p ≤ pq := Nat.le_of_dvd (Nat.pos_of_ne_zero hne) hdvd
  have hdiv : pq / p ≤ pq := Nat.div_le_self pq p
  obtain ⟨hvalueP, hheadP⟩ := asBigEndianString_spec (x := p) (by omega)
  obtain ⟨hvalueQ, hheadQ⟩ := asBigEndianString_spec (x := pq / p) (by omega)
  refine ⟨asBigEndianString p, asBigEndianString (pq / p), ?_, ?_, ?_, hheadP, hheadQ⟩
  · unfold pqFactorizeSlice
    dsimp only
    rw [hsize, if_neg hsmall, Int.toNat_natCast, List.take_length, readBytes_eq hlen, ← hpq, hrun, Option.map_some,
      if_neg (not_or.mpr ⟨hpos.ne', not_not.mpr (Nat.mod_eq_zero_of_dvd hdvd)⟩)]
  · rw [hvalueP, hvalueQ]
    exact Nat.mul_div_cancel' hdvd
  · rw [hvalueP, hvalueQ]
    exact (Nat.le_div_iff_mul_le hpos).mpr hroot

/-- For all draws the function ends and no sum overflows; in range the answer divides `pq` and is not above
the root; and the strings are the two factors. -/
theorem pqFactorize_sound (draws : ℕ → Draw) :
    (∀ pq, ∃ g, pqFactorize draws pq = some g ∧ (2 ≤ pq → pq ≤ 2 ^ 63 → g ∣ pq ∧ g * g ≤ pq)) ∧
    ∀ (big : List UInt8 → Option (Option (List UInt8 × List UInt8))) (bytes : List UInt8), bytes.length ≤ 8 →
      BigEndian.ofBE bytes < 2 ^ 63 → BigEndian.ofBE bytes ≠ 0 →
      ∃ p q, pqFactorizeSlice big draws bytes = some (some (p, q)) ∧
        BigEndian.ofBE p * BigEndian.ofBE q = BigEndian.ofBE bytes ∧ BigEndian.ofBE p ≤ BigEndian.ofBE q ∧
        p.head? ≠ some 0 ∧ q.head? ≠ some 0 := by
  refine ⟨fun pq => ?_, fun big bytes hlen hlt hne => pqFactorizeSlice_spec big draws hlen hlt hne⟩
  by_cases hrange : 2 ≤ pq ∧ pq ≤ 2 ^ 63
  · obtain ⟨g, hrun, hg⟩ := pqFactorize_spec draws hrange.1 hrange.2
    exact ⟨g, hrun, fun _ _ => hg⟩
  · have hout : pq < 2 ∨ 1 <<< 63 < pq := by
      rw [Nat.shiftLeft_eq, Nat.one_mul]
      omega
    refine ⟨1, ?_, fun h2 h63 => absurd ⟨h2, h63⟩ hrange⟩
    unfold pqFactorize
    rw [if_pos hout]

/-- A product of two primes in eight bytes. -/
theorem pqFactorize_sound_eight : ∃ p q,
    pqFactorizeSlice (fun _ => none) (fun i => ⟨i, i⟩) [0x17, 0xED, 0x48, 0x94, 0x1A, 0x08, 0xF9, 0x81] =
      some (some (p, q)) ∧
    BigEndian.ofBE p * BigEndian.ofBE q = BigEndian.ofBE [0x17, 0xED, 0x48, 0x94, 0x1A, 0x08, 0xF9, 0x81] ∧
    BigEndian.ofBE p ≤ BigEndian.ofBE q ∧ p.head? ≠ some 0 ∧ q.head? ≠ some 0 :=
  (pqFactorize_sound fun i => ⟨i, i⟩).2 _ _ (by decide) (by decide) (by decide)

end TdUtils.Crypto
