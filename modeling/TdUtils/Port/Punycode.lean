import Mathlib.Algebra.Group.Int.Defs
import Mathlib.Algebra.Group.Nat.Defs
import TdUtils.Lib.Punycode
import TdUtils.Text.Misc
import TdUtils.Text.Utf8

/-!
# Port.Punycode — `punycode` of `IPAddress.cpp` is the encoding of the standard

The source keeps the bias negated and adds 36 for each digit, keeps `delta` from pass to pass in the same
variable, and takes the threshold by `clamp`.  All arithmetic of `uint32` and `int` is checked here, and every
loop has a number of rounds after which it would have to be given up: `none` is an overflow, a division by zero
or a loop that does not end.  For labels below the bound on hosts there is none of them.
-/

namespace TdUtils.IpAddress

open Lib Bytes Utf8 Text

/-- The result of an operation on `uint32`; none is an overflow. -/
def uint32 (n : ℕ) : Option ℕ := if n < 2 ^ 32 then some n else none

/-- The result of an operation on `int`; none is an overflow. -/
def int32 (z : ℤ) : Option ℤ := if -2 ^ 31 ≤ z ∧ z < 2 ^ 31 then some z else none

/-- `static_cast<char>`. -/
def char (z : ℤ) : UInt8 := UInt8.ofNat (z % 2 ^ 8).toNat

def clamp (value minValue maxValue : ℤ) : ℤ :=
  if value < minValue then minValue
  else if maxValue < value then maxValue
  else value

/-- The first loop: what is written, the number of characters that are processed, and the codes. -/
def readLoop : ℕ → List UInt8 → List UInt8 → ℕ → List ℕ → Option (List UInt8 × ℕ × List ℕ)
  | _, [], result, processed, codes => some (result, processed, codes)
  | 0, _ :: _, _, _, _ => none
  | fuel + 1, a :: begin_, result, processed, codes => do
    let (code, begin_) ← nextUtf8Unsafe (a :: begin_)
    if code ≤ 127 then
      let processed ← uint32 (processed + 1)
      readLoop fuel begin_ (result ++ [toLowerChar (UInt8.ofNat code)]) processed (codes ++ [code])
    else readLoop fuel begin_ result processed (codes ++ [code])

/-- The loop that writes `left` in digits. -/
def writeDigits : ℕ → ℤ → ℤ → Option (List UInt8)
  | 0, _, _ => none
  | fuel + 1, bias, left => do
    let bias ← int32 (bias + 36)
    let t := clamp bias 1 26
    if left < t then
      some [char (left + 97)]
    else
      let left ← int32 (left - t)
      let base ← int32 (36 - t)
      if base = 0 then none  -- division by zero
      else
        let digit ← int32 (t + left.tmod base)
        let rest ← writeDigits fuel bias (left.tdiv base)
        some (char (if digit < 26 then digit + 97 else digit - 26 + 48) :: rest)

/-- The loop that divides `delta`. -/
def scaleLoop : ℕ → ℕ → ℤ → Option (ℕ × ℤ)
  | 0, _, _ => none
  | fuel + 1, delta, bias =>
    if 35 * 13 < delta then do
      let bias ← int32 (bias - 36)
      scaleLoop fuel (delta / 35) bias
    else some (delta, bias)

/-- The new bias. -/
def updateBias (delta processed : ℕ) (isFirst : Bool) : Option ℤ := do
  let delta := if isFirst then delta / 700 else delta / 2
  if processed = 0 then none  -- division by zero
  else
    let delta ← uint32 (delta + delta / processed)
    let (delta, bias) ← scaleLoop (delta + 1) delta 0
    let scaled ← uint32 (36 * delta)
    let divisor ← uint32 (delta + 38)
    let step ← int32 (scaled / divisor : ℕ)
    int32 (bias - step)

structure State where
  result : List UInt8
  processed : ℕ
  n : ℕ
  delta : ℕ
  bias : ℤ
  isFirst : Bool

/-- A round of the loop over the codes. -/
def visit (nextN : ℕ) (s : State) (code : ℕ) : Option State := do
  let delta ← if code < nextN then uint32 (s.delta + 1) else some s.delta
  if code = nextN then
    let left ← int32 delta
    let digits ← writeDigits (left.toNat + 1) s.bias left
    let processed ← uint32 (s.processed + 1)
    let bias ← updateBias delta processed s.isFirst
    some { s with result := s.result ++ digits, processed, delta := 0, bias, isFirst := false }
  else some { s with delta }

/-- The loop that chooses the lowest code that is not processed. -/
def nextCode (n : ℕ) (codes : List ℕ) : ℕ :=
  codes.foldl (fun nextN code => if n < code ∧ code < nextN then code else nextN) 0x110000

/-- The loop over the passes. -/
def passes (codes : List ℕ) : ℕ → State → Option State
  | 0, s => if s.processed < codes.length then none else some s
  | fuel + 1, s =>
    if s.processed < codes.length then do
      let nextN := nextCode s.n codes
      if nextN ≤ s.n then none
      else
        let points ← uint32 (s.processed + 1)
        let skipped ← uint32 ((nextN - s.n - 1) * points)
        let delta ← uint32 (s.delta + skipped)
        let s ← codes.foldlM (visit nextN) { s with delta }
        let delta ← uint32 (s.delta + 1)
        passes codes fuel { s with delta, n := nextN }
    else some s

/-- `punycode`, with the string that it appends to. -/
def punycode (result part : List UInt8) : Option (List UInt8) := do
  let (result, processed, codes) ← readLoop part.length part result 0 []
  let result := if 0 < processed then result ++ [ch '-'] else result
  let s ← passes codes codes.length ⟨result, processed, 127, 0, -72, true⟩
  some s.result

/-- The character that stands for a code in the label. -/
def lowerCode (code : ℕ) : ℕ := if code ≤ 127 then (toLowerChar (UInt8.ofNat code)).toNat else code

/-! ### Numbers -/

theorem uint32_eq {n : ℕ} (h : n < 2 ^ 32) : uint32 n = some n := if_pos h

theorem int32_eq {z : ℤ} (hlow : -2 ^ 31 ≤ z) (hhigh : z < 2 ^ 31) : int32 z = some z := if_pos ⟨hlow, hhigh⟩

theorem char_natCast (n : ℕ) : char n = UInt8.ofNat n := by
  have hmod : ((n : ℤ) % 2 ^ 8).toNat = n % 2 ^ 8 := by omega
  unfold char
  rw [hmod, UInt8.ofNat_mod_size]

theorem clamp_eq (bias k : ℕ) : clamp ((k : ℤ) - bias) 1 26 = (Punycode.threshold bias k : ℕ) := by
  unfold clamp Punycode.threshold
  split_ifs <;> omega

theorem char_digit (d : ℕ) : char (if (d : ℤ) < 26 then (d : ℤ) + 97 else (d : ℤ) - 26 + 48) = Punycode.digit d := by
  unfold Punycode.digit
  split_ifs with hlarge hsmall hsmall
  · exact char_natCast (d + 97)
  · omega
  · omega
  · have hvalue : (d : ℤ) - 26 + 48 = (d - 26 + 48 : ℕ) := by omega
    rw [hvalue, char_natCast]

/-- The digits of a number below `2 ^ j`; the bias stays an `int` for `j` more digits. -/
theorem writeDigits_eq {bias : ℕ} : ∀ {fuel j k q : ℕ}, q < fuel → q < 2 ^ j → q < 2 ^ 31 → bias < 2 ^ 31 →
    k + 36 * j < 2 ^ 31 → writeDigits fuel ((k : ℤ) - bias - 36) q = some (Punycode.varint bias k q)
  | 0, _, _, _, hfuel, _, _, _, _ => absurd hfuel (Nat.not_lt_zero _)
  | fuel + 1, j, k, q, hfuel, hj, hq, hbias, hk => by
    have ht := Punycode.threshold_bounds bias k
    have hadd : (k : ℤ) - bias - 36 + 36 = (k : ℤ) - bias := by omega
    rw [Punycode.varint, writeDigits, hadd, int32_eq (by omega) (by omega)]
    dsimp only [bind, Option.bind]
    rw [clamp_eq]
    split_ifs with hlt hlt' hlt'
    · have hdigit := char_digit q
      rw [if_pos (by omega)] at hdigit
      rw [hdigit]
    · omega
    · omega
    · set t := Punycode.threshold bias k with htdef
      obtain ⟨i, rfl⟩ : ∃ i, j = i + 1 := by
        cases j with
        | zero => omega
        | succ i => exact ⟨i, rfl⟩
      have hsub : (q : ℤ) - (t : ℕ) = (q - t : ℕ) := by omega
      have hbase : (36 : ℤ) - (t : ℕ) = (36 - t : ℕ) := by omega
      have hmod : (q - t) % (36 - t) < 36 - t := Nat.mod_lt _ (by omega)
      have hdigit : (t : ℤ) + ((q - t : ℕ) : ℤ).tmod (36 - t : ℕ) = (t + (q - t) % (36 - t) : ℕ) := by
        rw [← Int.ofNat_tmod]
        exact (Nat.cast_add _ _).symm
      have hint : int32 (t + (q - t) % (36 - t) : ℕ) = some ((t + (q - t) % (36 - t) : ℕ) : ℤ) := by
        generalize (q - t) % (36 - t) = r at hmod ⊢
        exact int32_eq (by omega) (by omega)
      have hdiv : ((q - t : ℕ) : ℤ).tdiv (36 - t : ℕ) = ((q - t) / (36 - t) : ℕ) := (Int.ofNat_tdiv _ _).symm
      have hhalf : (q - t) / (36 - t) < 2 ^ i := by
        refine (Nat.div_lt_iff_lt_mul (by omega)).mpr ?_
        calc q - t ≤ q := Nat.sub_le _ _
          _ < 2 ^ i * 2 := hj
          _ ≤ 2 ^ i * (36 - t) := Nat.mul_le_mul_left _ (by omega)
      have hless := Punycode.varint_lt hlt'
      rw [← htdef] at hless
      have hrec := @writeDigits_eq bias fuel i (k + 36) _ (by omega) hhalf (by omega) hbias
        (by omega)
      have hnext : ((k + 36 : ℕ) : ℤ) - bias - 36 = (k : ℤ) - bias := by omega
      rw [hnext] at hrec
      rw [hsub, int32_eq (by omega) (by omega)]
      dsimp only
      rw [hbase, int32_eq (by omega) (by omega)]
      dsimp only
      rw [if_neg (by omega), hdigit, hint]
      dsimp only
      rw [hdiv, hrec]
      dsimp only
      rw [char_digit]

/-- How far the bias falls. -/
theorem scale_bounds : ∀ (delta k : ℕ), (Punycode.scale delta k).1 ≤ 455 ∧
    (Punycode.scale delta k).2 ≤ k + delta := by
  intro delta
  induction delta using Nat.strong_induction_on with
  | _ delta ih =>
    intro k
    rw [Punycode.scale]
    split_ifs with hlarge
    · obtain ⟨hsmall, hle⟩ := ih (delta / 35) (by omega) (k + 36)
      exact ⟨hsmall, by omega⟩
    · exact ⟨by omega, by omega⟩

theorem scaleLoop_eq : ∀ {fuel delta k : ℕ}, delta < fuel → k + delta < 2 ^ 31 →
    scaleLoop fuel delta (-(k : ℤ)) =
      some ((Punycode.scale delta k).1, -((Punycode.scale delta k).2 : ℤ))
  | 0, _, _, hfuel, _ => absurd hfuel (Nat.not_lt_zero _)
  | fuel + 1, delta, k, hfuel, hk => by
    rw [Punycode.scale, scaleLoop]
    split_ifs with hlarge
    · have hbias : -(k : ℤ) - 36 = -((k + 36 : ℕ) : ℤ) := by omega
      rw [hbias, int32_eq (by omega) (by omega)]
      exact scaleLoop_eq (by omega) (by omega)
    · rfl

theorem adapt_le (delta points : ℕ) (first : Bool) : Punycode.adapt delta (points + 1) first ≤ delta + 36 := by
  unfold Punycode.adapt
  dsimp only
  generalize hd : (if first = true then delta / 700 else delta / 2) = d
  have hhalf : d ≤ delta / 2 := by
    rw [← hd]
    split_ifs <;> omega
  have hdiv : d / (points + 1) ≤ d := Nat.div_le_self _ _
  obtain ⟨hsmall, hle⟩ := scale_bounds (d + d / (points + 1)) 0
  have hlast : 36 * (Punycode.scale (d + d / (points + 1)) 0).1 /
      ((Punycode.scale (d + d / (points + 1)) 0).1 + 38) ≤ 36 :=
    Nat.div_le_of_le_mul (by omega)
  omega

theorem updateBias_eq {delta points : ℕ} (first : Bool) (hdelta : delta + 36 < 2 ^ 31) :
    updateBias delta (points + 1) first = some (-(Punycode.adapt delta (points + 1) first : ℤ)) := by
  have hadapt := adapt_le delta points first
  unfold updateBias
  unfold Punycode.adapt at hadapt ⊢
  dsimp only at hadapt ⊢
  generalize hd : (if first = true then delta / 700 else delta / 2) = d at hadapt ⊢
  have hhalf : d ≤ delta / 2 := by
    rw [← hd]
    split_ifs <;> omega
  have hdiv : d / (points + 1) ≤ d := Nat.div_le_self _ _
  have hsum : uint32 (d + d / (points + 1)) = some (d + d / (points + 1)) := uint32_eq (by omega)
  have hlt : 0 + (d + d / (points + 1)) < 2 ^ 31 := by omega
  have hscale := scaleLoop_eq (Nat.lt_succ_self _) hlt
  obtain ⟨hsmall, -⟩ := scale_bounds (d + d / (points + 1)) 0
  rw [Nat.cast_zero, Int.neg_zero] at hscale
  simp only [Option.bind_eq_bind]
  rw [if_neg (Nat.succ_ne_zero _), hsum, Option.bind_some, hscale, Option.bind_some]
  generalize Punycode.scale (d + d / (points + 1)) 0 = r at hadapt hsmall ⊢
  have hlast : 36 * r.1 / (r.1 + 38) ≤ 36 := Nat.div_le_of_le_mul (by omega)
  have hscaled : uint32 (36 * r.1) = some (36 * r.1) := uint32_eq (by omega)
  have hdivisor : uint32 (r.1 + 38) = some (r.1 + 38) := uint32_eq (by omega)
  dsimp only
  rw [hscaled, Option.bind_some, hdivisor, Option.bind_some]
  generalize 36 * r.1 / (r.1 + 38) = step at hadapt hlast ⊢
  have hneg : -(r.2 : ℤ) - step = -((r.2 + step : ℕ) : ℤ) := by omega
  rw [int32_eq (by omega) (by omega), Option.bind_some, hneg, int32_eq (by omega) (by omega)]

/-! ### Codes -/

theorem toLowerChar_lt (c : UInt8) (h : c < 0x80) : toLowerChar c < 0x80 := by
  by_cases hc : ch 'A' ≤ c ∧ c ≤ ch 'Z'
  · exact UInt8.lt_of_le_of_lt (toLowerChar_of_capital hc).2 (by decide)
  · rwa [toLowerChar_of_not_capital hc]

theorem lowerCode_of_ge {c : ℕ} (h : 128 ≤ c) : lowerCode c = c := if_neg (by omega)

theorem lowerCode_lt {c : ℕ} (h : c < 128) : lowerCode c < 128 := by
  have hbyte : UInt8.ofNat c < 0x80 := by
    rw [UInt8.lt_iff_toNat_lt, UInt8.toNat_ofNat', Nat.mod_eq_of_lt (by omega)]
    exact h
  unfold lowerCode
  rw [if_pos (by omega)]
  exact UInt8.lt_iff_toNat_lt.mp (toLowerChar_lt _ hbyte)

/-- Codes that are not ASCII do not see the case of letters. -/
theorem lowerCode_compare (c : ℕ) {m : ℕ} (hm : 128 ≤ m) :
    (lowerCode c < m ↔ c < m) ∧ (lowerCode c = m ↔ c = m) := by
  rcases Nat.lt_or_ge c 128 with hc | hc
  · have := lowerCode_lt hc
    omega
  · rw [lowerCode_of_ge hc]
    exact ⟨Iff.rfl, Iff.rfl⟩

theorem filter_map_lowerCode {n : ℕ} (hn : 128 ≤ n) : ∀ codes : List ℕ,
    (codes.map lowerCode).filter (fun c => n ≤ c) = codes.filter fun c => n ≤ c
  | [] => rfl
  | c :: codes => by
    have hrest := filter_map_lowerCode hn codes
    have hlt := (lowerCode_compare c hn).1
    rw [List.map_cons]
    by_cases hc : n ≤ c
    · rw [List.filter_cons_of_pos (by simp only [decide_eq_true_eq]; omega), List.filter_cons_of_pos (by simp [hc]),
        hrest, lowerCode_of_ge (hn.trans hc)]
    · rw [List.filter_cons_of_neg (by simp only [decide_eq_true_eq]; omega), List.filter_cons_of_neg (by simp [hc]),
        hrest]

theorem minFrom_map_lowerCode {n : ℕ} (hn : 128 ≤ n) (codes : List ℕ) :
    Punycode.minFrom n (codes.map lowerCode) = Punycode.minFrom n codes := by
  unfold Punycode.minFrom
  rw [filter_map_lowerCode hn]

/-- The loop that chooses a code, from a code `a`. -/
theorem foldl_nextCode {n : ℕ} : ∀ {codes : List ℕ} {a r : ℕ},
    codes.foldl (fun nextN code => if n < code ∧ code < nextN then code else nextN) a = r →
    (r = a ∨ r ∈ codes ∧ n < r) ∧ r ≤ a ∧ ∀ c ∈ codes, n < c → r ≤ c
  | [], a, r, h => ⟨.inl h.symm, h.ge, fun c hc => absurd hc List.not_mem_nil⟩
  | c :: codes, a, r, h => by
    rw [List.foldl_cons] at h
    obtain ⟨hfrom, hle, hleast⟩ := foldl_nextCode h
    rw [List.forall_mem_cons]
    split_ifs at hfrom hle with hc
    · refine ⟨.inr ?_, by omega, fun _ => hle, hleast⟩
      rcases hfrom with rfl | ⟨hmem, hlt⟩
      · exact ⟨List.mem_cons_self, hc.1⟩
      · exact ⟨List.mem_cons_of_mem _ hmem, hlt⟩
    · refine ⟨?_, hle, fun hlt => ?_, hleast⟩
      · exact hfrom.imp_right fun hr => ⟨List.mem_cons_of_mem _ hr.1, hr.2⟩
      · omega

theorem nextCode_eq {n m : ℕ} {codes : List ℕ} (hcodes : ∀ c ∈ codes, c < 0x110000)
    (h : Punycode.minFrom (n + 1) codes = some m) : nextCode n codes = m := by
  obtain ⟨hmem, hlt, hleast⟩ := Punycode.minFrom_eq_some_iff.mp h
  obtain ⟨hfrom, -, hle⟩ := @foldl_nextCode n codes 0x110000 _ rfl
  have hm := hle m hmem hlt
  have hbound := hcodes m hmem
  unfold nextCode
  rcases hfrom with heq | ⟨hr, hnr⟩
  · omega
  · exact le_antisymm hm (hleast _ hr hnr)

/-! ### Passes -/

section Passes

open Punycode (Enc encodeFrom minFrom Dec Follows)

variable {pre : List UInt8} {b m : ℕ} {s : State} {e : Enc}

/-- The state of the source beside that of the standard, behind what was written before. -/
structure Same (pre : List UInt8) (b : ℕ) (s : State) (e : Enc) : Prop where
  result : s.result = pre ++ e.out
  processed : s.processed = e.h
  delta : s.delta = e.delta
  bias : s.bias = -(e.bias : ℤ)
  isFirst : s.isFirst = decide (e.h = b)

/-- Nothing overflows in the next `k` rounds over codes. -/
structure Room (b k : ℕ) (e : Enc) : Prop where
  basic : b ≤ e.h
  delta : e.delta + k + 36 < 2 ^ 31
  bias : e.bias < 2 ^ 31
  processed : e.h + k < 2 ^ 32

/-- A round over a code is one of the standard. -/
theorem visit_eq {k : ℕ} (h : Same pre b s e) (hroom : Room b (k + 1) e) (hm : 128 ≤ m) (c : ℕ) :
    ∃ s', visit m s c = some s' ∧ Same pre b s' (Punycode.visit b m e (lowerCode c)) ∧ s'.n = s.n ∧
      Room b k (Punycode.visit b m e (lowerCode c)) := by
  obtain ⟨hbasic, hdelta, hbias, hprocessed⟩ := hroom
  have hcompare := lowerCode_compare c hm
  unfold visit Punycode.visit
  simp only [hcompare, h.delta, h.processed, h.bias, h.isFirst, Option.bind_eq_bind]
  rcases lt_trichotomy c m with hlt | rfl | hgt
  · rw [if_pos hlt, if_pos hlt, uint32_eq (by omega), Option.bind_some, if_neg (by omega)]
    exact ⟨_, rfl, ⟨h.result, rfl, rfl, rfl, rfl⟩, rfl, hbasic, by dsimp only; omega, hbias, by dsimp only; omega⟩
  · have hwrite := @writeDigits_eq e.bias _ _ 36 _ (Nat.lt_succ_self e.delta)
      (show e.delta < 2 ^ 31 by omega) (by omega) hbias (by omega)
    have hstart : ((36 : ℕ) : ℤ) - e.bias - 36 = -(e.bias : ℤ) := by omega
    have hadapt := adapt_le e.delta e.h (decide (e.h = b))
    rw [hstart] at hwrite
    rw [if_neg (lt_irrefl c), if_neg (lt_irrefl c), Option.bind_some, if_pos rfl, if_pos rfl,
      int32_eq (by omega) (by omega), Option.bind_some, Int.toNat_natCast, hwrite, Option.bind_some,
      uint32_eq (by omega), Option.bind_some, updateBias_eq _ (by omega), Option.bind_some]
    refine ⟨_, rfl, ⟨?_, rfl, rfl, rfl, ?_⟩, rfl, ?_, ?_, ?_, ?_⟩
    · rw [h.result, List.append_assoc]
    · exact (decide_eq_false (show ¬ e.h + 1 = b by omega)).symm
    · exact Nat.le_succ_of_le hbasic
    · change 0 + k + 36 < 2 ^ 31
      omega
    · change Punycode.adapt e.delta (e.h + 1) (decide (e.h = b)) < 2 ^ 31
      omega
    · change e.h + 1 + k < 2 ^ 32
      omega
  · rw [if_neg (by omega), if_neg (by omega), Option.bind_some, if_neg (by omega), if_neg (by omega)]
    exact ⟨_, rfl, ⟨h.result, rfl, rfl, rfl, rfl⟩, rfl, hbasic, by omega, hbias, by omega⟩

/-- The loop over the codes. -/
theorem foldlM_visit_eq (hm : 128 ≤ m) : ∀ {codes : List ℕ} {s : State} {e : Enc}, Same pre b s e →
    Room b codes.length e → ∃ s', codes.foldlM (visit m) s = some s' ∧
      Same pre b s' ((codes.map lowerCode).foldl (Punycode.visit b m) e) ∧ s'.n = s.n ∧
      Room b 0 ((codes.map lowerCode).foldl (Punycode.visit b m) e)
  | [], s, e, h, hroom => ⟨s, rfl, h, rfl, hroom⟩
  | c :: codes, s, e, h, hroom => by
    obtain ⟨s', hvisit, hsame, hn, hroom'⟩ := visit_eq h hroom hm c
    obtain ⟨s'', hrest, hsame', hn', hroom''⟩ := foldlM_visit_eq hm hsame hroom'
    refine ⟨s'', ?_, hsame', hn'.trans hn, hroom''⟩
    rw [List.foldlM_cons, hvisit, Option.bind_eq_bind, Option.bind_some]
    exact hrest

/-- What is done is what is below the next code. -/
theorem Follows.h_eq {cs : List ℕ} {n : ℕ} {start d : Dec} (h : Follows b start [] cs n e d) :
    e.h = (cs.filter fun c => c < n).length := by
  rw [← h.length, h.out, List.filter_nil, List.nil_append]

/-- Nothing overflows when a pass starts. -/
theorem room_skip {n k : ℕ} (hbasic : b ≤ e.h) (hh : e.h ≤ k) (hk : k < 1020) (hdelta : e.delta ≤ 1020)
    (hbias : e.bias < 2 ^ 31) (hm : m < 0x110000) :
    (m - n) * (e.h + 1) ≤ 0x110000 * 1020 ∧
      Room b k { e with delta := e.delta + (m - n) * (e.h + 1) } := by
  have hskip : (m - n) * (e.h + 1) ≤ 0x110000 * 1020 := Nat.mul_le_mul (by omega) (by omega)
  refine ⟨hskip, hbasic, ?_, hbias, ?_⟩
  · change e.delta + (m - n) * (e.h + 1) + k + 36 < 2 ^ 31
    generalize (m - n) * (e.h + 1) = skip at hskip ⊢
    omega
  · change e.h + k < 2 ^ 32
    omega

/-- The passes of the source are those of the standard. -/
theorem passes_eq {codes : List ℕ} {start : Dec} (hcodes : ∀ c ∈ codes, c < 0x110000) (hlen : codes.length < 1020) :
    ∀ {fuel : ℕ} {s : State} {e : Enc} {d : Dec}, Same pre b s e → 127 ≤ s.n → e.delta ≤ 1020 → e.bias < 2 ^ 31 →
    Follows b start [] (codes.map lowerCode) (s.n + 1) e d →
    ((codes.map lowerCode).filter fun c => s.n + 1 ≤ c).length ≤ fuel →
    ∃ s', passes codes fuel s = some s' ∧
      s'.result = pre ++ (encodeFrom (codes.map lowerCode) b (s.n + 1) e).out := by
  intro fuel
  induction fuel with
  | zero =>
    intro s e d h _ _ _ hfollows hfuel
    have hnone : minFrom (s.n + 1) (codes.map lowerCode) = none := by
      unfold minFrom
      rw [List.length_eq_zero_iff.mp (Nat.le_zero.mp hfuel), List.min?_nil]
    have hall := Punycode.minFrom_eq_none_iff.mp hnone
    have hh := Follows.h_eq hfollows
    rw [List.filter_eq_self.mpr fun c hc => decide_eq_true (hall c hc), List.length_map] at hh
    refine ⟨s, ?_, ?_⟩
    · unfold passes
      rw [h.processed, if_neg (by omega)]
    · rw [Punycode.encodeFrom_none hnone]
      exact h.result
  | succ fuel ih =>
    intro s e d h hn hdelta hbias hfollows hfuel
    have hh := Follows.h_eq hfollows
    cases hmin : minFrom (s.n + 1) (codes.map lowerCode) with
    | none =>
      have hall := Punycode.minFrom_eq_none_iff.mp hmin
      rw [List.filter_eq_self.mpr fun c hc => decide_eq_true (hall c hc), List.length_map] at hh
      refine ⟨s, ?_, ?_⟩
      · unfold passes
        rw [h.processed, if_neg (by omega)]
      · rw [Punycode.encodeFrom_none hmin]
        exact h.result
    | some m =>
      obtain ⟨hmem, hle, hleast⟩ := Punycode.minFrom_eq_some_iff.mp hmin
      have hmin' := hmin
      rw [minFrom_map_lowerCode (by omega)] at hmin'
      have hm := hcodes m (Punycode.minFrom_eq_some_iff.mp hmin').1
      have hnext := nextCode_eq hcodes hmin'
      have hless : ((codes.map lowerCode).filter fun c => c < s.n + 1).length < codes.length := by
        rw [← @List.length_map _ _ codes lowerCode]
        exact List.length_filter_lt_length_iff_exists.mpr ⟨m, hmem, by simpa using hle⟩
      obtain ⟨hskip, hroom⟩ := room_skip (n := s.n + 1) hfollows.basic (by omega) hlen hdelta hbias hm
      have hsame : Same pre b { s with delta := e.delta + (m - (s.n + 1)) * (e.h + 1) }
          { e with delta := e.delta + (m - (s.n + 1)) * (e.h + 1) } :=
        ⟨h.result, h.processed, rfl, h.bias, h.isFirst⟩
      obtain ⟨s', hscan, hsame', hn', hroom'⟩ := foldlM_visit_eq (m := m) (by omega) hsame hroom
      obtain ⟨d', hpass⟩ := (hfollows.skip hle hleast).pass
      have hcount := Punycode.foldl_visit_delta (b := b) (k := 0)
        (s := { e with delta := e.delta + (m - (s.n + 1)) * (e.h + 1) }) (.inl hmem)
      rw [List.length_map] at hcount
      have hless' := Punycode.filter_lt_of_minFrom hmin
      generalize hfold : (codes.map lowerCode).foldl (Punycode.visit b m)
        { e with delta := e.delta + (m - (s.n + 1)) * (e.h + 1) } = e' at hsame' hroom' hpass hcount
      have hsame'' : Same pre b { s' with delta := s'.delta + 1, n := m } { e' with delta := e'.delta + 1 } :=
        ⟨hsame'.result, hsame'.processed, congrArg (· + 1) hsame'.delta, hsame'.bias, hsame'.isFirst⟩
      obtain ⟨s'', hrest, hresult⟩ := ih hsame'' (by dsimp only; omega) (by dsimp only; omega) hroom'.bias
        hpass.advance (by dsimp only; omega)
      refine ⟨s'', ?_, ?_⟩
      · have hsub : m - s.n - 1 = m - (s.n + 1) := Nat.sub_sub _ _ _
        rw [h.processed] at hscan
        unfold passes
        rw [h.processed, if_pos (by omega)]
        simp only [hnext, hsub, h.delta, Option.bind_eq_bind]
        rw [if_neg (by omega), uint32_eq (by omega), Option.bind_some, uint32_eq (by omega), Option.bind_some,
          uint32_eq (by omega), Option.bind_some, hscan, Option.bind_some, hsame'.delta, uint32_eq (by omega),
          Option.bind_some, ← hsame'.delta]
        exact hrest
      · rw [Punycode.encodeFrom_some hmin, hfold]
        exact hresult

end Passes

/-! ### Labels -/

theorem length_le_flatMap_utf8 : ∀ codes : List ℕ, codes.length ≤ (codes.flatMap utf8).length
  | [] => le_rfl
  | c :: codes => by
    have hrest := length_le_flatMap_utf8 codes
    have hc := (length_utf8 c).1
    rw [List.flatMap_cons, List.length_append, List.length_cons]
    omega

theorem basic_cons_ascii {c : ℕ} (hc : c < 128) (codes : List ℕ) :
    Punycode.basic ((c :: codes).map lowerCode) = lowerCode c :: Punycode.basic (codes.map lowerCode) :=
  List.filter_cons_of_pos (decide_eq_true (lowerCode_lt hc))

theorem basic_cons_other {c : ℕ} (hc : 128 ≤ c) (codes : List ℕ) :
    Punycode.basic ((c :: codes).map lowerCode) = Punycode.basic (codes.map lowerCode) := by
  rw [List.map_cons, lowerCode_of_ge hc]
  exact List.filter_cons_of_neg (by simpa using hc)

theorem ofNat_lowerCode {c : ℕ} (hc : c < 128) : UInt8.ofNat (lowerCode c) = toLowerChar (UInt8.ofNat c) := by
  unfold lowerCode
  rw [if_pos (by omega), UInt8.ofNat_toNat]

/-- The first loop writes the ASCII characters, and keeps all codes. -/
theorem readLoop_eq : ∀ {codes : List ℕ} {fuel : ℕ} {result : List UInt8} {processed : ℕ} {seen : List ℕ},
    (∀ c ∈ codes, Scalar c) → (codes.flatMap utf8).length ≤ fuel → processed + codes.length < 2 ^ 32 →
    readLoop fuel (codes.flatMap utf8) result processed seen =
      some (result ++ (Punycode.basic (codes.map lowerCode)).map UInt8.ofNat,
        processed + (Punycode.basic (codes.map lowerCode)).length, seen ++ codes)
  | [], fuel, result, processed, seen, _, _, _ => by
    have hbasic : Punycode.basic (([] : List ℕ).map lowerCode) = [] := rfl
    rw [hbasic, List.flatMap_nil, List.map_nil, List.append_nil, List.append_nil]
    unfold readLoop
    rfl
  | c :: codes, fuel, result, processed, seen, hcodes, hfuel, hlen => by
    obtain ⟨hc, hcodes⟩ := List.forall_mem_cons.mp hcodes
    have hpos := (length_utf8 c).1
    rw [List.flatMap_cons, List.length_append] at hfuel
    rw [List.length_cons] at hlen
    have hnext := nextUtf8Unsafe_utf8 hc (codes.flatMap utf8)
    obtain ⟨fuel, rfl⟩ : ∃ k, fuel = k + 1 := ⟨fuel - 1, by omega⟩
    obtain ⟨a, u, hu⟩ := List.exists_cons_of_ne_nil (utf8_ne_nil c)
    rw [List.flatMap_cons, hu, List.cons_append]
    rw [hu, List.cons_append] at hnext
    unfold readLoop
    rw [hnext]
    simp only [Option.bind_eq_bind, Option.bind_some]
    rcases Nat.lt_or_ge c 128 with hascii | hother
    · rw [if_pos (by omega), uint32_eq (by omega), Option.bind_some,
        readLoop_eq hcodes (by omega) (by omega), basic_cons_ascii hascii, List.map_cons, List.length_cons,
        ofNat_lowerCode hascii, List.append_assoc, List.append_assoc, List.singleton_append, List.singleton_append,
        Nat.add_right_comm, Nat.add_assoc]
    · rw [if_neg (by omega), readLoop_eq hcodes (by omega) (by omega), basic_cons_other hother, List.append_assoc,
        List.singleton_append]

/-- `punycode` appends the encoding of the label with its ASCII letters in lower case, nothing overflows on the
way, and the encoding is read back as that label. -/
theorem punycode_eq {part : List UInt8} {codes : List ℕ} (h : Encodes part codes) (hlen : part.length < 1020)
    (result : List UInt8) :
    punycode result part = some (result ++ Punycode.encode (codes.map lowerCode)) ∧
      Punycode.decode (Punycode.encode (codes.map lowerCode)) = some (codes.map lowerCode) := by
  refine ⟨?_, Punycode.decode_of_encode _⟩
  obtain ⟨rfl, hscalar⟩ := h
  have hcount := length_le_flatMap_utf8 codes
  have hbound : ∀ c ∈ codes, c < 0x110000 := fun c hc => by
    have := hscalar c hc
    unfold Scalar at this
    omega
  have hread := @readLoop_eq codes _ result 0 [] hscalar le_rfl (by omega)
  rw [Nat.zero_add, List.nil_append] at hread
  have hbasic : (Punycode.basic (codes.map lowerCode)).length ≤ codes.length := by
    rw [← @List.length_map _ _ codes lowerCode]
    exact List.length_filter_le _ _
  have hfuel : ((codes.map lowerCode).filter fun c => 127 + 1 ≤ c).length ≤ codes.length := by
    rw [← @List.length_map _ _ codes lowerCode]
    exact List.length_filter_le _ _
  unfold punycode Punycode.encode
  simp only [hread, Option.bind_eq_bind, Option.bind_some]
  generalize hfront : (if 0 < (Punycode.basic (codes.map lowerCode)).length then
    result ++ (Punycode.basic (codes.map lowerCode)).map UInt8.ofNat ++ [ch '-'] else
    result ++ (Punycode.basic (codes.map lowerCode)).map UInt8.ofNat) = front
  have hsame : Same front (Punycode.basic (codes.map lowerCode)).length
      ⟨front, (Punycode.basic (codes.map lowerCode)).length, 127, 0, -72, true⟩
      ⟨[], 0, 72, (Punycode.basic (codes.map lowerCode)).length⟩ :=
    ⟨(List.append_nil front).symm, rfl, rfl, rfl, (decide_eq_true rfl).symm⟩
  obtain ⟨s, hpasses, hresult⟩ := passes_eq hbound (by omega) hsame le_rfl (Nat.zero_le _) (by dsimp only; omega)
    (Punycode.follows_start _) hfuel
  rw [hpasses, Option.bind_some, hresult, ← hfront]
  split_ifs with hpos hzero hzero
  · omega
  · rw [List.append_assoc, List.append_assoc, List.append_assoc, List.append_assoc]
    rfl
  · rw [List.append_nil, List.append_assoc]
  · omega

example : punycode [] (([0x42, 0xfc, 0xfc, 0x43, 0x48, 0x45, 0x52] : List ℕ).flatMap utf8) =
    some (chs ['b', 'c', 'h', 'e', 'r', '-', 'k', 'v', 'a', 'a']) := by decide +kernel

/-- The label `Bü`. -/
theorem punycode_eq_mixed :
    punycode [] [0x42, 0xc3, 0xbc] = some ([] ++ Punycode.encode ([0x42, 0xfc].map lowerCode)) ∧
      Punycode.decode (Punycode.encode ([0x42, 0xfc].map lowerCode)) = some ([0x42, 0xfc].map lowerCode) :=
  punycode_eq ⟨by decide, by decide⟩ (by decide) []

end TdUtils.IpAddress
