import Mathlib.Data.List.Basic

/-!
# Text.ZeroEncode — runs of equal bytes and their lengths

`x_encode` puts the length of a run behind a byte that `f` picks, and `x_decode` reads it there.  A run of more
than 250 bytes is written as several, and no other byte is ever read as a length.
-/

namespace TdUtils.Text

/-- The inner loop of `x_encode`: `cnt` bytes are counted, and `s` is behind them. -/
def countRun (c : UInt8) : ℕ → List UInt8 → ℕ
  | cnt, [] => cnt
  | cnt, d :: s => if cnt < 250 ∧ d = c then countRun c (cnt + 1) s else cnt

def xEncode (f : UInt8 → Bool) : List UInt8 → List UInt8
  | [] => []
  | c :: s =>
    if f c then
      let cnt := countRun c 1 s
      c :: UInt8.ofNat cnt :: xEncode f (s.drop (cnt - 1))
    else c :: xEncode f s
termination_by s => s.length
decreasing_by all_goals simp only [List.length_drop, List.length_cons]; omega

def xDecode (f : UInt8 → Bool) : List UInt8 → List UInt8
  | [] => []
  | [c] => [c]
  | c :: cnt :: s =>
    if f c then List.replicate cnt.toNat c ++ xDecode f s else c :: xDecode f (cnt :: s)

def isZero (c : UInt8) : Bool := c = 0

def isZeroOrOne (c : UInt8) : Bool := c = 0 ∨ c = 0xff

def zeroEncode (data : List UInt8) : List UInt8 := xEncode isZero data

def zeroDecode (data : List UInt8) : List UInt8 := xDecode isZero data

def zeroOneEncode (data : List UInt8) : List UInt8 := xEncode isZeroOrOne data

def zeroOneDecode (data : List UInt8) : List UInt8 := xDecode isZeroOrOne data

variable {f : UInt8 → Bool}

/-- What is counted is a run, and its length is a byte. -/
theorem countRun_spec (c : UInt8) (s : List UInt8) (cnt : ℕ) (hcnt : cnt ≤ 250) :
    ∃ k, countRun c cnt s = cnt + k ∧ cnt + k ≤ 250 ∧ List.replicate k c ++ s.drop k = s := by
  induction s generalizing cnt with
  | nil => exact ⟨0, rfl, hcnt, rfl⟩
  | cons d s ih =>
    rw [countRun]
    by_cases hd : cnt < 250 ∧ d = c
    · obtain ⟨hlt, rfl⟩ := hd
      obtain ⟨k, hcount, hle, hrun⟩ := ih (cnt + 1) (by omega)
      rw [if_pos ⟨hlt, rfl⟩]
      refine ⟨k + 1, by omega, by omega, ?_⟩
      rw [List.replicate_succ, List.drop_succ_cons, List.cons_append, hrun]
    · rw [if_neg hd]
      exact ⟨0, rfl, hcnt, rfl⟩

theorem xDecode_run {c : UInt8} (hc : f c = true) (cnt : UInt8) (s : List UInt8) :
    xDecode f (c :: cnt :: s) = List.replicate cnt.toNat c ++ xDecode f s := by
  rw [xDecode, if_pos hc]

theorem xDecode_cons {c : UInt8} (hc : f c = false) (s : List UInt8) :
    xDecode f (c :: s) = c :: xDecode f s := by
  cases s with
  | nil => rfl
  | cons cnt s => rw [xDecode, hc, if_neg Bool.false_ne_true]

/-- Decoding inverts encoding, whatever bytes are counted. -/
theorem xDecode_xEncode (f : UInt8 → Bool) (s : List UInt8) : xDecode f (xEncode f s) = s := by
  induction s using xEncode.induct f with
  | case1 => rw [xEncode, xDecode]
  | case2 c s hc cnt ih =>
    obtain ⟨k, hcount, hle, hrun⟩ := countRun_spec c s 1 (by omega)
    have hbyte : (UInt8.ofNat cnt).toNat = k + 1 := by
      rw [UInt8.toNat_ofNat_of_lt' (show cnt < 256 by omega)]
      omega
    rw [xEncode, if_pos hc, xDecode_run hc, ih, hbyte, List.replicate_succ, List.cons_append]
    rw [show cnt - 1 = k by omega, hrun]
  | case3 c s hc ih =>
    rw [xEncode, if_neg hc, xDecode_cons (Bool.eq_false_iff.mpr hc), ih]

/-- **Runs are read back.** -/
theorem zeroDecode_zeroEncode (s : List UInt8) :
    zeroDecode (zeroEncode s) = s ∧ zeroOneDecode (zeroOneEncode s) = s :=
  ⟨xDecode_xEncode isZero s, xDecode_xEncode isZeroOrOne s⟩

end TdUtils.Text
