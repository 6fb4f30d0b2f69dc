import Mathlib.Data.List.Basic
import TdUtils.Lib.Gf2

/-!
# Lib.Crc — cyclic redundancy checks

A reflected check with any polynomial: `step` takes one bit through the register, and `crc` takes the bytes through it
between two complements.  The register after some bytes is additive in the register before them, so the check of two
strings is put together from theirs.  `stepMsb` is the step of a check that is not reflected.  Both take a byte through the
register at once when there is a table of what eight steps make of a byte.
-/

namespace TdUtils.Lib.Crc

open Gf2

variable {w : ℕ} (poly : BitVec w)

/-- One zero bit. -/
def step (c : BitVec w) : BitVec w := c >>> 1 ^^^ (if c.getLsbD 0 then poly else 0#w)

def byte (c : BitVec w) (b : UInt8) : BitVec w := (step poly)^[8] (c ^^^ BitVec.ofNat w b.toNat)

def register (c : BitVec w) (data : List UInt8) : BitVec w := data.foldl (byte poly) c

def crc (data : List UInt8) : BitVec w := ~~~register poly (BitVec.allOnes w) data

theorem step_additive : Additive (step poly) :=
  Additive.xor_bit (fun _ _ => BitVec.ushiftRight_xor_distrib _ _ _) (fun _ _ => BitVec.getLsbD_xor) poly

/-- A change of the register goes through the bytes as through as many zero bits. -/
theorem register_xor (c d : BitVec w) (data : List UInt8) :
    register poly (c ^^^ d) data = register poly c data ^^^ (step poly)^[8 * data.length] d := by
  induction data generalizing c d with
  | nil => rfl
  | cons b data ih =>
    have hbyte : byte poly (c ^^^ d) b = byte poly c b ^^^ (step poly)^[8] d := by
      unfold byte
      rw [BitVec.xor_assoc, BitVec.xor_comm d, ← BitVec.xor_assoc, (step_additive poly).iterate 8]
    have hsteps : 8 * (data.length + 1) = 8 * data.length + 8 := rfl
    unfold register at ih ⊢
    rw [List.foldl_cons, hbyte, ih, List.foldl_cons, List.length_cons, hsteps, Function.iterate_add_apply]

theorem crc_nil : crc poly [] = 0#w := BitVec.not_allOnes

/-- The check of two strings, from the check of each and the length of the second. -/
theorem crc_append (a b : List UInt8) :
    crc poly (a ++ b) = (step poly)^[8 * b.length] (crc poly a) ^^^ crc poly b := by
  have hregister : register poly (BitVec.allOnes w) a = BitVec.allOnes w ^^^ crc poly a := by
    rw [BitVec.allOnes_xor, crc, BitVec.not_not]
  have happend : register poly (BitVec.allOnes w) (a ++ b) =
      register poly (register poly (BitVec.allOnes w) a) b := List.foldl_append
  have hcrc : crc poly b = ~~~register poly (BitVec.allOnes w) b := rfl
  rw [crc, happend, hregister, register_xor, hcrc, BitVec.not_xor_left, BitVec.xor_comm]

/-! ### The highest bit first -/

/-- One zero bit, in a check that is not reflected. -/
def stepMsb (c : BitVec w) : BitVec w := c <<< 1 ^^^ (if c.msb then poly else 0#w)

def byteMsb (c : BitVec w) (b : UInt8) : BitVec w := (stepMsb poly)^[8] (c ^^^ BitVec.ofNat w b.toNat <<< (w - 8))

def registerMsb (c : BitVec w) (data : List UInt8) : BitVec w := data.foldl (byteMsb poly) c

theorem stepMsb_additive : Additive (stepMsb poly) :=
  Additive.xor_bit (fun _ _ => BitVec.shiftLeft_xor_distrib _ _ _) (fun _ _ => BitVec.msb_xor) poly

/-! ### A byte at a time -/

theorem getLsbD_255 (i : ℕ) : (255#w).getLsbD i = decide (i < w ∧ i < 8) := by
  have h255 : 255 = 2 ^ 8 - 1 := rfl
  rw [BitVec.getLsbD_ofNat, h255, Nat.testBit_two_pow_sub_one, Bool.decide_and]

theorem getLsbD_byte (b : UInt8) {i : ℕ} (h : 8 ≤ i) : (BitVec.ofNat w b.toNat).getLsbD i = false := by
  rw [BitVec.getLsbD_ofNat, Nat.testBit_lt_two_pow (Nat.lt_of_lt_of_le b.toNat_lt (Nat.pow_le_pow_right (by decide) h)),
    Bool.and_false]

/-- Zero bits at the end only leave the register. -/
theorem iterate_step (c : BitVec w) : ∀ k : ℕ, (∀ i < k, c.getLsbD i = false) → (step poly)^[k] c = c >>> k
  | 0, _ => (BitVec.ushiftRight_zero c).symm
  | k + 1, h => by
    have hlow : (c >>> k).getLsbD 0 = false := by
      rw [BitVec.getLsbD_ushiftRight]
      exact h k (Nat.lt_succ_self k)
    rw [Function.iterate_succ_apply', iterate_step c k fun i hi => h i (Nat.lt_succ_of_lt hi), step, hlow,
      if_neg Bool.false_ne_true, BitVec.xor_zero, ← BitVec.shiftRight_add]

theorem iterate_stepMsb (c : BitVec w) : ∀ k : ℕ, (∀ i < k, c.getMsbD i = false) → (stepMsb poly)^[k] c = c <<< k
  | 0, _ => (BitVec.shiftLeft_zero c).symm
  | k + 1, h => by
    have hhigh : (c <<< k).msb = false := by
      rw [BitVec.msb, BitVec.getMsbD_shiftLeft]
      exact h _ (by omega)
    rw [Function.iterate_succ_apply', iterate_stepMsb c k fun i hi => h i (Nat.lt_succ_of_lt hi), stepMsb, hhigh,
      if_neg Bool.false_ne_true, BitVec.xor_zero, ← BitVec.shiftLeft_add]

/-- A byte goes through the register with what eight steps make of the lowest byte. -/
theorem byte_table (c : BitVec w) (b : UInt8) :
    byte poly c b = (step poly)^[8] ((c ^^^ BitVec.ofNat w b.toNat) &&& 255#w) ^^^ c >>> 8 := by
  have hsplit : ∀ x : BitVec w, x = (x &&& 255#w) ^^^ (x ^^^ (x &&& 255#w)) := fun x => by
    rw [BitVec.xor_comm x, ← BitVec.xor_assoc, BitVec.xor_self, BitVec.zero_xor]
  have hrest : ∀ (x : BitVec w) (i : ℕ), (x ^^^ (x &&& 255#w)).getLsbD i = (x.getLsbD i && decide (8 ≤ i)) := by
    intro x i
    rw [BitVec.getLsbD_xor, BitVec.getLsbD_and, getLsbD_255]
    by_cases hi : i < 8
    · by_cases hw : i < w
      · simp [hi, hw, Nat.not_le.mpr hi]
      · simp [BitVec.getLsbD_of_ge x i (Nat.not_lt.mp hw)]
    · simp [hi, Nat.not_lt.mp hi]
  rw [byte, hsplit (c ^^^ _), (step_additive poly).iterate 8, ← hsplit]
  congr 1
  rw [iterate_step poly _ 8 fun i hi => by rw [hrest, decide_eq_false (Nat.not_le.mpr hi), Bool.and_false]]
  apply BitVec.eq_of_getLsbD_eq
  intro i _
  rw [BitVec.getLsbD_ushiftRight, BitVec.getLsbD_ushiftRight, hrest, decide_eq_true (Nat.le_add_right 8 i), Bool.and_true,
    BitVec.getLsbD_xor, getLsbD_byte b (Nat.le_add_right 8 i), Bool.xor_false]

/-- A byte goes through the register with what eight steps make of the highest byte. -/
theorem byteMsb_table (hw : 8 ≤ w) (c : BitVec w) (b : UInt8) :
    byteMsb poly c b =
      (stepMsb poly)^[8] (((c >>> (w - 8) ^^^ BitVec.ofNat w b.toNat) &&& 255#w) <<< (w - 8)) ^^^ c <<< 8 := by
  let x := c ^^^ BitVec.ofNat w b.toNat <<< (w - 8)
  let high := ((c >>> (w - 8) ^^^ BitVec.ofNat w b.toNat) &&& 255#w) <<< (w - 8)
  have hsplit : x = high ^^^ (x ^^^ high) := by
    rw [BitVec.xor_comm x, ← BitVec.xor_assoc, BitVec.xor_self, BitVec.zero_xor]
  have hrest : ∀ i < w, (x ^^^ high).getLsbD i = (c.getLsbD i && decide (i < w - 8)) := by
    intro i hi
    simp only [x, high, BitVec.getLsbD_xor, BitVec.getLsbD_shiftLeft, BitVec.getLsbD_and, BitVec.getLsbD_ushiftRight,
      getLsbD_255]
    by_cases hlow : i < w - 8
    · simp [hi, hlow]
    · have hback : w - 8 + (i - (w - 8)) = i := by omega
      have hbyte : i - (w - 8) < w ∧ i - (w - 8) < 8 := by omega
      simp [hi, hlow, hback, hbyte]
  change (stepMsb poly)^[8] x = _
  rw [hsplit, (stepMsb_additive poly).iterate 8, iterate_stepMsb poly (x ^^^ high) 8 fun i hi => ?_]
  · congr 1
    apply BitVec.eq_of_getLsbD_eq
    intro i hi
    rw [BitVec.getLsbD_shiftLeft, BitVec.getLsbD_shiftLeft]
    by_cases hlow : i < 8
    · simp [hlow]
    · rw [hrest (i - 8) (by omega), decide_eq_true (show i - 8 < w - 8 by omega), Bool.and_true]
  · rw [BitVec.getMsbD_eq_getLsbD, hrest _ (by omega), decide_eq_false (show ¬w - 1 - i < w - 8 by omega),
      Bool.and_false, Bool.and_false]

end TdUtils.Lib.Crc
