import Mathlib.Logic.Function.Iterate
import Mathlib.Tactic.SplitIfs

/-!
# Lib.Gf2 — additive maps of bit vectors

A map of bit vectors is additive when it takes `xor` to `xor`.  It is determined by the unit vectors, which is what a
matrix over the field of two elements stores.
-/

namespace TdUtils.Lib.Gf2

variable {w : ℕ} {f g : BitVec w → BitVec w}

def Additive (f : BitVec w → BitVec w) : Prop := ∀ a b, f (a ^^^ b) = f a ^^^ f b

theorem Additive.zero (h : Additive f) : f 0#w = 0#w := by
  have := h 0#w 0#w
  rwa [BitVec.xor_self, BitVec.xor_self] at this

theorem Additive.comp (hf : Additive f) (hg : Additive g) : Additive (f ∘ g) := fun a b => by
  rw [Function.comp_apply, hg, hf]
  rfl

theorem Additive.iterate (h : Additive f) (n : ℕ) : Additive f^[n] := by
  induction n with
  | zero => exact fun _ _ => rfl
  | succ n ih => exact ih.comp h

/-- A shift that adds a vector where a bit is set. -/
theorem Additive.xor_bit (h : Additive f) {bit : BitVec w → Bool} (hbit : ∀ a b, bit (a ^^^ b) = (bit a ^^ bit b))
    (poly : BitVec w) : Additive fun c => f c ^^^ (if bit c then poly else 0#w) := fun a b => by
  dsimp only
  rw [h, hbit]
  cases bit a <;> cases bit b
  · simp
  · simp [BitVec.xor_assoc]
  · simp only [Bool.xor_false, if_true, Bool.false_eq_true, if_false, BitVec.xor_zero]
    rw [BitVec.xor_assoc, BitVec.xor_comm (f b), BitVec.xor_assoc]
  · simp only [Bool.xor_self, if_true, Bool.false_eq_true, if_false, BitVec.xor_zero]
    rw [BitVec.xor_assoc, ← BitVec.xor_assoc poly, BitVec.xor_comm poly, BitVec.xor_assoc, BitVec.xor_self, BitVec.xor_zero]

/-- The lowest bit of a vector apart from the others, at the place `k`. -/
theorem shiftLeft_split (v : BitVec w) (k : ℕ) :
    v <<< k = (v >>> 1) <<< (k + 1) ^^^ (if v.getLsbD 0 then BitVec.twoPow w k else 0#w) := by
  apply BitVec.eq_of_getLsbD_eq
  intro i hi
  rw [BitVec.getLsbD_xor, BitVec.getLsbD_shiftLeft, BitVec.getLsbD_shiftLeft, BitVec.getLsbD_ushiftRight]
  rcases Nat.lt_trichotomy i k with h | rfl | h
  · split_ifs <;> simp [h, show ¬k = i by omega, show i < k + 1 by omega]
  · split_ifs with h0 <;> simp [h0, hi]
  · have hindex : 1 + (i - (k + 1)) = i - k := by omega
    split_ifs <;> simp [hi, hindex, show ¬i = k by omega, show ¬i < k by omega, show ¬i < k + 1 by omega]

/-- What an additive map makes of a vector at the place `k`: the image of its lowest bit and of the others. -/
theorem Additive.shiftLeft (h : Additive f) (v : BitVec w) (k : ℕ) :
    f (v <<< k) = f ((v >>> 1) <<< (k + 1)) ^^^ (if v.getLsbD 0 then f (BitVec.twoPow w k) else 0#w) := by
  rw [shiftLeft_split, h]
  split_ifs
  · rfl
  · rw [h.zero]

end TdUtils.Lib.Gf2
