import Mathlib.Algebra.Group.Nat.Defs
import Mathlib.Data.List.Induction

/-!
# Lib.BigEndian — numbers as bytes, the highest byte first
-/

namespace TdUtils.Lib.BigEndian

/-- The `n` lowest bytes of `x`. -/
def toBE (n x : ℕ) : List UInt8 := (List.range n).map fun i => UInt8.ofNat (x / 256 ^ (n - 1 - i))

/-- The number with the given bytes. -/
def ofBE (bytes : List UInt8) : ℕ := bytes.foldl (fun n b => 256 * n + b.toNat) 0

@[simp] theorem length_toBE (n x : ℕ) : (toBE n x).length = n := by
  unfold toBE
  rw [List.length_map, List.length_range]

theorem toBE_succ (n x : ℕ) : toBE (n + 1) x = toBE n (x / 256) ++ [UInt8.ofNat x] := by
  unfold toBE
  rw [List.range_succ, List.map_append, List.map_singleton, Nat.add_sub_cancel, Nat.sub_self, Nat.pow_zero,
    Nat.div_one]
  congr 1
  apply List.map_congr_left
  intro i hi
  rw [List.mem_range] at hi
  have hexp : n - i = (n - 1 - i) + 1 := by omega
  rw [hexp, Nat.pow_succ', Nat.div_div_eq_div_mul]

theorem ofBE_concat (bytes : List UInt8) (b : UInt8) : ofBE (bytes ++ [b]) = 256 * ofBE bytes + b.toNat := by
  unfold ofBE
  rw [List.foldl_append, List.foldl_cons, List.foldl_nil]

theorem ofBE_cons (b : UInt8) (bytes : List UInt8) :
    ofBE (b :: bytes) = b.toNat * 256 ^ bytes.length + ofBE bytes := by
  induction bytes using List.reverseRecOn with
  | nil =>
    rw [List.length_nil, Nat.pow_zero, Nat.mul_one]
    exact Nat.zero_add b.toNat
  | append_singleton bytes c ih =>
    rw [← List.cons_append, ofBE_concat, ih, ofBE_concat, List.length_append, List.length_singleton, Nat.pow_succ',
      Nat.mul_add, Nat.add_assoc, Nat.mul_left_comm]

theorem ofBE_toBE (n : ℕ) : ∀ x, ofBE (toBE n x) = x % 256 ^ n := by
  induction n with
  | zero =>
    intro x
    rw [Nat.pow_zero, Nat.mod_one]
    rfl
  | succ n ih =>
    intro x
    have hbyte : (UInt8.ofNat x).toNat = x % 256 := UInt8.toNat_ofNat'
    rw [toBE_succ, ofBE_concat, ih, hbyte, Nat.pow_succ', Nat.mod_mul, Nat.add_comm]

theorem ofBE_lt (bytes : List UInt8) : ofBE bytes < 256 ^ bytes.length := by
  induction bytes using List.reverseRecOn with
  | nil => exact Nat.zero_lt_one
  | append_singleton bytes b ih =>
    have hb := b.toNat_lt
    rw [ofBE_concat, List.length_append, List.length_singleton, Nat.pow_succ]
    omega

theorem toBE_ofBE (bytes : List UInt8) : toBE bytes.length (ofBE bytes) = bytes := by
  induction bytes using List.reverseRecOn with
  | nil => rfl
  | append_singleton bytes b ih =>
    have hb := b.toNat_lt
    have hdiv : (256 * ofBE bytes + b.toNat) / 256 = ofBE bytes := by omega
    have hbyte : UInt8.ofNat (256 * ofBE bytes + b.toNat) = b := by
      apply UInt8.toNat_inj.mp
      rw [UInt8.toNat_ofNat']
      omega
    rw [List.length_append, List.length_singleton, toBE_succ, ofBE_concat, hdiv, ih, hbyte]

end TdUtils.Lib.BigEndian
