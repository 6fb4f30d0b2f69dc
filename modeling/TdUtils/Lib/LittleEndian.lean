import Mathlib.Data.List.Basic
import Mathlib.Tactic.Ring

/-!
# Lib.LittleEndian — numbers as bytes, the lowest byte first

`toLE n x` are the `n` lowest bytes of `x`, `ofLE` is the number that bytes stand for; on numbers
that fit into `n` bytes they are inverse to each other.
-/

namespace TdUtils.Lib.LittleEndian

/-- The `n` lowest bytes of `x`. -/
def toLE : ℕ → ℕ → List UInt8
  | 0, _ => []
  | n + 1, x => UInt8.ofNat (x % 256) :: toLE n (x / 256)

/-- The number with the given bytes. -/
def ofLE : List UInt8 → ℕ
  | [] => 0
  | b :: bs => b.toNat + 256 * ofLE bs

@[simp] theorem length_toLE : ∀ n x, (toLE n x).length = n
  | 0, _ => rfl
  | n + 1, x => by simp [toLE, length_toLE n]

theorem ofLE_toLE : ∀ n x, ofLE (toLE n x) = x % 256 ^ n
  | 0, x => by simp [toLE, ofLE, Nat.mod_one]
  | n + 1, x => by
    have hb : (UInt8.ofNat (x % 256)).toNat = x % 256 := by simp
    rw [toLE, ofLE, hb, ofLE_toLE n, Nat.pow_succ', Nat.mod_mul]

theorem ofLE_toLE_of_lt {n x : ℕ} (h : x < 256 ^ n) : ofLE (toLE n x) = x := by
  rw [ofLE_toLE, Nat.mod_eq_of_lt h]

theorem ofLE_lt : ∀ bs : List UInt8, ofLE bs < 256 ^ bs.length
  | [] => by simp [ofLE]
  | b :: bs => by
    have hb := b.toNat_lt
    have h := ofLE_lt bs
    simp only [ofLE, List.length_cons, Nat.pow_succ]
    omega

theorem ofLE_append : ∀ bs bs' : List UInt8, ofLE (bs ++ bs') = ofLE bs + 256 ^ bs.length * ofLE bs'
  | [], bs' => by simp [ofLE]
  | b :: bs, bs' => by
    rw [List.cons_append, ofLE, ofLE_append bs bs', ofLE, List.length_cons, Nat.pow_succ']
    ring

theorem ofLE_replicate_zero : ∀ n, ofLE (List.replicate n 0) = 0
  | 0 => rfl
  | n + 1 => by simp [List.replicate_succ, ofLE, ofLE_replicate_zero n]

end TdUtils.Lib.LittleEndian
