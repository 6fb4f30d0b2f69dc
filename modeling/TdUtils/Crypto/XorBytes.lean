import TdUtils.Crypto.AesCtr
import TdUtils.Lib.Memory

/-!
# Crypto.XorBytes — the xor of two byte ranges, in blocks and a tail

`a` and `c` are addresses in the memory of the caller, which may be the same; `b` are bytes of the pack.
-/

namespace TdUtils.XorBytes

open Lib (Memory)

def blockSize : ℕ := 16

/-- `while (block_cnt-- > 0)`. -/
def blocks : ℕ → Memory → ℕ → List UInt8 → ℕ → Memory
  | 0, mem, _, _, _ => mem
  | blockCnt + 1, mem, a, b, c =>
    blocks blockCnt (mem.store c (xorBytes (mem.load a blockSize) (b.take blockSize))) (a + blockSize)
      (b.drop blockSize) (c + blockSize)

/-- `while (n-- > 0)`, from the last byte to the first. -/
def tail : ℕ → Memory → ℕ → List UInt8 → ℕ → Memory
  | 0, mem, _, _, _ => mem
  | n + 1, mem, a, b, c => tail n (mem.store (c + n) [mem (a + n) ^^^ b.getD n 0]) a b c

def run (mem : Memory) (a : ℕ) (b : List UInt8) (c n : ℕ) : Memory :=
  let blockCnt := n / blockSize
  tail (n - blockCnt * blockSize) (blocks blockCnt mem a b c) (a + blockCnt * blockSize)
    (b.drop (blockCnt * blockSize)) (c + blockCnt * blockSize)

/-- In place, or not touching. -/
def Apart (a c n : ℕ) : Prop := a = c ∨ a + n ≤ c ∨ c + n ≤ a

instance (a c n : ℕ) : Decidable (Apart a c n) := inferInstanceAs (Decidable (_ ∨ _ ∨ _))

@[simp] theorem length_xorBytes (a b : List UInt8) : (xorBytes a b).length = min a.length b.length :=
  List.length_zipWith

theorem xorBytes_append {a b : List UInt8} (a' b' : List UInt8) (h : a.length = b.length) :
    xorBytes (a ++ a') (b ++ b') = xorBytes a b ++ xorBytes a' b' :=
  List.zipWith_append h

variable {mem : Memory} {a c n : ℕ} {b : List UInt8}

theorem Apart.left {m : ℕ} (h : Apart a c (m + n)) : Apart a c m := by
  unfold Apart at h ⊢
  omega

theorem Apart.right {m : ℕ} (h : Apart a c (m + n)) : Apart (a + m) (c + m) n := by
  unfold Apart at h ⊢
  omega

/-- What is written first does not reach what is read later. -/
theorem Apart.load_right {m : ℕ} {bytes : List UInt8} (h : Apart a c (m + n)) (hlen : bytes.length = m) :
    (mem.store c bytes).load (a + m) n = mem.load (a + m) n := by
  unfold Apart at h
  apply Memory.load_store_of_apart
  omega

theorem Apart.load_left {m : ℕ} {bytes : List UInt8} (h : Apart a c (m + n)) (hlen : bytes.length = n) :
    (mem.store (c + m) bytes).load a m = mem.load a m := by
  unfold Apart at h
  apply Memory.load_store_of_apart
  omega

/-- The xor of two pieces, the left one written first. -/
theorem store_xorBytes_add {m : ℕ} (h : Apart a c (m + n)) (hb : m + n ≤ b.length) :
    (mem.store c (xorBytes (mem.load a m) (b.take m))).store (c + m)
        (xorBytes ((mem.store c (xorBytes (mem.load a m) (b.take m))).load (a + m) n) ((b.drop m).take n)) =
      mem.store c (xorBytes (mem.load a (m + n)) (b.take (m + n))) := by
  have hlen : (b.take m).length = m := by
    rw [List.length_take]
    omega
  have hfirst : (xorBytes (mem.load a m) (b.take m)).length = m := by
    rw [length_xorBytes, Memory.length_load, hlen, Nat.min_self]
  rw [h.load_right hfirst, Memory.load_add, List.take_add,
    xorBytes_append _ _ ((Memory.length_load _ _ _).trans hlen.symm), Memory.store_append, hfirst]

theorem blocks_spec (k : ℕ) :
    ∀ {mem a b c}, Apart a c (k * blockSize) → k * blockSize ≤ b.length →
      blocks k mem a b c = mem.store c (xorBytes (mem.load a (k * blockSize)) (b.take (k * blockSize))) := by
  induction k with
  | zero =>
    intro mem a b c _ _
    rw [Nat.zero_mul]
    exact (Memory.store_nil mem c).symm
  | succ k ih =>
    intro mem a b c h hb
    have hsum : (k + 1) * blockSize = blockSize + k * blockSize := by
      rw [Nat.succ_mul, Nat.add_comm]
    rw [hsum] at h hb ⊢
    rw [blocks, ih h.right (by rw [List.length_drop]; omega)]
    exact store_xorBytes_add h hb

theorem tail_spec (k : ℕ) :
    ∀ {mem : Memory}, Apart a c k → k ≤ b.length →
      tail k mem a b c = mem.store c (xorBytes (mem.load a k) (b.take k)) := by
  induction k with
  | zero =>
    intro mem _ _
    exact (Memory.store_nil mem c).symm
  | succ k ih =>
    intro mem h hb
    have hlen : (b.take k).length = k := by
      rw [List.length_take]
      omega
    have hpiece : (xorBytes (mem.load a k) (b.take k)).length = k := by
      rw [length_xorBytes, Memory.length_load, hlen, Nat.min_self]
    have hlast : [mem (a + k) ^^^ b.getD k 0] = xorBytes (mem.load (a + k) 1) ((b.drop k).take 1) := by
      rw [List.drop_eq_getElem_cons hb, List.getD_eq_getElem _ _ hb]
      rfl
    rw [tail, ih h.left (Nat.le_of_succ_le hb), h.load_left rfl, Memory.load_add, List.take_add,
      xorBytes_append _ _ ((Memory.length_load _ _ _).trans hlen.symm), Memory.store_append', hpiece, hlast]

/-- The loops compute the xor, also in place. -/
theorem run_spec (h : Apart a c n) (hb : n ≤ b.length) :
    run mem a b c n = mem.store c (xorBytes (mem.load a n) (b.take n)) := by
  have hsum : n / blockSize * blockSize + (n - n / blockSize * blockSize) = n :=
    Nat.add_sub_cancel' (Nat.div_mul_le_self n blockSize)
  rw [← hsum] at h hb
  have hblocks := fun m => @blocks_spec (n / blockSize) m a b c h.left (Nat.le_trans (Nat.le_add_right _ _) hb)
  unfold run
  dsimp only
  rw [hblocks, tail_spec _ h.right (by rw [List.length_drop]; omega), store_xorBytes_add h hb, hsum]

end TdUtils.XorBytes
