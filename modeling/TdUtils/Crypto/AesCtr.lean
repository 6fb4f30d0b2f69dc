import Mathlib.Algebra.Group.Nat.Defs
import Mathlib.Data.List.Basic
import Mathlib.Tactic.SplitIfs

/-!
# Crypto.AesCtr — AES in counter mode, over any number of pieces

The block cipher is a function `E` on blocks.  The keystream is computed 32 blocks at a time; `Streamed`
says how far a state has come in it.
-/

namespace TdUtils

/-- The two words as `big_endian_to_host64` reads them. -/
structure AesBlock where
  hi : BitVec 64
  lo : BitVec 64
deriving DecidableEq

namespace AesBlock

def toNat (b : AesBlock) : ℕ := b.hi.toNat * 2 ^ 64 + b.lo.toNat

/-- The block of a number modulo `2 ^ 128`. -/
def ofNat (n : ℕ) : AesBlock := ⟨BitVec.ofNat 64 (n / 2 ^ 64), BitVec.ofNat 64 n⟩

/-- The 16 bytes of the block in memory. -/
def raw (b : AesBlock) : List UInt8 :=
  (List.range 16).map fun i => UInt8.ofNat (b.toNat / 256 ^ (15 - i))

def inc (b : AesBlock) : AesBlock :=
  let lo := b.lo + 1
  ⟨if lo = 0 then b.hi + 1 else b.hi, lo⟩

end AesBlock

/-- `XorBytes::run`. -/
def xorBytes (a b : List UInt8) : List UInt8 := List.zipWith (· ^^^ ·) a b

namespace AesCtrCounterPack

def blockCount : ℕ := 32

def size : ℕ := 16 * blockCount

/-- The blocks after `init`: each is the one before, incremented. -/
def init : ℕ → AesBlock → List AesBlock
  | 0, _ => []
  | n + 1, block => block :: init n block.inc

end AesCtrCounterPack

/-- `encryptedCounter` are the bytes of the pack, `current` is the position in them. -/
structure AesCtrState where
  counter : AesBlock
  encryptedCounter : List UInt8
  current : ℕ
deriving DecidableEq

namespace AesCtrState

variable (E : AesBlock → AesBlock)

def fill (s : AesCtrState) : AesCtrState :=
  let blocks := AesCtrCounterPack.init AesCtrCounterPack.blockCount s.counter
  ⟨(blocks.getLastD s.counter).inc, blocks.flatMap fun block => (E block).raw, 0⟩

/-- With the key in `E`. -/
def init (iv : AesBlock) : AesCtrState := fill E ⟨iv, [], 0⟩

/-- The loop of `encrypt`: the new state and the bytes written. -/
def encryptLoop : ℕ → AesCtrState → List UInt8 → Option (AesCtrState × List UInt8)
  | 0, s, src => if src = [] then some (s, []) else none
  | fuel + 1, s, src =>
    if src = [] then some (s, [])
    else
      let s := if AesCtrCounterPack.size - s.current = 0 then fill E s else s
      let minN := min src.length (AesCtrCounterPack.size - s.current)
      (encryptLoop fuel { s with current := s.current + minN } (src.drop minN)).map fun (t, dst) =>
        (t, xorBytes (src.take minN) ((s.encryptedCounter.drop s.current).take minN) ++ dst)

def encrypt (s : AesCtrState) (src : List UInt8) : Option (AesCtrState × List UInt8) :=
  encryptLoop E src.length s src

/-! ### The keystream -/

/-- Byte `k` of `E(iv), E(iv + 1), ...`. -/
def keystream (iv : AesBlock) (k : ℕ) : UInt8 :=
  (E (.ofNat (iv.toNat + k / 16))).raw.getD (k % 16) 0

/-- The bytes in counter mode, from byte `n` of the keystream on. -/
def ctr (iv : AesBlock) (n : ℕ) (bytes : List UInt8) : List UInt8 :=
  bytes.mapIdx fun i b => b ^^^ keystream E iv (n + i)

variable {E : AesBlock → AesBlock} {iv : AesBlock}

@[simp] theorem ctr_nil (n : ℕ) : ctr E iv n [] = [] := rfl

@[simp] theorem length_ctr (n : ℕ) (bytes : List UInt8) : (ctr E iv n bytes).length = bytes.length :=
  List.length_mapIdx

theorem ctr_append (E : AesBlock → AesBlock) (iv : AesBlock) (n : ℕ) (a b : List UInt8) :
    ctr E iv n (a ++ b) = ctr E iv n a ++ ctr E iv (n + a.length) b := by
  unfold ctr
  rw [List.mapIdx_append]
  simp only [Nat.add_assoc, Nat.add_comm a.length]

theorem ctr_eq_xorBytes {n : ℕ} {bytes key : List UInt8}
    (h : key = (List.range bytes.length).map fun i => keystream E iv (n + i)) :
    xorBytes bytes key = ctr E iv n bytes := by
  subst h
  apply List.ext_getElem
  · simp [xorBytes, ctr]
  · intro i h₁ h₂
    simp [xorBytes, ctr]

/-! ### The counter -/

theorem inc_ofNat (n : ℕ) : (AesBlock.ofNat n).inc = .ofNat (n + 1) := by
  have hlo : BitVec.ofNat 64 n + 1 = BitVec.ofNat 64 (n + 1) := (BitVec.ofNat_add n 1).symm
  have hzero : BitVec.ofNat 64 (n + 1) = 0 ↔ (n + 1) % 2 ^ 64 = 0 := by
    rw [← BitVec.toNat_inj, BitVec.toNat_ofNat]
    rfl
  unfold AesBlock.inc AesBlock.ofNat
  dsimp only
  rw [hlo]
  split_ifs with h
  · rw [hzero] at h
    have hhi : (n + 1) / 2 ^ 64 = n / 2 ^ 64 + 1 := by omega
    rw [hhi]
    exact congrArg (AesBlock.mk · _) (BitVec.ofNat_add _ 1).symm
  · rw [hzero] at h
    have hhi : (n + 1) / 2 ^ 64 = n / 2 ^ 64 := by omega
    rw [hhi]

theorem ofNat_toNat (b : AesBlock) : AesBlock.ofNat b.toNat = b := by
  have hlo := b.lo.isLt
  have hhi : (b.hi.toNat * 2 ^ 64 + b.lo.toNat) / 2 ^ 64 = b.hi.toNat := by omega
  have hlow : BitVec.ofNat 64 (b.hi.toNat * 2 ^ 64 + b.lo.toNat) = b.lo := by
    apply BitVec.eq_of_toNat_eq
    rw [BitVec.toNat_ofNat]
    omega
  unfold AesBlock.ofNat AesBlock.toNat
  rw [hhi, hlow, BitVec.ofNat_toNat, BitVec.setWidth_eq]

@[simp] theorem length_raw (b : AesBlock) : b.raw.length = 16 := by
  unfold AesBlock.raw
  rw [List.length_map, List.length_range]

theorem init_eq (n m : ℕ) : AesCtrCounterPack.init n (.ofNat m) =
    (List.range n).map fun i => AesBlock.ofNat (m + i) := by
  induction n generalizing m with
  | zero => rfl
  | succ n ih =>
    rw [AesCtrCounterPack.init, inc_ofNat, ih, List.range_succ_eq_map, List.map_cons, List.map_map]
    congr 1
    apply List.map_congr_left
    intro i _
    show AesBlock.ofNat (m + 1 + i) = AesBlock.ofNat (m + (i + 1))
    rw [Nat.add_assoc, Nat.add_comm 1 i]

/-- The bytes of consecutive blocks are consecutive bytes of the keystream. -/
theorem blocks_eq (m n : ℕ) :
    ((List.range n).map fun i => AesBlock.ofNat (iv.toNat + m + i)).flatMap (fun block => (E block).raw) =
      (List.range (16 * n)).map fun i => keystream E iv (16 * m + i) := by
  induction n with
  | zero => rfl
  | succ n ih =>
    have hbytes : (E (.ofNat (iv.toNat + m + n))).raw =
        (List.range 16).map fun i => keystream E iv (16 * m + (16 * n + i)) := by
      apply List.ext_getElem
      · rw [length_raw, List.length_map, List.length_range]
      · intro i hi _
        rw [length_raw] at hi
        rw [List.getElem_map, List.getElem_range]
        have hdiv : (16 * m + (16 * n + i)) / 16 = m + n := by omega
        have hmod : (16 * m + (16 * n + i)) % 16 = i := by omega
        unfold keystream
        rw [hdiv, hmod, ← Nat.add_assoc, List.getD_eq_getElem?_getD, List.getElem?_eq_getElem,
          Option.getD_some]
    rw [List.range_succ, List.map_append, List.flatMap_append, ih, List.map_singleton,
      List.flatMap_singleton, hbytes, Nat.mul_succ, List.range_add, List.map_append, List.map_map]
    rfl

/-- `n` bytes have been encrypted; the pack holds the keystream around. -/
structure Streamed (E : AesBlock → AesBlock) (iv : AesBlock) (s : AesCtrState) (n : ℕ) : Prop where
  pack : ∃ m, s.counter = .ofNat (iv.toNat + (m + 32)) ∧ 16 * m + s.current = n ∧
    s.encryptedCounter = (List.range 512).map fun i => keystream E iv (16 * m + i)
  current : s.current ≤ 512

theorem streamed_fill {s : AesCtrState} {m : ℕ} (h : s.counter = .ofNat (iv.toNat + m)) :
    Streamed E iv (fill E s) (16 * m) := by
  have hblocks := init_eq AesCtrCounterPack.blockCount (iv.toNat + m)
  rw [← h] at hblocks
  refine ⟨⟨m, ?_, rfl, ?_⟩, Nat.zero_le _⟩
  · unfold fill
    dsimp only
    rw [hblocks]
    have hlast : ((List.range AesCtrCounterPack.blockCount).map fun i =>
        AesBlock.ofNat (iv.toNat + m + i)).getLastD s.counter = .ofNat (iv.toNat + m + 31) := by
      unfold AesCtrCounterPack.blockCount
      rw [List.range_succ, List.map_append, List.map_singleton, List.getLastD_concat]
    have hnext : iv.toNat + m + 31 + 1 = iv.toNat + (m + 32) := by omega
    rw [hlast, inc_ofNat, hnext]
  · unfold fill
    dsimp only
    rw [hblocks]
    exact blocks_eq m 32

theorem streamed_init : Streamed E iv (init E iv) 0 := by
  have hcounter : (⟨iv, [], 0⟩ : AesCtrState).counter = .ofNat (iv.toNat + 0) := by
    rw [Nat.add_zero, ofNat_toNat]
  have hfill := streamed_fill (E := E) hcounter
  rw [Nat.mul_zero] at hfill
  unfold init
  exact hfill

/-- A piece of the pack is a piece of the keystream. -/
theorem Streamed.piece {s : AesCtrState} {n k : ℕ} (h : Streamed E iv s n) (hk : k ≤ 512 - s.current) :
    (s.encryptedCounter.drop s.current).take k = (List.range k).map fun i => keystream E iv (n + i) := by
  obtain ⟨m, -, hn, hpack⟩ := h.pack
  have hcurrent := h.current
  rw [hpack]
  apply List.ext_getElem
  · simp only [List.length_take, List.length_drop, List.length_map, List.length_range]
    omega
  · intro i _ _
    simp only [List.getElem_take, List.getElem_drop, List.getElem_map, List.getElem_range]
    rw [← hn, Nat.add_assoc]

/-- Encryption goes on with the keystream where it stopped. -/
theorem encryptLoop_spec (fuel : ℕ) :
    ∀ {s : AesCtrState} {n : ℕ} (src : List UInt8), Streamed E iv s n → src.length ≤ fuel →
      ∃ t, encryptLoop E fuel s src = some (t, ctr E iv n src) ∧ Streamed E iv t (n + src.length) := by
  induction fuel with
  | zero =>
    intro s n src h hlen
    obtain rfl : src = [] := List.eq_nil_of_length_eq_zero (Nat.le_zero.mp hlen)
    exact ⟨s, rfl, h⟩
  | succ fuel ih =>
    intro s n src h hlen
    rw [encryptLoop]
    by_cases hnil : src = []
    · subst hnil
      exact ⟨s, rfl, h⟩
    · have hpos : 0 < src.length := List.length_pos_iff.mpr hnil
      rw [if_neg hnil]
      dsimp only
      have hfilled : ∃ s', (if AesCtrCounterPack.size - s.current = 0 then fill E s else s) = s' ∧
          Streamed E iv s' n ∧ 0 < 512 - s'.current := by
        have hsize : AesCtrCounterPack.size = 512 := rfl
        have hcurrent := h.current
        rw [hsize]
        split_ifs with hleft
        · obtain ⟨m, hcounter, hn, -⟩ := h.pack
          have hn' : n = 16 * (m + 32) := by omega
          exact ⟨_, rfl, hn' ▸ streamed_fill hcounter, Nat.zero_lt_succ _⟩
        · exact ⟨s, rfl, h, by omega⟩
      obtain ⟨s', hs', h', hleft⟩ := hfilled
      rw [hs']
      generalize hmin : min src.length (AesCtrCounterPack.size - s'.current) = k
      have hsize : AesCtrCounterPack.size = 512 := rfl
      rw [hsize] at hmin
      have hk : k ≤ 512 - s'.current := by omega
      have hmoved : Streamed E iv { s' with current := s'.current + k } (n + k) := by
        obtain ⟨m, hcounter, hn, hpack⟩ := h'.pack
        refine ⟨⟨m, hcounter, ?_, hpack⟩, ?_⟩ <;> dsimp only <;> omega
      have htake : (src.take k).length = k := by
        rw [List.length_take]
        omega
      obtain ⟨t, hrun, ht⟩ := ih (src.drop k) hmoved (by rw [List.length_drop]; omega)
      rw [hrun, Option.map_some]
      refine ⟨t, ?_, ?_⟩
      · have hpiece := h'.piece hk
        have hfirst : xorBytes (src.take k) ((s'.encryptedCounter.drop s'.current).take k) =
            ctr E iv n (src.take k) := ctr_eq_xorBytes (by rw [htake, hpiece])
        have happend := ctr_append E iv n (src.take k) (src.drop k)
        rw [List.take_append_drop, htake] at happend
        rw [hfirst, happend]
      · rw [List.length_drop] at ht
        have hlen' : n + k + (src.length - k) = n + src.length := by omega
        rwa [hlen'] at ht

theorem encrypt_spec {s : AesCtrState} {n : ℕ} (h : Streamed E iv s n) (src : List UInt8) :
    ∃ t, encrypt E s src = some (t, ctr E iv n src) ∧ Streamed E iv t (n + src.length) :=
  encryptLoop_spec _ src h (Nat.le_refl _)

end AesCtrState

end TdUtils
