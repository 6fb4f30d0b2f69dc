import Mathlib.Algebra.Group.Nat.Defs
import TdUtils.Lib.Crc
import TdUtils.Lib.Loops

/-!
# Crypto.Crc32c — CRC-32C of strings put together

`crc32c_extend` takes the check of the first string through as many zero bytes as the second one has, by the matrices of
`2 ^ n` zero bits, which lie one behind the other in one array.  A place outside the array makes a function fail.
-/

namespace TdUtils.Crc32c

open Lib Gf2 Crc

def poly : BitVec 32 := 0x82F63B78

/-! ### The functions -/

/-- The loop of `gf32_matrix_times`. -/
def timesLoop (buf : List (BitVec 32)) (matrix : ℕ) (sum vector : BitVec 32) : Option (BitVec 32) :=
  if vector = 0 then some sum
  else
    (if vector &&& 1 ≠ 0 then (buf[matrix]?).map fun x => sum ^^^ x else some sum).bind fun sum =>
      timesLoop buf (matrix + 1) sum (vector >>> 1)
termination_by vector.toNat
decreasing_by
  rename_i h
  have hne : vector.toNat ≠ 0 := fun h0 => h (BitVec.eq_of_toNat_eq h0)
  rw [BitVec.toNat_ushiftRight, Nat.shiftRight_eq_div_pow]
  omega

def gf32MatrixTimes (buf : List (BitVec 32)) (matrix : ℕ) (vector : BitVec 32) : Option (BitVec 32) :=
  timesLoop buf matrix 0 vector

def write (buf : List (BitVec 32)) (i : ℕ) (x : BitVec 32) : Option (List (BitVec 32)) :=
  if i < buf.length then some (buf.set i x) else none

def gf32MatrixSquare (buf : List (BitVec 32)) (square matrix : ℕ) : Option (List (BitVec 32)) :=
  (List.range' 0 32).foldlM (fun buf n => do
    write buf (square + n) (← gf32MatrixTimes buf matrix (← buf[matrix + n]?))) buf

/-- The matrix of one zero bit. -/
def firstMatrix (buf : List (BitVec 32)) : Option (List (BitVec 32)) :=
  (write buf 0 poly).bind fun buf => (List.range' 0 31).foldlM (fun buf n => write buf (n + 1) (1 <<< n)) buf

/-- What is in `power_buf_raw` after its initialization. -/
def powerBuf : Option (List (BitVec 32)) :=
  (firstMatrix (List.replicate 1024 0)).bind fun buf =>
    (List.range' 1 31).foldlM (fun buf n => gf32MatrixSquare buf (n <<< 5) ((n - 1) <<< 5)) buf

/-- The loop of `crc32c_extend`. -/
def extendLoop (powerBuf : List (BitVec 32)) (p : ℕ) (oldCrc : BitVec 32) (dataSize : ℕ) : Option (BitVec 32) :=
  (if dataSize &&& 1 ≠ 0 then gf32MatrixTimes powerBuf (p + 32) oldCrc else some oldCrc).bind fun oldCrc =>
    if dataSize >>> 1 ≠ 0 then extendLoop powerBuf (p + 32) oldCrc (dataSize >>> 1) else some oldCrc
termination_by dataSize
decreasing_by
  rename_i h
  rw [Nat.shiftRight_eq_div_pow] at h ⊢
  omega

/-- `crc32c_extend(old_crc, data_crc, data_size)`. -/
def crc32cExtend (oldCrc dataCrc : BitVec 32) (dataSize : ℕ) : Option (BitVec 32) := do
  let powerBuf ← powerBuf
  if dataSize = 0 then return oldCrc
  return (← extendLoop powerBuf 64 oldCrc dataSize) ^^^ dataCrc

/-! ### Matrices in the array -/

section Matrices

variable {buf : List (BitVec 32)} {f : BitVec 32 → BitVec 32} {matrix square : ℕ}

/-- At `matrix` there is the image of each unit vector. -/
def Stores (buf : List (BitVec 32)) (matrix : ℕ) (f : BitVec 32 → BitVec 32) : Prop :=
  ∀ i < 32, buf[matrix + i]? = some (f (BitVec.twoPow 32 i))

theorem and_one_ne_zero_iff (v : BitVec 32) : v &&& 1 ≠ 0 ↔ v.getLsbD 0 = true := by
  have hbit : v &&& 1#32 = BitVec.setWidth 32 (BitVec.ofBool (v.getLsbD 0)) :=
    BitVec.and_one_eq_setWidth_ofBool_getLsbD
  change v &&& 1#32 ≠ 0#32 ↔ _
  rw [hbit]
  cases v.getLsbD 0 <;> decide

/-- From the bit `k` on, the loop adds the image of what is left of the vector. -/
theorem timesLoop_eq (hf : Additive f) (h : Stores buf matrix f) (v : BitVec 32) : ∀ (k : ℕ) (sum : BitVec 32),
    v.toNat < 2 ^ (32 - k) → timesLoop buf (matrix + k) sum v = some (sum ^^^ f (v <<< k)) := by
  induction hn : v.toNat using Nat.strongRecOn generalizing v with
  | _ n ih =>
    intro k sum hlt
    rw [timesLoop]
    by_cases hzero : v = 0
    · subst hzero
      rw [if_pos rfl]
      change _ = some (sum ^^^ f (0#32 <<< k))
      rw [BitVec.zero_shiftLeft, hf.zero, BitVec.xor_zero]
    · have hne : v.toNat ≠ 0 := fun h0 => hzero (BitVec.eq_of_toNat_eq h0)
      have hk : k < 32 := by
        by_contra hk
        rw [show 32 - k = 0 by omega] at hlt
        omega
      have hhalf : (v >>> 1).toNat = v.toNat / 2 := by
        rw [BitVec.toNat_ushiftRight, Nat.shiftRight_eq_div_pow]
      have hpow : 2 ^ (32 - k) = 2 * 2 ^ (32 - (k + 1)) := by
        rw [show 32 - k = 32 - (k + 1) + 1 by omega, Nat.pow_succ]
        omega
      have hrest := fun sum => ih (v >>> 1).toNat (by omega) (v >>> 1) rfl (k + 1) sum (by omega)
      rw [if_neg hzero, hf.shiftLeft v k]
      by_cases hbit : v.getLsbD 0 = true
      · rw [if_pos ((and_one_ne_zero_iff v).mpr hbit), h k hk, if_pos hbit]
        change timesLoop buf (matrix + (k + 1)) _ _ = _
        rw [hrest, BitVec.xor_assoc, BitVec.xor_comm (f _)]
      · rw [if_neg (fun h0 => hbit ((and_one_ne_zero_iff v).mp h0)), if_neg hbit, BitVec.xor_zero]
        exact hrest sum

theorem gf32MatrixTimes_eq (hf : Additive f) (h : Stores buf matrix f) (v : BitVec 32) :
    gf32MatrixTimes buf matrix v = some (f v) := by
  have := timesLoop_eq hf h v 0 0 v.isLt
  rw [BitVec.shiftLeft_zero] at this
  exact this.trans (congrArg some BitVec.zero_xor)

theorem write_eq {i : ℕ} (h : i < buf.length) (x : BitVec 32) : write buf i x = some (buf.set i x) := if_pos h

/-- Squaring writes behind the matrix that it reads. -/
theorem gf32MatrixSquare_spec (hf : Additive f) (h : Stores buf matrix f) (hbehind : matrix + 32 ≤ square)
    (hroom : square + 32 ≤ buf.length) :
    ∃ buf', gf32MatrixSquare buf square matrix = some buf' ∧ buf'.length = buf.length ∧
      (∀ i < square, buf'[i]? = buf[i]?) ∧ Stores buf' square (f ∘ f) := by
  have hstep : ∀ n (b : List (BitVec 32)), 0 ≤ n → n < 0 + 32 →
      (b.length = buf.length ∧ (∀ i < square, b[i]? = buf[i]?) ∧
        ∀ i < n, b[square + i]? = some (f (f (BitVec.twoPow 32 i)))) →
      ∃ b', (do write b (square + n) (← gf32MatrixTimes b matrix (← b[matrix + n]?))) = some b' ∧
        b'.length = buf.length ∧ (∀ i < square, b'[i]? = buf[i]?) ∧
          ∀ i < n + 1, b'[square + i]? = some (f (f (BitVec.twoPow 32 i))) := by
    rintro n b - hn ⟨hlen, hkept, hdone⟩
    have hstores : Stores b matrix f := fun i hi => (hkept _ (by omega)).trans (h i hi)
    refine ⟨b.set (square + n) (f (f (BitVec.twoPow 32 n))), ?_, by rw [List.length_set, hlen], ?_, ?_⟩
    · rw [hstores n (by omega)]
      change (gf32MatrixTimes b matrix _).bind _ = _
      rw [gf32MatrixTimes_eq hf hstores]
      exact write_eq (by omega) _
    · intro i hi
      rw [List.getElem?_set_ne (by omega), hkept i hi]
    · intro i hi
      rcases Nat.lt_succ_iff_lt_or_eq.mp hi with hi | rfl
      · rw [List.getElem?_set_ne (by omega), hdone i hi]
      · rw [List.getElem?_set_self (by omega)]
  obtain ⟨buf', hrun, hlen, hkept, hdone⟩ := Loops.foldlM_range' _ _ 32 0 buf hstep
    ⟨rfl, fun _ _ => rfl, fun i hi => absurd hi (Nat.not_lt_zero i)⟩
  exact ⟨buf', hrun, hlen, hkept, fun i hi => hdone i (by omega)⟩

end Matrices

/-! ### The table -/

/-- The first matrix takes one zero bit through the register. -/
theorem step_twoPow : step poly (BitVec.twoPow 32 0) = poly ∧
    ∀ i < 31, step poly (BitVec.twoPow 32 (i + 1)) = 1 <<< i := by
  decide

theorem firstMatrix_spec {buf : List (BitVec 32)} (hlen : buf.length = 1024) : ∃ buf', firstMatrix buf = some buf' ∧
    buf'.length = 1024 ∧ Stores buf' 0 (step poly) := by
  have hstep : ∀ n (b : List (BitVec 32)), 0 ≤ n → n < 0 + 31 →
      (b.length = 1024 ∧ ∀ i < n + 1, b[i]? = some (step poly (BitVec.twoPow 32 i))) →
      ∃ b', write b (n + 1) (1 <<< n) = some b' ∧
        b'.length = 1024 ∧ ∀ i < n + 1 + 1, b'[i]? = some (step poly (BitVec.twoPow 32 i)) := by
    rintro n b - hn ⟨hlen, hdone⟩
    refine ⟨_, write_eq (by omega) _, by rw [List.length_set, hlen], fun i hi => ?_⟩
    rcases Nat.lt_succ_iff_lt_or_eq.mp hi with hi | rfl
    · rw [List.getElem?_set_ne (by omega), hdone i hi]
    · rw [List.getElem?_set_self (by omega), step_twoPow.2 n (by omega)]
  obtain ⟨buf', hrun, hlen', hdone⟩ := Loops.foldlM_range' _ _ 31 0 (buf.set 0 poly) hstep
    ⟨by rw [List.length_set, hlen], fun i hi => by
      obtain rfl : i = 0 := by omega
      rw [List.getElem?_set_self (by omega), step_twoPow.1]⟩
  refine ⟨buf', ?_, hlen', fun i hi => ?_⟩
  · rw [firstMatrix, write_eq (by omega)]
    exact hrun
  · rw [Nat.zero_add]
    exact hdone i (by omega)

/-- The matrix at `32 * n` takes `2 ^ n` zero bits through the register. -/
theorem powerBuf_spec : ∃ buf, powerBuf = some buf ∧ buf.length = 1024 ∧
    ∀ n < 32, Stores buf (32 * n) (step poly)^[2 ^ n] := by
  obtain ⟨first, hfirst, hlen, hstores⟩ := firstMatrix_spec (List.length_replicate (n := 1024) (a := 0))
  have hstep : ∀ n (b : List (BitVec 32)), 1 ≤ n → n < 1 + 31 →
      (b.length = 1024 ∧ ∀ m < n, Stores b (32 * m) (step poly)^[2 ^ m]) →
      ∃ b', gf32MatrixSquare b (n <<< 5) ((n - 1) <<< 5) = some b' ∧
        b'.length = 1024 ∧ ∀ m < n + 1, Stores b' (32 * m) (step poly)^[2 ^ m] := by
    rintro n b hn hn' ⟨hlen, hdone⟩
    have hsquare : n <<< 5 = 32 * n := by rw [Nat.shiftLeft_eq, Nat.mul_comm]
    have hmatrix : (n - 1) <<< 5 = 32 * (n - 1) := by rw [Nat.shiftLeft_eq, Nat.mul_comm]
    have hdouble : 2 ^ n = 2 ^ (n - 1) + 2 ^ (n - 1) := by
      obtain ⟨k, rfl⟩ := Nat.exists_eq_add_of_le' hn
      rw [Nat.add_sub_cancel, Nat.pow_succ]
      omega
    obtain ⟨b', hrun, hlen', hkept, hnew⟩ := gf32MatrixSquare_spec ((step_additive poly).iterate (2 ^ (n - 1)))
      (hdone (n - 1) (by omega)) (show 32 * (n - 1) + 32 ≤ 32 * n by omega) (by omega)
    rw [hsquare, hmatrix]
    refine ⟨b', hrun, hlen'.trans hlen, fun m hm i hi => ?_⟩
    rcases Nat.lt_succ_iff_lt_or_eq.mp hm with hm | rfl
    · rw [hkept _ (by omega)]
      exact hdone m hm i hi
    · rw [hdouble, Function.iterate_add]
      exact hnew i hi
  obtain ⟨buf, hrun, hlen', hdone⟩ := Loops.foldlM_range' _ _ 31 1 first hstep ⟨hlen, fun m hm => by
    obtain rfl : m = 0 := by omega
    exact hstores⟩
  refine ⟨buf, ?_, hlen', hdone⟩
  rw [powerBuf, hfirst]
  exact hrun

/-! ### Strings -/

section Extend

variable {buf : List (BitVec 32)}

/-- The loop takes the register through `2 ^ (m + 1)` zero bits for each unit of the size. -/
theorem extendLoop_eq (h : ∀ n < 32, Stores buf (32 * n) (step poly)^[2 ^ n]) (size : ℕ) : ∀ (m : ℕ) (c : BitVec 32),
    size ≠ 0 → 2 ^ (m + 1) * size < 2 ^ 32 →
      extendLoop buf (32 * m) c size = some ((step poly)^[2 ^ (m + 1) * size] c) := by
  induction size using Nat.strongRecOn with
  | _ size ih =>
    intro m c hne hlt
    have hm : m + 1 < 32 := by
      by_contra hm
      have hpow : 2 ^ 32 ≤ 2 ^ (m + 1) := Nat.pow_le_pow_right (by omega) (by omega)
      have hle : 2 ^ (m + 1) ≤ 2 ^ (m + 1) * size := Nat.le_mul_of_pos_right _ (by omega)
      omega
    have hand : size &&& 1 = size % 2 := Nat.and_one_is_mod size
    have hshift : size >>> 1 = size / 2 := Nat.shiftRight_eq_div_pow size 1
    have hplace : 32 * m + 32 = 32 * (m + 1) := by omega
    have htimes := gf32MatrixTimes_eq ((step_additive poly).iterate (2 ^ (m + 1))) (h (m + 1) hm)
    -- the lowest bit of the size
    have hbit : (if size &&& 1 ≠ 0 then gf32MatrixTimes buf (32 * m + 32) c else some c) =
        some ((step poly)^[2 ^ (m + 1) * (size % 2)] c) := by
      rw [hand, hplace]
      rcases Nat.mod_two_eq_zero_or_one size with h0 | h1
      · rw [h0, if_neg (by omega)]
        rfl
      · rw [h1, if_pos (by omega), htimes, Nat.mul_one]
    rw [extendLoop, hbit, Option.bind_some, hshift, hplace]
    by_cases hhalf : size / 2 = 0
    · rw [if_neg (not_not.mpr hhalf), show size % 2 = size by omega]
    · have hsum : 2 ^ (m + 1) * size = 2 ^ (m + 1 + 1) * (size / 2) + 2 ^ (m + 1) * (size % 2) := by
        rw [Nat.pow_succ 2 (m + 1), Nat.mul_assoc, ← Nat.mul_add, Nat.div_add_mod]
      rw [if_pos hhalf, ih (size / 2) (by omega) (m + 1) _ hhalf (by omega), hsum, Function.iterate_add_apply]

end Extend

/-- **Checks put together.**  With a library that computes CRC-32C, the check of two strings comes from the check of
each and the length of the second, and no place outside the table is read or written. -/
theorem crc32cExtend_append (Crc32c : List UInt8 → BitVec 32) (hlib : ∀ data, Crc32c data = crc poly data)
    (a b : List UInt8) (hlt : b.length < 2 ^ 29) :
    crc32cExtend (Crc32c a) (Crc32c b) b.length = some (Crc32c (a ++ b)) := by
  obtain ⟨buf, hbuf, -, hstores⟩ := powerBuf_spec
  rw [hlib, hlib, hlib, crc_append, crc32cExtend, hbuf]
  change (if b.length = 0 then some (crc poly a) else _) = _
  by_cases hzero : b.length = 0
  · obtain rfl := List.eq_nil_of_length_eq_zero hzero
    rw [if_pos List.length_nil, crc_nil, BitVec.xor_zero]
    rfl
  · rw [if_neg hzero]
    change (extendLoop buf (32 * 2) (crc poly a) b.length).bind _ = _
    rw [extendLoop_eq hstores b.length 2 _ hzero (by omega)]
    rfl

/-- The check value of the polynomial. -/
example : crc poly [0x31, 0x32, 0x33, 0x34, 0x35, 0x36, 0x37, 0x38, 0x39] = 0xE3069283 := by decide +kernel

theorem crc32cExtend_append_digits :
    crc32cExtend (crc poly [0x31, 0x32, 0x33, 0x34]) (crc poly [0x35, 0x36, 0x37, 0x38, 0x39]) 5 =
      some (crc poly ([0x31, 0x32, 0x33, 0x34] ++ [0x35, 0x36, 0x37, 0x38, 0x39])) :=
  crc32cExtend_append (crc poly) (fun _ => rfl) [0x31, 0x32, 0x33, 0x34] [0x35, 0x36, 0x37, 0x38, 0x39] (by decide)

/-! ### The rows -/

/-- The places of the rows that the loop of `crc32c_extend` multiplies by. -/
def rowsLoop (p dataSize : ℕ) : List ℕ :=
  (if dataSize &&& 1 ≠ 0 then [p + 32] else []) ++
    if dataSize >>> 1 ≠ 0 then rowsLoop (p + 32) (dataSize >>> 1) else []
termination_by dataSize
decreasing_by
  rename_i h
  rw [Nat.shiftRight_eq_div_pow] at h ⊢
  omega

def extendRows (dataSize : ℕ) : List ℕ := if dataSize = 0 then [] else rowsLoop 64 dataSize

section Rows

variable {buf : List (BitVec 32)}

/-- The loop is a product with one row after the other. -/
theorem extendLoop_rows (size : ℕ) : ∀ (p : ℕ) (c : BitVec 32), extendLoop buf p c size =
    (rowsLoop p size).foldlM (fun c p => gf32MatrixTimes buf p c) c := by
  induction size using Nat.strongRecOn with
  | _ size ih =>
    intro p c
    have hrest : ∀ c, (if size >>> 1 ≠ 0 then extendLoop buf (p + 32) c (size >>> 1) else some c) =
        (if size >>> 1 ≠ 0 then rowsLoop (p + 32) (size >>> 1) else []).foldlM (fun c p => gf32MatrixTimes buf p c) c := by
      intro c
      by_cases hhalf : size >>> 1 ≠ 0
      · have hlt : size >>> 1 < size := by
          rw [Nat.shiftRight_eq_div_pow] at hhalf ⊢
          omega
        rw [if_pos hhalf, if_pos hhalf]
        exact ih _ hlt (p + 32) c
      · rw [if_neg hhalf, if_neg hhalf]
        rfl
    rw [extendLoop, rowsLoop, List.foldlM_append]
    simp only [hrest]
    by_cases hbit : size &&& 1 ≠ 0
    · rw [if_pos hbit, if_pos hbit, List.foldlM_cons]
      simp only [List.foldlM_nil, bind_pure]
      rfl
    · rw [if_neg hbit, if_neg hbit]
      rfl

/-- A row for each bit of the size. -/
theorem mem_rowsLoop (size : ℕ) : ∀ (p row : ℕ),
    row ∈ rowsLoop p size ↔ ∃ k, size.testBit k = true ∧ row = p + 32 * (k + 1) := by
  induction size using Nat.strongRecOn with
  | _ size ih =>
    intro p row
    have hlow : size &&& 1 ≠ 0 ↔ size.testBit 0 = true := by
      rw [Nat.and_one_is_mod, Nat.testBit_zero, decide_eq_true_eq]
      omega
    have hrest : (row ∈ if size >>> 1 ≠ 0 then rowsLoop (p + 32) (size >>> 1) else []) ↔
        ∃ k, size.testBit (k + 1) = true ∧ row = p + 32 + 32 * (k + 1) := by
      have htwo : size >>> 1 = size / 2 := Nat.shiftRight_eq_div_pow size 1
      simp only [Nat.testBit_succ, ← htwo]
      by_cases hhalf : size >>> 1 ≠ 0
      · have hlt : size >>> 1 < size := by
          rw [Nat.shiftRight_eq_div_pow] at hhalf ⊢
          omega
        rw [if_pos hhalf]
        exact ih _ hlt (p + 32) row
      · rw [if_neg hhalf, not_not.mp hhalf]
        simp
    rw [rowsLoop, List.mem_append, hrest]
    constructor
    · rintro (hrow | ⟨k, hk, rfl⟩)
      · by_cases hbit : size &&& 1 ≠ 0
        · rw [if_pos hbit, List.mem_singleton] at hrow
          exact ⟨0, hlow.mp hbit, hrow⟩
        · rw [if_neg hbit] at hrow
          cases hrow
      · exact ⟨k + 1, hk, by omega⟩
    · rintro ⟨k, hk, rfl⟩
      cases k with
      | zero =>
        rw [if_pos (hlow.mpr hk)]
        exact .inl (List.mem_singleton.mpr rfl)
      | succ k => exact .inr ⟨k, hk, by omega⟩

theorem mem_extendRows {size row : ℕ} : row ∈ extendRows size ↔ ∃ k, size.testBit k = true ∧ row = 32 * (k + 3) := by
  unfold extendRows
  by_cases hzero : size = 0
  · subst hzero
    simp
  · rw [if_neg hzero, mem_rowsLoop]
    exact exists_congr fun k => and_congr_right fun _ => by omega

end Rows

/-- **The rows of the table.**  The check goes through one row for each bit of the size.  All these rows lie inside the
table, and hold the matrices of powers of zero bits, exactly if the size is below `2 ^ 29`. -/
theorem extendRows_inside_iff (dataSize : ℕ) : ∃ buf, powerBuf = some buf ∧ buf.length = 1024 ∧
    (∀ oldCrc dataCrc, crc32cExtend oldCrc dataCrc dataSize =
      ((extendRows dataSize).foldlM (fun c p => gf32MatrixTimes buf p c) oldCrc).map fun c =>
        if dataSize = 0 then c else c ^^^ dataCrc) ∧
    ((∀ row ∈ extendRows dataSize, row + 32 ≤ buf.length ∧ Stores buf row (step poly)^[2 ^ (row / 32)]) ↔
      dataSize < 2 ^ 29) := by
  obtain ⟨buf, hbuf, hlen, hstores⟩ := powerBuf_spec
  refine ⟨buf, hbuf, hlen, fun oldCrc dataCrc => ?_, fun h => ?_, fun hlt row hrow => ?_⟩
  · unfold crc32cExtend extendRows
    rw [hbuf]
    by_cases hzero : dataSize = 0
    · simp [hzero]
    · simp only [hzero, if_false]
      change (extendLoop buf 64 oldCrc dataSize).bind _ = _
      rw [extendLoop_rows]
      cases (rowsLoop 64 dataSize).foldlM (fun c p => gf32MatrixTimes buf p c) oldCrc <;> rfl
  · refine Nat.lt_pow_two_of_testBit dataSize fun k hk => ?_
    by_contra hbit
    have hinside := (h _ (mem_extendRows.mpr ⟨k, by simpa using hbit, rfl⟩)).1
    omega
  · obtain ⟨k, hk, rfl⟩ := mem_extendRows.mp hrow
    have hbit : k < 29 := by
      by_contra hge
      have hzero := Nat.testBit_lt_two_pow (Nat.lt_of_lt_of_le hlt (Nat.pow_le_pow_right (by omega) (Nat.not_lt.mp hge)))
      rw [hk] at hzero
      cases hzero
    rw [hlen, Nat.mul_div_cancel_left _ (by decide)]
    exact ⟨by omega, hstores (k + 3) (by omega)⟩

/-- From half a gigabyte on, a row behind the end of the table is read. -/
theorem extendRows_outside : 1024 ∈ extendRows (2 ^ 29) ∧
    ¬ ∃ buf, powerBuf = some buf ∧ ∀ row ∈ extendRows (2 ^ 29), row + 32 ≤ buf.length ∧
      Stores buf row (step poly)^[2 ^ (row / 32)] := by
  have hmem : 1024 ∈ extendRows (2 ^ 29) := mem_extendRows.mpr ⟨29, Nat.testBit_two_pow_self, rfl⟩
  refine ⟨hmem, fun ⟨buf, hbuf, h⟩ => ?_⟩
  obtain ⟨buf', hbuf', hlen, -⟩ := powerBuf_spec
  obtain rfl : buf = buf' := Option.some.inj (hbuf.symm.trans hbuf')
  have hinside := (h 1024 hmem).1
  omega

end TdUtils.Crc32c
