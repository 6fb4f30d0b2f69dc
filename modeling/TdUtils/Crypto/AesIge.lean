import Mathlib.Logic.Equiv.Basic
import TdUtils.Crypto.AesCtr
import TdUtils.Lib.BigEndian
import TdUtils.Lib.Machine

/-!
# Crypto.AesIge — AES in infinite garble extension, through CBC on batches

`E` and `D` are the block cipher with its key.  `encrypt` xors into up to 31 blocks what turns CBC into IGE,
runs CBC over them and xors once more.
-/

namespace TdUtils

namespace AesBlock

instance : XorOp AesBlock := ⟨fun a b => ⟨a.hi ^^^ b.hi, a.lo ^^^ b.lo⟩⟩

/-- The block at the beginning of the bytes. -/
def load (bytes : List UInt8) : AesBlock := .ofNat (Lib.BigEndian.ofBE (bytes.take 16))

/-- `count` blocks copied from the bytes. -/
def loadAll : ℕ → List UInt8 → List AesBlock
  | 0, _ => []
  | count + 1, bytes => load bytes :: loadAll count (bytes.drop 16)

def storeAll (blocks : List AesBlock) : List UInt8 := blocks.flatMap raw

end AesBlock

/-- CBC as EVP computes it after `init_iv`. -/
def cbcEncrypt (E : AesBlock → AesBlock) : AesBlock → List AesBlock → List AesBlock
  | _, [] => []
  | iv, block :: blocks => E (block ^^^ iv) :: cbcEncrypt E (E (block ^^^ iv)) blocks

/-- The textbook recurrence, from the previous block of the output and of the input. -/
def ige (E : AesBlock → AesBlock) : AesBlock → AesBlock → List AesBlock → List AesBlock
  | _, _, [] => []
  | c, p, block :: blocks => (E (block ^^^ c) ^^^ p) :: ige E (E (block ^^^ c) ^^^ p) block blocks

structure AesIgeState where
  encryptedIv : AesBlock
  plaintextIv : AesBlock
deriving DecidableEq

namespace AesIgeState

open AesBlock
open AesCtrState (length_raw ofNat_toNat)

def blockCount : ℕ := 31

def init (iv : List UInt8) : Option AesIgeState :=
  if iv.length = 32 then some ⟨load iv, load (iv.drop 16)⟩ else none

/-- `data_xored` before CBC. -/
def xorData (s : AesIgeState) (data : List AesBlock) : List AesBlock :=
  data.mapIdx fun i block =>
    match i with
    | 0 => block
    | 1 => s.plaintextIv ^^^ block
    | i + 2 => data.getD i block ^^^ block

/-- `data_xored` after CBC. -/
def xorOutput (s : AesIgeState) (data out : List AesBlock) : List AesBlock :=
  out.mapIdx fun i block =>
    match i with
    | 0 => block ^^^ s.plaintextIv
    | i + 1 => block ^^^ data.getD i block

variable (E D : AesBlock → AesBlock)

/-- The loop of `encrypt`, over `len` blocks. -/
def encryptLoop : ℕ → AesIgeState → List UInt8 → ℕ → Option (AesIgeState × List UInt8)
  | 0, s, _, len => if len = 0 then some (s, []) else none
  | fuel + 1, s, input, len =>
    if len = 0 then some (s, [])
    else
      let count := min blockCount len
      let data := loadAll count input
      let dataXored := s.xorOutput data (cbcEncrypt E s.encryptedIv (s.xorData data))
      let s := ⟨dataXored.getLastD s.encryptedIv, data.getLastD s.plaintextIv⟩
      (encryptLoop fuel s (input.drop (16 * count)) (len - count)).map fun (t, out) =>
        (t, storeAll dataXored ++ out)

def encrypt (s : AesIgeState) (src : List UInt8) : Option (AesIgeState × List UInt8) :=
  if src.length % 16 = 0 then encryptLoop E (src.length / 16) s src (src.length / 16) else none

def decryptLoop : ℕ → AesIgeState → List UInt8 → AesIgeState × List UInt8
  | 0, s, _ => (s, [])
  | len + 1, s, input =>
    let encrypted := load input
    let plaintextIv := D (s.plaintextIv ^^^ encrypted) ^^^ s.encryptedIv
    let (t, out) := decryptLoop len ⟨encrypted, plaintextIv⟩ (input.drop 16)
    (t, plaintextIv.raw ++ out)

def decrypt (s : AesIgeState) (src : List UInt8) : Option (AesIgeState × List UInt8) :=
  if src.length % 16 = 0 then some (decryptLoop D (src.length / 16) s src) else none

def encryptor : Lib.Machine AesIgeState (List UInt8) (List UInt8) := ⟨encrypt E⟩

def decryptor : Lib.Machine AesIgeState (List UInt8) (List UInt8) := ⟨decrypt D⟩

variable {E D}

/-! ### Blocks -/

theorem xor_comm (a b : AesBlock) : a ^^^ b = b ^^^ a := by
  show AesBlock.mk _ _ = AesBlock.mk _ _
  rw [BitVec.xor_comm a.hi, BitVec.xor_comm a.lo]

theorem xor_assoc (a b c : AesBlock) : a ^^^ b ^^^ c = a ^^^ (b ^^^ c) := by
  show AesBlock.mk (a.hi ^^^ b.hi ^^^ c.hi) (a.lo ^^^ b.lo ^^^ c.lo) = _
  rw [BitVec.xor_assoc, BitVec.xor_assoc]
  rfl

theorem xor_cancel_right (a b : AesBlock) : a ^^^ b ^^^ b = a := by
  show AesBlock.mk (a.hi ^^^ b.hi ^^^ b.hi) (a.lo ^^^ b.lo ^^^ b.lo) = a
  rw [BitVec.xor_assoc, BitVec.xor_assoc, BitVec.xor_self, BitVec.xor_self, BitVec.xor_zero,
    BitVec.xor_zero]

theorem toNat_ofNat (n : ℕ) : (AesBlock.ofNat n).toNat = n % 2 ^ 128 := by
  unfold AesBlock.ofNat AesBlock.toNat
  rw [BitVec.toNat_ofNat, BitVec.toNat_ofNat]
  omega

theorem raw_load {bytes : List UInt8} (h : 16 ≤ bytes.length) : (load bytes).raw = bytes.take 16 := by
  have hlen : (bytes.take 16).length = 16 := by
    rw [List.length_take]
    omega
  have hlt := Lib.BigEndian.ofBE_lt (bytes.take 16)
  have hback := Lib.BigEndian.toBE_ofBE (bytes.take 16)
  rw [hlen] at hlt hback
  have hnat : (load bytes).toNat = Lib.BigEndian.ofBE (bytes.take 16) := by
    unfold load
    rw [toNat_ofNat, Nat.mod_eq_of_lt (by omega)]
  have hraw : (load bytes).raw = Lib.BigEndian.toBE 16 (load bytes).toNat := rfl
  rw [hraw, hnat, hback]

theorem load_raw_append (block : AesBlock) (bytes : List UInt8) : load (block.raw ++ bytes) = block := by
  have hraw : block.raw = Lib.BigEndian.toBE 16 block.toNat := rfl
  have hlt : block.toNat < 256 ^ 16 := by
    have hhi := block.hi.isLt
    have hlo := block.lo.isLt
    unfold AesBlock.toNat
    omega
  unfold load
  rw [List.take_left' (length_raw block), hraw, Lib.BigEndian.ofBE_toBE, Nat.mod_eq_of_lt hlt,
    ofNat_toNat]

@[simp] theorem length_loadAll (count : ℕ) (bytes : List UInt8) : (loadAll count bytes).length = count := by
  induction count generalizing bytes with
  | zero => rfl
  | succ count ih => rw [loadAll, List.length_cons, ih]

theorem loadAll_add (m n : ℕ) (bytes : List UInt8) :
    loadAll (m + n) bytes = loadAll m bytes ++ loadAll n (bytes.drop (16 * m)) := by
  induction m generalizing bytes with
  | zero => rw [Nat.zero_add, Nat.mul_zero, List.drop_zero]; rfl
  | succ m ih =>
    have hdrop : 16 * (m + 1) = 16 + 16 * m := by omega
    rw [Nat.succ_add, loadAll, ih, List.drop_drop, loadAll, List.cons_append, hdrop]

theorem length_storeAll (blocks : List AesBlock) : (storeAll blocks).length = 16 * blocks.length := by
  induction blocks with
  | nil => rfl
  | cons block blocks ih =>
    have hcons : storeAll (block :: blocks) = block.raw ++ storeAll blocks := List.flatMap_cons
    rw [hcons, List.length_append, length_raw, ih, List.length_cons]
    omega

theorem loadAll_storeAll (blocks : List AesBlock) : loadAll blocks.length (storeAll blocks) = blocks := by
  induction blocks with
  | nil => rfl
  | cons block blocks ih =>
    have hcons : storeAll (block :: blocks) = block.raw ++ storeAll blocks := List.flatMap_cons
    rw [hcons, List.length_cons, loadAll, load_raw_append, List.drop_left' (length_raw block), ih]

theorem storeAll_loadAll (count : ℕ) : ∀ {bytes : List UInt8}, bytes.length = 16 * count →
    storeAll (loadAll count bytes) = bytes := by
  induction count with
  | zero =>
    intro bytes h
    exact (List.eq_nil_of_length_eq_zero h).symm
  | succ count ih =>
    intro bytes h
    have hcons : storeAll (load bytes :: loadAll count (bytes.drop 16)) =
        (load bytes).raw ++ storeAll (loadAll count (bytes.drop 16)) := List.flatMap_cons
    rw [loadAll, hcons, raw_load (by omega), ih (by rw [List.length_drop]; omega), List.take_append_drop]

/-! ### The recurrence -/

theorem length_ige (c p : AesBlock) (blocks : List AesBlock) : (ige E c p blocks).length = blocks.length := by
  induction blocks generalizing c p with
  | nil => rfl
  | cons block blocks ih => rw [ige, List.length_cons, List.length_cons, ih]

theorem ige_append (c p : AesBlock) (a b : List AesBlock) :
    ige E c p (a ++ b) = ige E c p a ++ ige E ((ige E c p a).getLastD c) (a.getLastD p) b := by
  induction a generalizing c p with
  | nil => rfl
  | cons block a ih =>
    rw [List.cons_append, ige, ih, ige, List.getLastD_cons, List.getLastD_cons, List.cons_append]

/-- What `encrypt` xors into the third and the later blocks. -/
def lagged : AesBlock → AesBlock → List AesBlock → List AesBlock
  | _, _, [] => []
  | p₂, p₁, block :: blocks => (p₂ ^^^ block) :: lagged p₁ block blocks

theorem mapIdx_lagged (p₂ p₁ : AesBlock) (rest : List AesBlock) :
    rest.mapIdx (fun i block => (p₂ :: p₁ :: rest).getD i block ^^^ block) = lagged p₂ p₁ rest := by
  induction rest generalizing p₂ p₁ with
  | nil => rfl
  | cons block rest ih =>
    rw [List.mapIdx_cons, lagged, ← ih p₁ block]
    rfl

theorem xorData_cons (s : AesIgeState) (block : AesBlock) (rest : List AesBlock) :
    s.xorData (block :: rest) = block :: lagged s.plaintextIv block rest := by
  unfold xorData
  rw [List.mapIdx_cons, ← mapIdx_lagged]
  congr 1
  apply List.mapIdx_eq_mapIdx_iff.mpr
  intro i hi
  cases i <;> rfl

/-- CBC over the lagged blocks, xored with the blocks before them, goes on as the recurrence does. -/
theorem cbc_lagged (e p₂ p₁ : AesBlock) (rest : List AesBlock) :
    (cbcEncrypt E e (lagged p₂ p₁ rest)).mapIdx (fun i block => block ^^^ (p₁ :: rest).getD i block) =
      ige E (e ^^^ p₂) p₁ rest := by
  induction rest generalizing e p₂ p₁ with
  | nil => rfl
  | cons block rest ih =>
    have harg : p₂ ^^^ block ^^^ e = block ^^^ (e ^^^ p₂) := by
      rw [xor_comm p₂, xor_assoc, xor_comm p₂]
    rw [lagged, cbcEncrypt, List.mapIdx_cons, ige, harg, ← ih]
    rfl

/-- A batch through CBC is a batch of the recurrence. -/
theorem xorOutput_cbc (s : AesIgeState) (data : List AesBlock) :
    s.xorOutput data (cbcEncrypt E s.encryptedIv (s.xorData data)) =
      ige E s.encryptedIv s.plaintextIv data := by
  cases data with
  | nil => rfl
  | cons block rest =>
    rw [xorData_cons, cbcEncrypt, ige, ← cbc_lagged]
    unfold xorOutput
    rw [List.mapIdx_cons]

/-! ### Encryption -/

/-- The state after some blocks of input. -/
def after (E : AesBlock → AesBlock) (s : AesIgeState) (blocks : List AesBlock) : AesIgeState :=
  ⟨(ige E s.encryptedIv s.plaintextIv blocks).getLastD s.encryptedIv, blocks.getLastD s.plaintextIv⟩

theorem encryptLoop_spec (fuel : ℕ) :
    ∀ (s : AesIgeState) (input : List UInt8) (len : ℕ), len ≤ fuel →
      encryptLoop E fuel s input len = some (after E s (loadAll len input),
        storeAll (ige E s.encryptedIv s.plaintextIv (loadAll len input))) := by
  induction fuel with
  | zero =>
    intro s input len hlen
    obtain rfl := Nat.le_zero.mp hlen
    rfl
  | succ fuel ih =>
    intro s input len hlen
    by_cases hzero : len = 0
    · subst hzero
      rfl
    · have hcount : blockCount = 31 := rfl
      rw [encryptLoop, if_neg hzero]
      dsimp only
      generalize hmin : min blockCount len = count
      obtain ⟨rest, rfl⟩ := Nat.exists_eq_add_of_le (show count ≤ len by omega)
      rw [Nat.add_sub_cancel_left, xorOutput_cbc, ih _ _ _ (by omega), Option.map_some, loadAll_add]
      generalize loadAll count input = data
      generalize loadAll rest (input.drop (16 * count)) = blocks
      have hige := ige_append (E := E) s.encryptedIv s.plaintextIv data blocks
      have hlast : ∀ (xs ys : List AesBlock) (d : AesBlock),
          (xs ++ ys).getLastD d = ys.getLastD (xs.getLastD d) := by
        intro xs ys d
        simp only [List.getLastD_eq_getLast?, List.getLast?_append, Option.getD_or]
      unfold after
      rw [hige, hlast, hlast]
      congr 2
      exact (List.flatMap_append).symm

/-- `encrypt` on bytes that are whole blocks. -/
theorem encrypt_spec (s : AesIgeState) {src : List UInt8} (h : src.length % 16 = 0) :
    encrypt E s src = some (after E s (loadAll (src.length / 16) src),
      storeAll (ige E s.encryptedIv s.plaintextIv (loadAll (src.length / 16) src))) := by
  unfold encrypt
  rw [if_pos h]
  exact encryptLoop_spec _ s src _ (Nat.le_refl _)

theorem after_append (s : AesIgeState) (a b : List AesBlock) :
    after E s (a ++ b) = after E (after E s a) b := by
  unfold after
  rw [ige_append]
  simp only [List.getLastD_eq_getLast?, List.getLast?_append, Option.getD_or]

/-- The blocks of bytes that are whole blocks. -/
def blocksOf (bytes : List UInt8) : List AesBlock := loadAll (bytes.length / 16) bytes

theorem blocksOf_append {a : List UInt8} (b : List UInt8) (h : a.length % 16 = 0) :
    blocksOf (a ++ b) = blocksOf a ++ blocksOf b := by
  have hlen : (a ++ b).length / 16 = a.length / 16 + b.length / 16 := by
    rw [List.length_append]
    omega
  have hsize : 16 * (a.length / 16) = a.length := by omega
  have hfirst : ∀ (n : ℕ) (a : List UInt8), a.length = 16 * n → loadAll n (a ++ b) = loadAll n a := by
    intro n
    induction n with
    | zero => exact fun _ _ => rfl
    | succ n ih =>
      intro a ha
      rw [loadAll, loadAll, List.drop_append_of_le_length (by omega), ih _ (by rw [List.length_drop]; omega)]
      unfold load
      rw [List.take_append_of_le_length (by omega)]
  unfold blocksOf
  rw [hlen, loadAll_add, hsize, List.drop_left, hfirst _ a hsize.symm]

theorem encrypt_run (calls : List (List UInt8)) :
    ∀ (s : AesIgeState), (∀ c ∈ calls, c.length % 16 = 0) →
      ∃ t outs, (encryptor E).run s calls = some (t, outs) ∧
        outs.flatten = storeAll (ige E s.encryptedIv s.plaintextIv (blocksOf calls.flatten)) := by
  induction calls with
  | nil => exact fun s _ => ⟨s, [], rfl, rfl⟩
  | cons c calls ih =>
    intro s hall
    have hc := hall c List.mem_cons_self
    obtain ⟨t, outs, hrun, hout⟩ := ih (after E s (blocksOf c)) fun d hd =>
      hall d (List.mem_cons_of_mem _ hd)
    refine ⟨t, _, Lib.Machine.run_cons_of (encrypt_spec s hc) hrun, ?_⟩
    rw [List.flatten_cons, List.flatten_cons, hout, blocksOf_append _ hc, ige_append]
    exact List.flatMap_append.symm

/-! ### Decryption -/

theorem storeAll_append (a b : List AesBlock) : storeAll (a ++ b) = storeAll a ++ storeAll b :=
  List.flatMap_append

theorem decryptLoop_spec (hD : ∀ b, D (E b) = b) (blocks : List AesBlock) :
    ∀ s : AesIgeState,
      decryptLoop D blocks.length s (storeAll (ige E s.encryptedIv s.plaintextIv blocks)) =
        (after E s blocks, storeAll blocks) := by
  induction blocks with
  | nil => exact fun _ => rfl
  | cons block blocks ih =>
    intro s
    have hcons : ∀ (b : AesBlock) (bs : List AesBlock), storeAll (b :: bs) = b.raw ++ storeAll bs :=
      fun _ _ => List.flatMap_cons
    have hblock : D (s.plaintextIv ^^^ (E (block ^^^ s.encryptedIv) ^^^ s.plaintextIv)) ^^^ s.encryptedIv =
        block := by
      rw [xor_comm s.plaintextIv, xor_cancel_right, hD, xor_cancel_right]
    rw [ige, hcons, List.length_cons, decryptLoop, load_raw_append, List.drop_left' (length_raw _)]
    dsimp only
    rw [hblock, ih ⟨E (block ^^^ s.encryptedIv) ^^^ s.plaintextIv, block⟩, hcons]
    unfold after
    dsimp only
    rw [ige, List.getLastD_cons, List.getLastD_cons]

/-- One call decrypts what it is given and goes on from there. -/
theorem decrypt_spec (hD : ∀ b, D (E b) = b) (s : AesIgeState) (blocks : List AesBlock) :
    decrypt D s (storeAll (ige E s.encryptedIv s.plaintextIv blocks)) =
      some (after E s blocks, storeAll blocks) := by
  have hlen := length_storeAll (ige E s.encryptedIv s.plaintextIv blocks)
  rw [length_ige] at hlen
  have hcount : (storeAll (ige E s.encryptedIv s.plaintextIv blocks)).length / 16 = blocks.length := by omega
  unfold decrypt
  rw [if_pos (by omega), hcount, decryptLoop_spec hD]

theorem decrypt_run (hD : ∀ b, D (E b) = b) (calls : List (List UInt8)) :
    ∀ (s : AesIgeState) (blocks : List AesBlock), (∀ c ∈ calls, c.length % 16 = 0) →
      calls.flatten = storeAll (ige E s.encryptedIv s.plaintextIv blocks) →
      ∃ t outs, (decryptor D).run s calls = some (t, outs) ∧ outs.flatten = storeAll blocks := by
  induction calls with
  | nil =>
    intro s blocks _ hread
    have hlen := congrArg List.length hread
    rw [length_storeAll, length_ige] at hlen
    obtain rfl : blocks = [] := List.eq_nil_of_length_eq_zero (by
      rw [List.flatten_nil, List.length_nil] at hlen
      omega)
    exact ⟨s, [], rfl, rfl⟩
  | cons c calls ih =>
    intro s blocks hall hread
    have hc := hall c List.mem_cons_self
    have hlen := congrArg List.length hread
    rw [length_storeAll, length_ige, List.flatten_cons, List.length_append] at hlen
    -- the blocks that this call decrypts
    obtain ⟨first, rest, hsplit, hfirst⟩ : ∃ first rest, blocks = first ++ rest ∧ c.length = 16 * first.length := by
      refine ⟨blocks.take (c.length / 16), blocks.drop (c.length / 16), (List.take_append_drop _ _).symm, ?_⟩
      rw [List.length_take]
      omega
    subst hsplit
    rw [ige_append, storeAll_append, List.flatten_cons] at hread
    obtain ⟨hcall, hrest⟩ := List.append_inj hread (by rw [length_storeAll, length_ige]; exact hfirst)
    obtain ⟨t, outs, hrun, hout⟩ := ih (after E s first) rest (fun d hd => hall d (List.mem_cons_of_mem _ hd)) hrest
    have hstep : (decryptor D).step s c = some (after E s first, storeAll first) := by
      rw [hcall]
      exact decrypt_spec hD s first
    refine ⟨t, _, Lib.Machine.run_cons_of hstep hrun, ?_⟩
    rw [List.flatten_cons, hout, storeAll_append]

/-! ### Streams -/

/-- Any calls of `encrypt` compute the recurrence over all blocks, and any calls of `decrypt` over their
output give the input back. -/
theorem ige_stream (E D : AesBlock → AesBlock) (hD : ∀ b, D (E b) = b) (iv : List UInt8) (hiv : iv.length = 32)
    (calls : List (List UInt8)) (hcalls : ∀ c ∈ calls, c.length % 16 = 0) :
    ∃ s t outs, init iv = some s ∧ (encryptor E).run s calls = some (t, outs) ∧
      outs.flatten = storeAll (ige E (load iv) (load (iv.drop 16)) (blocksOf calls.flatten)) ∧
      ∀ calls' : List (List UInt8), (∀ c ∈ calls', c.length % 16 = 0) → calls'.flatten = outs.flatten →
        ∃ t' outs', (decryptor D).run s calls' = some (t', outs') ∧ outs'.flatten = calls.flatten := by
  obtain ⟨t, outs, hrun, hout⟩ := encrypt_run (E := E) calls ⟨load iv, load (iv.drop 16)⟩ hcalls
  refine ⟨_, t, outs, if_pos hiv, hrun, hout, ?_⟩
  intro calls' hcalls' hread
  obtain ⟨t', outs', hrun', hout'⟩ := decrypt_run hD calls' ⟨load iv, load (iv.drop 16)⟩
    (blocksOf calls.flatten) hcalls' (hread.trans hout)
  have haligned : ∀ calls : List (List UInt8), (∀ c ∈ calls, c.length % 16 = 0) →
      calls.flatten.length % 16 = 0 := by
    intro calls
    induction calls with
    | nil => exact fun _ => rfl
    | cons c calls ih =>
      intro hall
      have hc := hall c List.mem_cons_self
      have hrest := ih fun d hd => hall d (List.mem_cons_of_mem _ hd)
      rw [List.flatten_cons, List.length_append]
      omega
  have hlen := haligned calls hcalls
  refine ⟨t', outs', hrun', ?_⟩
  rw [hout']
  exact storeAll_loadAll _ (by omega)

/-- AES-256 under the key `00 01 .. 1f` on the three blocks that it is called with below. -/
def threeBlocks : Equiv.Perm AesBlock :=
  (Equiv.swap ⟨0xf0eeeceee8eeecee, 0xe0eeeceee8eeecee⟩ ⟨0x586c47d109976701, 0xcdf66162b418a7bd⟩).trans <|
    (Equiv.swap ⟨0xa8a28b1fc159abcf, 0x0d38adac7cd66b73⟩ ⟨0xcb41bf722d986ea2, 0xac635eef2d08906f⟩).trans <|
      Equiv.swap ⟨0xeb619f520db84e82, 0x8c437ecf0d28b04f⟩ ⟨0x5b98a58f91963d16, 0x6a6c0b16eefacbfd⟩

/-- The bytes `00 .. 2f` in two calls, under the iv `f0 ef .. d1`, and back in two others. -/
theorem ige_stream_blocks : ∃ s t outs,
    init ((List.range 32).map fun i => 0xf0 - UInt8.ofNat i) = some s ∧
    (encryptor threeBlocks).run s [(List.range 32).map UInt8.ofNat, (List.range' 32 16).map UInt8.ofNat] =
      some (t, outs) ∧
    outs.flatten = [0xb8, 0xb3, 0x99, 0x0c, 0xd5, 0x4c, 0xbd, 0xd8, 0x15, 0x21, 0xb7, 0xb7, 0x60, 0xcb, 0x75, 0x6c,
      0xcb, 0x40, 0xbd, 0x71, 0x29, 0x9d, 0x68, 0xa5, 0xa4, 0x6a, 0x54, 0xe4, 0x21, 0x05, 0x9e, 0x60,
      0x4b, 0x89, 0xb7, 0x9c, 0x85, 0x83, 0x2b, 0x01, 0x72, 0x75, 0x11, 0x0d, 0xf2, 0xe7, 0xd5, 0xe2] ∧
    ∃ t' outs', (decryptor threeBlocks.symm).run s [outs.flatten.take 16, outs.flatten.drop 16] = some (t', outs') ∧
      outs'.flatten = (List.range 48).map UInt8.ofNat := by
  obtain ⟨s, t, outs, hinit, hrun, hout, hback⟩ := ige_stream threeBlocks threeBlocks.symm threeBlocks.symm_apply_apply
    ((List.range 32).map fun i => 0xf0 - UInt8.ofNat i) (by decide)
    [(List.range 32).map UInt8.ofNat, (List.range' 32 16).map UInt8.ofNat] (by decide)
  have hlen : outs.flatten.length = 48 := by
    rw [hout, length_storeAll, length_ige]
    rfl
  refine ⟨s, t, outs, hinit, hrun, hout.trans (by decide +kernel), ?_⟩
  refine (hback [outs.flatten.take 16, outs.flatten.drop 16] (fun c hc => ?_) ?_).imp fun t' h => h
  · rcases List.mem_pair.mp hc with rfl | rfl
    · rw [List.length_take, hlen]
      rfl
    · rw [List.length_drop, hlen]
  · rw [List.flatten_cons, List.flatten_cons, List.flatten_nil, List.append_nil, List.take_append_drop]

end AesIgeState

end TdUtils
