import TdUtils.Crypto.AesIge

/-!
# Crypto.AesIvChaining — calls that share an initialization vector

`aes_ige_encrypt` and `aes_ige_decrypt` take the vector as a `MutableSlice` and leave it as it was, where
`aes_cbc_encrypt` and `aes_cbc_decrypt` hand it to a function that stores the last block there.  `aes` is the block
cipher with each key.
-/

namespace TdUtils.AesIgeState

open Lib AesBlock
open AesCtrState (length_raw)

/-! ### The functions -/

def aesIgeEncrypt (aes : List UInt8 → Equiv.Perm AesBlock) (aesKey aesIv src : List UInt8) :
    Option (List UInt8 × List UInt8) :=
  if aesKey.length = 32 then do
    let state ← init aesIv
    let (_, dst) ← encrypt (aes aesKey) state src
    return (aesIv, dst)  -- the state ends with the call, and nothing is stored in `aes_iv`
  else none

def aesIgeDecrypt (aes : List UInt8 → Equiv.Perm AesBlock) (aesKey aesIv src : List UInt8) :
    Option (List UInt8 × List UInt8) :=
  if aesKey.length = 32 then do
    let state ← init aesIv
    let (_, dst) ← decrypt (aes aesKey).symm state src
    return (aesIv, dst)
  else none

/-- `aes_cbc_xcrypt`, with the function of OpenSSL: what is in `ivec` after it, and its output. -/
def aesCbcXcrypt (AES_cbc_encrypt : List UInt8 → List UInt8 → List UInt8 → Bool → List UInt8 × List UInt8)
    (aesKey aesIv src : List UInt8) (encryptFlag : Bool) : Option (List UInt8 × List UInt8) :=
  if aesKey.length = 32 ∧ aesIv.length = 16 then some (AES_cbc_encrypt aesKey aesIv src encryptFlag) else none

def aesCbcEncrypt (AES_cbc_encrypt : List UInt8 → List UInt8 → List UInt8 → Bool → List UInt8 × List UInt8)
    (aesKey aesIv src : List UInt8) : Option (List UInt8 × List UInt8) :=
  aesCbcXcrypt AES_cbc_encrypt aesKey aesIv src true

def aesCbcDecrypt (AES_cbc_encrypt : List UInt8 → List UInt8 → List UInt8 → Bool → List UInt8 × List UInt8)
    (aesKey aesIv src : List UInt8) : Option (List UInt8 × List UInt8) :=
  aesCbcXcrypt AES_cbc_encrypt aesKey aesIv src false

/-- The textbook decryption of CBC. -/
def cbcDecrypt (D : AesBlock → AesBlock) : AesBlock → List AesBlock → List AesBlock
  | _, [] => []
  | iv, block :: blocks => (D block ^^^ iv) :: cbcDecrypt D block blocks

/-- What OpenSSL documents: CBC over whole blocks, and `ivec` becomes the last block of the ciphertext. -/
structure ComputesCbc (aes : List UInt8 → Equiv.Perm AesBlock)
    (AES_cbc_encrypt : List UInt8 → List UInt8 → List UInt8 → Bool → List UInt8 × List UInt8) : Prop where
  encrypts : ∀ key iv src, iv.length = 16 → src.length % 16 = 0 → AES_cbc_encrypt key iv src true =
    (((cbcEncrypt (aes key) (load iv) (blocksOf src)).getLastD (load iv)).raw,
      storeAll (cbcEncrypt (aes key) (load iv) (blocksOf src)))
  decrypts : ∀ key iv src, iv.length = 16 → src.length % 16 = 0 → AES_cbc_encrypt key iv src false =
    (((blocksOf src).getLastD (load iv)).raw, storeAll (cbcDecrypt (aes key).symm (load iv) (blocksOf src)))

/-- Data of so many blocks, piece by piece with the vector that the last call left, gives what one call gives. -/
def Chains (call : List UInt8 → List UInt8 → Option (List UInt8 × List UInt8)) (ivSize : ℕ) (lens : List ℕ) : Prop :=
  ∀ iv pieces, iv.length = ivSize → pieces.map List.length = lens.map (16 * ·) →
    ∃ iv' outs iv'' out, (Machine.mk call).run iv pieces = some (iv', outs) ∧
      call iv pieces.flatten = some (iv'', out) ∧ outs.flatten = out

/-- The cipher is the sum of a linear map and a constant, which no key of AES makes it. -/
def Affine (f : AesBlock → AesBlock) : Prop := ∀ t x y, f (x ^^^ t) ^^^ f x = f (y ^^^ t) ^^^ f y

/-! ### Blocks -/

section Blocks

def zero : AesBlock := ⟨0, 0⟩

theorem zero_xor (a : AesBlock) : zero ^^^ a = a := by
  show AesBlock.mk (0#64 ^^^ a.hi) (0#64 ^^^ a.lo) = a
  rw [BitVec.zero_xor, BitVec.zero_xor]

theorem xor_zero (a : AesBlock) : a ^^^ zero = a := by rw [xor_comm, zero_xor]

theorem xor_cancel_left (a b : AesBlock) : a ^^^ (a ^^^ b) = b := by
  rw [xor_comm a, xor_comm a, xor_cancel_right]

theorem xor_eq_iff {a b c : AesBlock} : a ^^^ b = c ↔ a = c ^^^ b := by
  constructor
  · rintro rfl
    rw [xor_cancel_right]
  · rintro rfl
    rw [xor_cancel_right]

/-- The inverse of an affine map is affine. -/
theorem Affine.symm {f : Equiv.Perm AesBlock} (h : Affine f) : Affine f.symm := by
  intro s u v
  -- the difference of the two preimages on the left
  have hu : f.symm u ^^^ (f.symm (u ^^^ s) ^^^ f.symm u) = f.symm (u ^^^ s) := by
    rw [xor_comm, xor_cancel_right]
  have hstep := h (f.symm (u ^^^ s) ^^^ f.symm u) (f.symm u) (f.symm v)
  have hsu : u ^^^ s ^^^ u = s := by rw [xor_comm u, xor_cancel_right]
  rw [hu, f.apply_symm_apply, f.apply_symm_apply, f.apply_symm_apply, hsu] at hstep
  have hv : f (f.symm v ^^^ (f.symm (u ^^^ s) ^^^ f.symm u)) = v ^^^ s := by
    rw [xor_comm v]
    exact xor_eq_iff.mp hstep.symm
  have hback := congrArg f.symm hv
  rw [f.symm_apply_apply] at hback
  rw [← hback, xor_comm (f.symm v), xor_cancel_right]

theorem storeAll_injective {a b : List AesBlock} (h : storeAll a = storeAll b) : a = b := by
  have hlen := congrArg List.length h
  rw [length_storeAll, length_storeAll] at hlen
  rw [← loadAll_storeAll a, ← loadAll_storeAll b, h, show a.length = b.length by omega]

theorem blocksOf_storeAll (blocks : List AesBlock) : blocksOf (storeAll blocks) = blocks := by
  unfold blocksOf
  rw [length_storeAll, Nat.mul_div_cancel_left _ (by omega), loadAll_storeAll]

end Blocks

/-! ### Pieces of blocks -/

section Pieces

variable {f : AesBlock → AesBlock} {lens : List ℕ}

/-- Each piece from the same two blocks on gives what all of them give. -/
def Restarts (f : AesBlock → AesBlock) (lens : List ℕ) : Prop :=
  ∀ (c p : AesBlock) (bs : List (List AesBlock)), bs.map List.length = lens →
    (bs.map (ige f c p)).flatten = ige f c p bs.flatten

/-- At most one of the pieces is not empty. -/
def AtMostOne (lens : List ℕ) : Prop := (lens.filter (· ≠ 0)).length ≤ 1

instance (lens : List ℕ) : Decidable (AtMostOne lens) := inferInstanceAs (Decidable (_ ≤ 1))

theorem atMostOne_zero_cons : AtMostOne (0 :: lens) ↔ AtMostOne lens := by
  unfold AtMostOne
  rw [List.filter_cons_of_neg (by simp)]

theorem atMostOne_cons {m : ℕ} (hm : m ≠ 0) : AtMostOne (m :: lens) ↔ ∀ k ∈ lens, k = 0 := by
  unfold AtMostOne
  rw [List.filter_cons_of_pos (by simpa using hm), List.length_cons]
  simp

theorem restarts_zero_cons : Restarts f (0 :: lens) ↔ Restarts f lens := by
  constructor
  · intro h c p bs hbs
    exact h c p ([] :: bs) (by simp [hbs])
  · intro h c p bs hbs
    rcases bs with - | ⟨a, bs⟩
    · cases hbs
    · obtain ⟨ha, hrest⟩ := List.cons.inj hbs
      obtain rfl := List.eq_nil_of_length_eq_zero ha
      exact h c p bs hrest

theorem flatten_of_zero {bs : List (List AesBlock)} (h : ∀ k ∈ bs.map List.length, k = 0) : bs.flatten = [] := by
  rw [List.flatten_eq_nil_iff]
  intro b hb
  exact List.eq_nil_of_length_eq_zero (h _ (List.mem_map_of_mem hb))

/-- The first block of the output of the pieces. -/
theorem head_pieces (c p : AesBlock) (bs : List (List AesBlock)) :
    (bs.map (ige f c p)).flatten.head? = bs.flatten.head?.map fun y => f (y ^^^ c) ^^^ p := by
  induction bs with
  | nil => rfl
  | cons b bs ih =>
    cases b with
    | nil => exact ih
    | cons y b => rfl

/-- After one block more, the state has any first block that one likes. -/
theorem reaches {g : Equiv.Perm AesBlock} (n : ℕ) (c p t : AesBlock) :
    ∃ a : List AesBlock, a.length = n + 1 ∧ (ige g c p a).getLastD c = t := by
  -- the state in front of the last block
  obtain ⟨e, he⟩ : ∃ e, e = (ige g c p (List.replicate n zero)).getLastD c := ⟨_, rfl⟩
  obtain ⟨q, hq⟩ : ∃ q, q = (List.replicate n zero).getLastD p := ⟨_, rfl⟩
  refine ⟨List.replicate n zero ++ [g.symm (t ^^^ q) ^^^ e], by simp, ?_⟩
  rw [ige_append, ← he, ← hq]
  simp only [ige, List.getLastD_eq_getLast?, List.getLast?_append, List.getLast?_singleton, Option.some_or,
    Option.getD_some, xor_cancel_right, Equiv.apply_symm_apply]

/-- Two pieces that are not empty restart only an affine map. -/
theorem affine_of_restarts {g : Equiv.Perm AesBlock} {m : ℕ} (hm : m ≠ 0) (hk : ∃ k ∈ lens, k ≠ 0)
    (h : Restarts g (m :: lens)) : Affine g := by
  obtain ⟨n, rfl⟩ := Nat.exists_eq_succ_of_ne_zero hm
  intro t x y
  obtain ⟨a, ha, hc⟩ := reaches (g := g) n zero zero t
  -- the first block of the second piece, after the first one and from the start
  have hblock : ∀ z, g z = g (z ^^^ t) ^^^ a.getLastD zero := by
    intro z
    have hlens : ((lens.map fun k => List.replicate k z).map List.length) = lens := by
      rw [List.map_map]
      exact List.map_id'' (fun k => List.length_replicate) lens
    have hhead : (lens.map fun k => List.replicate k z).flatten.head? = some z := by
      obtain ⟨k, hk, hne⟩ := hk
      have hmem : ∀ w ∈ (lens.map fun k => List.replicate k z).flatten, w = z := by
        intro w hw
        obtain ⟨b, hb, hw⟩ := List.mem_flatten.mp hw
        obtain ⟨j, -, rfl⟩ := List.mem_map.mp hb
        exact (List.mem_replicate.mp hw).2
      have hin : z ∈ (lens.map fun k => List.replicate k z).flatten :=
        List.mem_flatten.mpr ⟨_, List.mem_map_of_mem hk, List.mem_replicate.mpr ⟨hne, rfl⟩⟩
      rcases hl : (lens.map fun k => List.replicate k z).flatten with - | ⟨w, l⟩
      · rw [hl] at hin
        cases hin
      · rw [hl] at hmem
        rw [List.head?_cons, hmem w List.mem_cons_self]
    have hpieces := h zero zero (a :: lens.map fun k => List.replicate k z) (by rw [List.map_cons, ha, hlens])
    rw [List.map_cons, List.flatten_cons, List.flatten_cons, ige_append, hc] at hpieces
    have hfirst := congrArg List.head? (List.append_cancel_left hpieces)
    have hone := head_pieces (f := g) t (a.getLastD zero) [(lens.map fun k => List.replicate k z).flatten]
    rw [List.map_singleton, List.flatten_singleton, List.flatten_singleton] at hone
    rw [head_pieces, hone, hhead] at hfirst
    have hz : g (z ^^^ zero) ^^^ zero = g (z ^^^ t) ^^^ a.getLastD zero := Option.some.inj hfirst
    rwa [xor_zero, xor_zero] at hz
  rw [hblock x, hblock y, xor_cancel_left, xor_cancel_left]

/-- The pieces may restart just when at most one is not empty. -/
theorem restarts_iff {g : Equiv.Perm AesBlock} (hg : ¬Affine g) : ∀ lens, Restarts g lens ↔ AtMostOne lens
  | [] => by
    refine ⟨fun _ => by decide, fun _ c p bs hbs => ?_⟩
    obtain rfl := List.map_eq_nil_iff.mp hbs
    rfl
  | 0 :: lens => by rw [restarts_zero_cons, atMostOne_zero_cons, restarts_iff hg lens]
  | (m + 1) :: lens => by
    rw [atMostOne_cons (Nat.succ_ne_zero m)]
    constructor
    · intro h
      by_contra hk
      push Not at hk
      exact hg (affine_of_restarts (Nat.succ_ne_zero m) hk h)
    · intro hzero c p bs hbs
      rcases bs with - | ⟨a, bs⟩
      · cases hbs
      · obtain ⟨-, rfl⟩ := List.cons.inj hbs
        have hflat := flatten_of_zero hzero
        have hrest : (bs.map (ige g c p)).flatten = [] := by
          apply flatten_of_zero
          rw [List.map_map]
          intro k hk
          obtain ⟨b, hb, rfl⟩ := List.mem_map.mp hk
          rw [Function.comp_apply, length_ige]
          exact hzero _ (List.mem_map_of_mem hb)
        rw [List.map_cons, List.flatten_cons, List.flatten_cons, hflat, hrest, List.append_nil, List.append_nil]

end Pieces

/-! ### Calls -/

section Calls

variable {call : List UInt8 → List UInt8 → Option (List UInt8 × List UInt8)} {lens : List ℕ}

theorem flatten_storeAll (bs : List (List AesBlock)) : (bs.map storeAll).flatten = storeAll bs.flatten := by
  induction bs with
  | nil => rfl
  | cons b bs ih => rw [List.map_cons, List.flatten_cons, List.flatten_cons, storeAll_append, ih]

/-- Pieces of whole blocks are stored blocks. -/
theorem exists_blocks : ∀ {pieces : List (List UInt8)} {lens : List ℕ},
    pieces.map List.length = lens.map (16 * ·) →
      ∃ bs : List (List AesBlock), bs.map List.length = lens ∧ pieces = bs.map storeAll
  | [], [], _ => ⟨[], rfl, rfl⟩
  | piece :: pieces, n :: lens, h => by
    obtain ⟨hn, hrest⟩ := List.cons.inj h
    obtain ⟨bs, hbs, rfl⟩ := exists_blocks hrest
    exact ⟨loadAll n piece :: bs, by rw [List.map_cons, length_loadAll, hbs],
      by rw [List.map_cons, storeAll_loadAll n hn]⟩

theorem map_length_storeAll (bs : List (List AesBlock)) :
    (bs.map storeAll).map List.length = (bs.map List.length).map (16 * ·) := by
  rw [List.map_map, List.map_map]
  exact List.map_congr_left fun b _ => length_storeAll b

theorem length_storeAll_mod (blocks : List AesBlock) : (storeAll blocks).length % 16 = 0 := by
  rw [length_storeAll]
  omega

/-- Calls that leave the vector as it is chain just when the recurrence restarts. -/
theorem chains_iff_restarts {f : AesBlock → AesBlock} (halves : List UInt8 → AesBlock × AesBlock)
    (hsurj : ∀ c p, ∃ iv, iv.length = 32 ∧ halves iv = (c, p))
    (hcall : ∀ iv src, iv.length = 32 → src.length % 16 = 0 →
      call iv src = some (iv, storeAll (ige f (halves iv).1 (halves iv).2 (blocksOf src)))) :
    Chains call 32 lens ↔ Restarts f lens := by
  have hrun : ∀ iv (bs : List (List AesBlock)), iv.length = 32 → (Machine.mk call).run iv (bs.map storeAll) =
      some (iv, (bs.map (ige f (halves iv).1 (halves iv).2)).map storeAll) := by
    intro iv bs hiv
    induction bs with
    | nil => rfl
    | cons b bs ih =>
      have hb := hcall iv (storeAll b) hiv (length_storeAll_mod b)
      rw [blocksOf_storeAll] at hb
      exact Machine.run_cons_of hb ih
  have hone : ∀ iv (bs : List (List AesBlock)), iv.length = 32 → call iv (bs.map storeAll).flatten =
      some (iv, storeAll (ige f (halves iv).1 (halves iv).2 bs.flatten)) := by
    intro iv bs hiv
    have hb := hcall iv (storeAll bs.flatten) hiv (length_storeAll_mod _)
    rwa [blocksOf_storeAll, ← flatten_storeAll] at hb
  constructor
  · intro h c p bs hbs
    obtain ⟨iv, hiv, hhalves⟩ := hsurj c p
    obtain ⟨iv', outs, iv'', out, hpieces, hwhole, hout⟩ := h iv (bs.map storeAll) hiv
      (by rw [map_length_storeAll, hbs])
    rw [hrun iv bs hiv, hhalves] at hpieces
    rw [hone iv bs hiv, hhalves] at hwhole
    obtain ⟨-, rfl⟩ := Prod.mk.inj (Option.some.inj hpieces)
    obtain ⟨-, rfl⟩ := Prod.mk.inj (Option.some.inj hwhole)
    rw [flatten_storeAll] at hout
    exact storeAll_injective hout
  · intro h iv pieces hiv hpieces
    obtain ⟨bs, hbs, rfl⟩ := exists_blocks hpieces
    refine ⟨_, _, _, _, hrun iv bs hiv, hone iv bs hiv, ?_⟩
    rw [flatten_storeAll, h _ _ bs hbs]

/-- Calls that store where the next one goes on chain. -/
theorem chains_of_append {g : AesBlock → List AesBlock → List AesBlock} {last : AesBlock → List AesBlock → AesBlock}
    (hnil : ∀ iv, g iv [] = []) (happend : ∀ iv a b, g iv (a ++ b) = g iv a ++ g (last iv a) b)
    (hcall : ∀ iv src, iv.length = 16 → src.length % 16 = 0 →
      call iv src = some ((last (load iv) (blocksOf src)).raw, storeAll (g (load iv) (blocksOf src))))
    (lens : List ℕ) : Chains call 16 lens := by
  have hrun : ∀ (bs : List (List AesBlock)) iv, iv.length = 16 → ∃ iv' outs,
      (Machine.mk call).run iv (bs.map storeAll) = some (iv', outs) ∧
        outs.flatten = storeAll (g (load iv) bs.flatten) := by
    intro bs
    induction bs with
    | nil =>
      intro iv _
      exact ⟨iv, [], rfl, by rw [List.flatten_nil, List.flatten_nil, hnil]; rfl⟩
    | cons b bs ih =>
      intro iv hiv
      have hb := hcall iv (storeAll b) hiv (length_storeAll_mod b)
      rw [blocksOf_storeAll] at hb
      obtain ⟨iv', outs, hrest, hout⟩ := ih (last (load iv) b).raw (length_raw _)
      have hload : load (last (load iv) b).raw = last (load iv) b := by
        have := load_raw_append (last (load iv) b) []
        rwa [List.append_nil] at this
      refine ⟨iv', _, Machine.run_cons_of hb hrest, ?_⟩
      rw [List.flatten_cons, hout, hload, List.flatten_cons, happend, storeAll_append]
  intro iv pieces hiv hpieces
  obtain ⟨bs, hbs, rfl⟩ := exists_blocks hpieces
  obtain ⟨iv', outs, hpieces, hout⟩ := hrun bs iv hiv
  have hone := hcall iv (storeAll bs.flatten) hiv (length_storeAll_mod _)
  rw [blocksOf_storeAll] at hone
  rw [flatten_storeAll]
  exact ⟨iv', outs, _, _, hpieces, hone, hout⟩

end Calls

section Functions

variable {aes : List UInt8 → Equiv.Perm AesBlock} {key : List UInt8}

theorem aesIgeEncrypt_eq (hkey : key.length = 32) (iv src : List UInt8) (hiv : iv.length = 32)
    (hsrc : src.length % 16 = 0) : aesIgeEncrypt aes key iv src =
      some (iv, storeAll (ige (aes key) (load iv) (load (iv.drop 16)) (blocksOf src))) := by
  unfold aesIgeEncrypt
  rw [if_pos hkey, show init iv = some ⟨load iv, load (iv.drop 16)⟩ from if_pos hiv]
  change (encrypt (aes key) ⟨load iv, load (iv.drop 16)⟩ src >>= _) = _
  rw [encrypt_spec _ hsrc]
  rfl

/-- Decryption is the recurrence with the inverse of the cipher and the halves of the vector exchanged. -/
theorem decryptLoop_ige (D : AesBlock → AesBlock) (blocks : List AesBlock) : ∀ s : AesIgeState,
    (decryptLoop D blocks.length s (storeAll blocks)).2 = storeAll (ige D s.plaintextIv s.encryptedIv blocks) := by
  induction blocks with
  | nil => exact fun _ => rfl
  | cons block blocks ih =>
    intro s
    have hcons : ∀ (b : AesBlock) (bs : List AesBlock), storeAll (b :: bs) = b.raw ++ storeAll bs :=
      fun _ _ => List.flatMap_cons
    rw [hcons, List.length_cons, decryptLoop, load_raw_append, List.drop_left' (length_raw _)]
    dsimp only
    rw [ih, ige, hcons, xor_comm s.plaintextIv]

theorem aesIgeDecrypt_eq (hkey : key.length = 32) (iv src : List UInt8) (hiv : iv.length = 32)
    (hsrc : src.length % 16 = 0) : aesIgeDecrypt aes key iv src =
      some (iv, storeAll (ige (aes key).symm (load (iv.drop 16)) (load iv) (blocksOf src))) := by
  have hblocks : storeAll (blocksOf src) = src := storeAll_loadAll _ (by omega)
  have hlen : (blocksOf src).length = src.length / 16 := length_loadAll _ _
  have hloop := decryptLoop_ige (aes key).symm (blocksOf src) ⟨load iv, load (iv.drop 16)⟩
  rw [hblocks, hlen] at hloop
  unfold aesIgeDecrypt
  rw [if_pos hkey, show init iv = some ⟨load iv, load (iv.drop 16)⟩ from if_pos hiv]
  change (decrypt (aes key).symm ⟨load iv, load (iv.drop 16)⟩ src >>= _) = _
  rw [decrypt, if_pos hsrc, ← hloop]
  rfl

/-- Any two blocks are the halves of a vector. -/
theorem exists_iv (c p : AesBlock) :
    ∃ iv : List UInt8, iv.length = 32 ∧ (load iv, load (iv.drop 16)) = (c, p) := by
  refine ⟨c.raw ++ p.raw, by rw [List.length_append, length_raw, length_raw], ?_⟩
  have hp := load_raw_append p []
  rw [List.append_nil] at hp
  rw [load_raw_append, List.drop_left' (length_raw c), hp]

theorem cbcEncrypt_append (E : AesBlock → AesBlock) (iv : AesBlock) (a b : List AesBlock) :
    cbcEncrypt E iv (a ++ b) = cbcEncrypt E iv a ++ cbcEncrypt E ((cbcEncrypt E iv a).getLastD iv) b := by
  induction a generalizing iv with
  | nil => rfl
  | cons block a ih => rw [List.cons_append, cbcEncrypt, ih, cbcEncrypt, List.getLastD_cons, List.cons_append]

theorem cbcDecrypt_append (D : AesBlock → AesBlock) (iv : AesBlock) (a b : List AesBlock) :
    cbcDecrypt D iv (a ++ b) = cbcDecrypt D iv a ++ cbcDecrypt D (a.getLastD iv) b := by
  induction a generalizing iv with
  | nil => rfl
  | cons block a ih => rw [List.cons_append, cbcDecrypt, ih, cbcDecrypt, List.getLastD_cons, List.cons_append]

end Functions

/-- **Chaining through the vector.**  With a cipher that is not affine, `aes_ige_encrypt` and `aes_ige_decrypt` on
pieces of the data agree with one call on all of it, for every vector and all data of these lengths, if and only if at
most one of the pieces is not empty.  `aes_cbc_encrypt` and `aes_cbc_decrypt` agree for all pieces. -/
theorem iv_chains_iff (aes : List UInt8 → Equiv.Perm AesBlock)
    (AES_cbc_encrypt : List UInt8 → List UInt8 → List UInt8 → Bool → List UInt8 × List UInt8)
    (hcbc : ComputesCbc aes AES_cbc_encrypt) (key : List UInt8) (hkey : key.length = 32)
    (hcipher : ¬Affine (aes key)) (lens : List ℕ) :
    (Chains (aesIgeEncrypt aes key) 32 lens ↔ AtMostOne lens) ∧
    (Chains (aesIgeDecrypt aes key) 32 lens ↔ AtMostOne lens) ∧
    Chains (aesCbcEncrypt AES_cbc_encrypt key) 16 lens ∧ Chains (aesCbcDecrypt AES_cbc_encrypt key) 16 lens := by
  refine ⟨?_, ?_, ?_, ?_⟩
  · rw [chains_iff_restarts _ exists_iv (aesIgeEncrypt_eq hkey)]
    exact restarts_iff hcipher lens
  · rw [chains_iff_restarts (fun iv => (load (iv.drop 16), load iv)) ?_ (aesIgeDecrypt_eq hkey)]
    · exact restarts_iff (fun h => hcipher (Affine.symm (f := (aes key).symm) h)) lens
    · intro c p
      obtain ⟨iv, hiv, hhalves⟩ := exists_iv p c
      obtain ⟨hp, hc⟩ := Prod.mk.inj hhalves
      exact ⟨iv, hiv, Prod.ext hc hp⟩
  · refine chains_of_append (fun _ => rfl) (cbcEncrypt_append (aes key)) (fun iv src hiv hsrc => ?_) lens
    exact (if_pos ⟨hkey, hiv⟩).trans (congrArg some (hcbc.encrypts key iv src hiv hsrc))
  · refine chains_of_append (fun _ => rfl) (cbcDecrypt_append (aes key).symm) (fun iv src hiv hsrc => ?_) lens
    exact (if_pos ⟨hkey, hiv⟩).trans (congrArg some (hcbc.decrypts key iv src hiv hsrc))

/-- AES under the key `00 01 .. 1f` at the blocks `00 11 .. ff` and `8e b3 .. 76`. -/
def aesAt : Equiv.Perm AesBlock :=
  (Equiv.swap ⟨0x0011223344556677, 0x8899aabbccddeeff⟩ ⟨0x8ea2b7ca516745bf, 0xeafc49904b496089⟩).trans
    (Equiv.swap ⟨0x8eb395f9153223c8, 0x6265e32b87948e76⟩ ⟨0xb6ac2f11b522ecb5, 0xd26ffc21280d647b⟩)

theorem aesAt_not_affine : ¬Affine aesAt := by
  intro h
  exact absurd (h ⟨0, 1⟩ ⟨0x0011223344556677, 0x8899aabbccddeeff⟩ ⟨0, 0⟩) (by decide)

theorem iv_chains_one : Chains (aesIgeEncrypt (fun _ => aesAt) ((List.range 32).map UInt8.ofNat)) 32 [0, 2] ∧
    Chains (aesIgeDecrypt (fun _ => aesAt) ((List.range 32).map UInt8.ofNat)) 32 [0, 2] := by
  have h := iv_chains_iff (fun _ => aesAt)
    (fun _ iv src encryptFlag =>
      if encryptFlag then (((cbcEncrypt aesAt (load iv) (blocksOf src)).getLastD (load iv)).raw,
        storeAll (cbcEncrypt aesAt (load iv) (blocksOf src)))
      else (((blocksOf src).getLastD (load iv)).raw, storeAll (cbcDecrypt aesAt.symm (load iv) (blocksOf src))))
    ⟨fun _ _ _ _ _ => rfl, fun _ _ _ _ _ => rfl⟩ ((List.range 32).map UInt8.ofNat) (by decide)
    aesAt_not_affine [0, 2]
  exact ⟨h.1.mpr (by decide), h.2.1.mpr (by decide)⟩

/-- The block `00 11 .. ff` twice, under that key and a vector of zeros: in two calls the second block is encrypted as
the first one. -/
theorem two_pieces_differ :
    ¬∀ (aes : List UInt8 → Equiv.Perm AesBlock) (key : List UInt8), key.length = 32 → ∀ lens,
      Chains (aesIgeEncrypt aes key) 32 lens := by
  intro h
  have hkey : ((List.range 32).map UInt8.ofNat).length = 32 := by decide
  have hchains := h (fun _ => aesAt) ((List.range 32).map UInt8.ofNat) hkey [1, 1]
  have hblocks := (chains_iff_restarts _ exists_iv (aesIgeEncrypt_eq hkey)).mp hchains ⟨0, 0⟩ ⟨0, 0⟩
    [[⟨0x0011223344556677, 0x8899aabbccddeeff⟩], [⟨0x0011223344556677, 0x8899aabbccddeeff⟩]] rfl
  exact absurd hblocks (by decide)

end TdUtils.AesIgeState
