import TdUtils.Crypto.AesIge
import TdUtils.Lib.Memory

/-!
# Crypto.AesIgeSlices — AES-IGE from one slice to another

`encrypt` and `decrypt` check that `to` has room for `from`, and process as many blocks as fit into `to`.  Slices lie in
one memory, and a pass over them records the places that it reads and writes.
-/

namespace TdUtils.AesIgeState

open Lib AesBlock
open AesCtrState (length_raw)

/-- A state, and what was done to the memory on the way to it. -/
structure Pass where
  state : AesIgeState
  memory : Memory
  reads : List ℕ
  writes : List ℕ

variable (E D : AesBlock → AesBlock)

/-- A batch of `encrypt`, from `in` to `out`. -/
def encryptBatch (p : Pass) (in_ out count : ℕ) : Pass :=
  let data := loadAll count (p.memory.load in_ (16 * count))
  let dataXored := p.state.xorOutput data (cbcEncrypt E p.state.encryptedIv (p.state.xorData data))
  { state := ⟨dataXored.getLastD p.state.encryptedIv, data.getLastD p.state.plaintextIv⟩
    memory := p.memory.store out (storeAll dataXored)
    reads := p.reads ++ List.range' in_ (16 * count)
    writes := p.writes ++ List.range' out (16 * count) }

def encryptBatches (p : Pass) (in_ out len : ℕ) : Pass :=
  if len = 0 then p
  else
    let count := min blockCount len
    encryptBatches (encryptBatch E p in_ out count) (in_ + 16 * count) (out + 16 * count) (len - count)
termination_by len
decreasing_by
  have : blockCount = 31 := rfl
  omega

/-- A round of `decrypt`. -/
def decryptBlock (p : Pass) (in_ out : ℕ) : Pass :=
  let encrypted := load (p.memory.load in_ 16)
  let plaintextIv := D (p.state.plaintextIv ^^^ encrypted) ^^^ p.state.encryptedIv
  { state := ⟨encrypted, plaintextIv⟩
    memory := p.memory.store out plaintextIv.raw
    reads := p.reads ++ List.range' in_ 16
    writes := p.writes ++ List.range' out 16 }

def decryptBlocks (p : Pass) (in_ out : ℕ) : ℕ → Pass
  | 0 => p
  | len + 1 => decryptBlocks (decryptBlock D p in_ out) (in_ + 16) (out + 16) len

/-- `encrypt`, with the addresses and the sizes of the slices; none is a failed `CHECK`. -/
def encryptSlices (s : AesIgeState) (memory : Memory) (from_ fromSize to_ toSize : ℕ) : Option Pass :=
  if fromSize % 16 = 0 ∧ fromSize ≤ toSize then
    some (encryptBatches E ⟨s, memory, [], []⟩ from_ to_ (toSize / 16))
  else none

def decryptSlices (s : AesIgeState) (memory : Memory) (from_ fromSize to_ toSize : ℕ) : Option Pass :=
  if fromSize % 16 = 0 ∧ fromSize ≤ toSize then
    some (decryptBlocks D ⟨s, memory, [], []⟩ from_ to_ (toSize / 16))
  else none

variable {E D}

/-! ### Passes -/

/-- One slice is the other, or they are apart. -/
def Apart (in_ out size : ℕ) : Prop := in_ = out ∨ in_ + size ≤ out ∨ out + size ≤ in_

/-- From `p` to `q` so many bytes are read and written, one after the other, and the state and the memory become what
the call makes of the bytes. -/
structure Processed (call : AesIgeState → List UInt8 → Option (AesIgeState × List UInt8)) (p q : Pass)
    (in_ out size : ℕ) : Prop where
  reads : q.reads = p.reads ++ List.range' in_ size
  writes : q.writes = p.writes ++ List.range' out size
  result : Apart in_ out size → ∃ bytes, call p.state (p.memory.load in_ size) = some (q.state, bytes) ∧
    q.memory = p.memory.store out bytes

/-- Calls that go on where the one before ended. -/
structure Streams (call : AesIgeState → List UInt8 → Option (AesIgeState × List UInt8)) : Prop where
  nil : ∀ s, call s [] = some (s, [])
  append : ∀ {s t u a b x y}, call s a = some (t, x) → call t b = some (u, y) →
    call s (a ++ b) = some (u, x ++ y)
  length : ∀ {s t a x}, call s a = some (t, x) → x.length = a.length

section Passes

variable {call : AesIgeState → List UInt8 → Option (AesIgeState × List UInt8)} {p q r : Pass} {in_ out a b : ℕ}

theorem Processed.refl (hcall : Streams call) (p : Pass) (in_ out : ℕ) : Processed call p p in_ out 0 := by
  refine ⟨by simp, by simp, fun _ => ⟨[], ?_, (Memory.store_nil _ _).symm⟩⟩
  exact hcall.nil p.state

theorem Processed.trans (hcall : Streams call) (h : Processed call p q in_ out a)
    (h' : Processed call q r (in_ + a) (out + a) b) : Processed call p r in_ out (a + b) := by
  refine ⟨?_, ?_, fun hapart => ?_⟩
  · rw [h'.reads, h.reads, List.append_assoc, List.range'_append_1]
  · rw [h'.writes, h.writes, List.append_assoc, List.range'_append_1]
  · unfold Apart at hapart
    obtain ⟨x, hx, hq⟩ := h.result (by unfold Apart; omega)
    obtain ⟨y, hy, hr⟩ := h'.result (by unfold Apart; omega)
    have hlen : x.length = a := by rw [hcall.length hx, Memory.length_load]
    rw [hq, Memory.load_store_of_apart (by omega)] at hy
    refine ⟨x ++ y, ?_, ?_⟩
    · rw [Memory.load_add]
      exact hcall.append hx hy
    · rw [hr, hq, Memory.store_append, hlen]

end Passes

/-! ### Encryption -/

theorem encrypt_streams : Streams (encrypt E) where
  nil s := rfl
  append {s t u a b x y} ha hb := by
    have hsize : ∀ {s t : AesIgeState} {a x : List UInt8}, encrypt E s a = some (t, x) → a.length % 16 = 0 := by
      intro s t a x h
      by_contra hne
      rw [encrypt, if_neg hne] at h
      cases h
    have haligned := hsize ha
    have hboth : (a ++ b).length % 16 = 0 := by
      have := hsize hb
      rw [List.length_append]
      omega
    rw [encrypt_spec s haligned] at ha
    obtain ⟨rfl, rfl⟩ := Prod.mk.inj (Option.some.inj ha)
    rw [encrypt_spec _ (hsize hb)] at hb
    obtain ⟨rfl, rfl⟩ := Prod.mk.inj (Option.some.inj hb)
    have hblocks : loadAll ((a ++ b).length / 16) (a ++ b) = loadAll (a.length / 16) a ++ loadAll (b.length / 16) b :=
      blocksOf_append b haligned
    rw [encrypt_spec s hboth, hblocks, after_append, ige_append, storeAll_append]
    rfl
  length {s t a x} h := by
    by_cases ha : a.length % 16 = 0
    · rw [encrypt_spec s ha] at h
      obtain ⟨-, rfl⟩ := Prod.mk.inj (Option.some.inj h)
      rw [length_storeAll, length_ige, length_loadAll]
      omega
    · rw [encrypt, if_neg ha] at h
      cases h

theorem encryptBatch_processed (p : Pass) (in_ out count : ℕ) :
    Processed (encrypt E) p (encryptBatch E p in_ out count) in_ out (16 * count) := by
  refine ⟨rfl, rfl, fun _ => ⟨_, ?_, rfl⟩⟩
  have hlen : (p.memory.load in_ (16 * count)).length / 16 = count := by
    rw [Memory.length_load]
    omega
  rw [encrypt_spec p.state (by rw [Memory.length_load]; omega), hlen, ← xorOutput_cbc]
  unfold after
  rw [← xorOutput_cbc]
  rfl

theorem encryptBatches_processed (p : Pass) (in_ out len : ℕ) :
    Processed (encrypt E) p (encryptBatches E p in_ out len) in_ out (16 * len) := by
  induction len using Nat.strongRecOn generalizing p in_ out with
  | _ len ih =>
    have hcount : blockCount = 31 := rfl
    rw [encryptBatches]
    split_ifs with hzero
    · subst hzero
      exact Processed.refl encrypt_streams p in_ out
    · have hbatch := encryptBatch_processed (E := E) p in_ out (min blockCount len)
      have hrest := hbatch.trans encrypt_streams (ih (len - min blockCount len) (by omega) _ _ _)
      have hsize : 16 * min blockCount len + 16 * (len - min blockCount len) = 16 * len := by omega
      rwa [hsize] at hrest

/-! ### Decryption -/

theorem decryptLoop_add (m n : ℕ) (s : AesIgeState) (input : List UInt8) :
    decryptLoop D (m + n) s input =
      ((decryptLoop D n (decryptLoop D m s input).1 (input.drop (16 * m))).1,
        (decryptLoop D m s input).2 ++ (decryptLoop D n (decryptLoop D m s input).1 (input.drop (16 * m))).2) := by
  induction m generalizing s input with
  | zero =>
    rw [Nat.zero_add]
    rfl
  | succ m ih =>
    have hdrop : 16 * (m + 1) = 16 + 16 * m := by omega
    rw [Nat.succ_add, decryptLoop]
    dsimp only
    rw [ih, List.drop_drop, hdrop, decryptLoop]
    dsimp only
    rw [List.append_assoc]

theorem decryptLoop_congr (len : ℕ) : ∀ (s : AesIgeState) (a b : List UInt8), a.length = 16 * len →
    decryptLoop D len s (a ++ b) = decryptLoop D len s a := by
  induction len with
  | zero => exact fun _ _ _ _ => rfl
  | succ len ih =>
    intro s a b ha
    have hload : load (a ++ b) = load a := by
      unfold load
      rw [List.take_append_of_le_length (by omega)]
    rw [decryptLoop, decryptLoop, hload, List.drop_append_of_le_length (by omega),
      ih _ _ b (by rw [List.length_drop]; omega)]

theorem length_decryptLoop (len : ℕ) (s : AesIgeState) (input : List UInt8) :
    (decryptLoop D len s input).2.length = 16 * len := by
  induction len generalizing s input with
  | zero => rfl
  | succ len ih =>
    rw [decryptLoop]
    dsimp only
    rw [List.length_append, length_raw, ih]
    omega

theorem decrypt_streams : Streams (decrypt D) where
  nil s := rfl
  append {s t u a b x y} ha hb := by
    unfold decrypt at ha hb ⊢
    split_ifs at ha hb with haligned hbligned
    have hsize : 16 * (a.length / 16) = a.length := by omega
    have hlen : (a ++ b).length / 16 = a.length / 16 + b.length / 16 := by
      rw [List.length_append]
      omega
    have hboth : (a ++ b).length % 16 = 0 := by
      rw [List.length_append]
      omega
    have ha' := Option.some.inj ha
    rw [if_pos hboth, hlen, decryptLoop_add, decryptLoop_congr _ s a b hsize.symm, ha', hsize, List.drop_left,
      Option.some.inj hb]
  length {s t a x} h := by
    unfold decrypt at h
    split_ifs at h with ha
    have hlen := length_decryptLoop (D := D) (a.length / 16) s a
    rw [Option.some.inj h] at hlen
    dsimp only at hlen
    omega

theorem decryptBlock_processed (p : Pass) (in_ out : ℕ) :
    Processed (decrypt D) p (decryptBlock D p in_ out) in_ out 16 := by
  refine ⟨rfl, rfl, fun _ => ⟨_, ?_, rfl⟩⟩
  have hlen : (p.memory.load in_ 16).length = 16 := Memory.length_load _ _ _
  unfold decrypt
  rw [hlen]
  change some (decryptLoop D (0 + 1) _ _) = _
  rw [decryptLoop]
  exact congrArg some (Prod.ext rfl (List.append_nil _))

theorem decryptBlocks_processed (len : ℕ) : ∀ (p : Pass) (in_ out : ℕ),
    Processed (decrypt D) p (decryptBlocks D p in_ out len) in_ out (16 * len) := by
  induction len with
  | zero => exact fun p in_ out => Processed.refl decrypt_streams p in_ out
  | succ len ih =>
    intro p in_ out
    have hsize : 16 * (len + 1) = 16 + 16 * len := by omega
    rw [decryptBlocks, hsize]
    exact (decryptBlock_processed p in_ out).trans decrypt_streams (ih _ _ _)

/-! ### What is processed -/

/-- The pass reads inside `from`, writes the first bytes of `to`, as many as `from` has, and leaves the state of a call
on just the bytes of `from`. -/
structure Exact (call : AesIgeState → List UInt8 → Option (AesIgeState × List UInt8)) (s : AesIgeState)
    (memory : Memory) (from_ fromSize to_ : ℕ) (q : Pass) : Prop where
  reads : ∀ a ∈ q.reads, from_ ≤ a ∧ a < from_ + fromSize
  writes : ∀ a, a ∈ q.writes ↔ to_ ≤ a ∧ a < to_ + fromSize
  result : Apart from_ to_ fromSize → ∃ bytes, call s (memory.load from_ fromSize) = some (q.state, bytes) ∧
    q.memory = memory.store to_ bytes

section Exact

variable {call : AesIgeState → List UInt8 → Option (AesIgeState × List UInt8)} {s : AesIgeState} {memory : Memory}
  {from_ fromSize to_ toSize : ℕ} {q : Pass}

theorem Processed.exact_iff (hsize : fromSize % 16 = 0) (hfits : fromSize ≤ toSize)
    (h : Processed call ⟨s, memory, [], []⟩ q from_ to_ (16 * (toSize / 16))) :
    Exact call s memory from_ fromSize to_ q ↔ toSize < fromSize + 16 := by
  have hreads : q.reads = List.range' from_ (16 * (toSize / 16)) := h.reads
  have hwrites : q.writes = List.range' to_ (16 * (toSize / 16)) := h.writes
  constructor
  · intro hexact
    by_contra hlt
    -- the first byte behind `from` is read
    have hmem : from_ + fromSize ∈ q.reads := by
      rw [hreads, List.mem_range'_1]
      omega
    exact absurd (hexact.reads _ hmem).2 (Nat.lt_irrefl _)
  · intro hlt
    have hlen : 16 * (toSize / 16) = fromSize := by omega
    rw [hlen] at h hreads hwrites
    refine ⟨fun a ha => ?_, fun a => ?_, h.result⟩
    · rw [hreads, List.mem_range'_1] at ha
      exact ha
    · rw [hwrites, List.mem_range'_1]

end Exact

/-- **Slices of different sizes.**  A call whose `CHECK`s hold is exact if and only if `to` is less than a block longer
than `from`. -/
theorem slices_exact_iff (E D : AesBlock → AesBlock) (s : AesIgeState) (memory : Memory)
    (from_ fromSize to_ toSize : ℕ) (hsize : fromSize % 16 = 0) (hfits : fromSize ≤ toSize) :
    (∃ q, encryptSlices E s memory from_ fromSize to_ toSize = some q ∧
      (Exact (encrypt E) s memory from_ fromSize to_ q ↔ toSize < fromSize + 16)) ∧
    ∃ q, decryptSlices D s memory from_ fromSize to_ toSize = some q ∧
      (Exact (decrypt D) s memory from_ fromSize to_ q ↔ toSize < fromSize + 16) :=
  ⟨⟨_, if_pos ⟨hsize, hfits⟩, (encryptBatches_processed _ from_ to_ _).exact_iff hsize hfits⟩,
    ⟨_, if_pos ⟨hsize, hfits⟩, (decryptBlocks_processed _ _ from_ to_).exact_iff hsize hfits⟩⟩

/-- AES-256 under the key `00 01 .. 1f` on the two blocks that it is called with below. -/
def twoBlocks : Equiv.Perm AesBlock :=
  (Equiv.swap ⟨0x646464646c6c6c6c, 0x646464647c7c7c7c⟩ ⟨0x1b4dd132a4c840a3, 0x2931649f08e9c042⟩).trans <|
    Equiv.swap ⟨0x7f29b556c8a42ccf, 0x4d5500fb94755cde⟩ ⟨0xdfc59422461b9bd2, 0x17408855032de197⟩

/-- The bytes `64 65 .. 83` under the iv `00 01 .. 1f`; `to` has room for half a block more, which is not written. -/
theorem slices_exact_two_blocks : ∃ q,
    encryptSlices twoBlocks ⟨⟨0x0001020304050607, 0x08090a0b0c0d0e0f⟩, ⟨0x1011121314151617, 0x18191a1b1c1d1e1f⟩⟩
      UInt8.ofNat 100 32 200 40 = some q ∧
    q.memory.load 200 34 = [0x0b, 0x5c, 0xc3, 0x21, 0xb0, 0xdd, 0x56, 0xb4, 0x31, 0x28, 0x7e, 0x84, 0x14, 0xf4, 0xde, 0x5d,
      0xbb, 0xa0, 0xf2, 0x45, 0x2e, 0x72, 0xf1, 0xb9, 0x7b, 0x2d, 0xe6, 0x3a, 0x73, 0x5c, 0x93, 0xe4, 232, 233] := by
  obtain ⟨q, hq, hexact⟩ := (slices_exact_iff twoBlocks twoBlocks.symm
    ⟨⟨0x0001020304050607, 0x08090a0b0c0d0e0f⟩, ⟨0x1011121314151617, 0x18191a1b1c1d1e1f⟩⟩ UInt8.ofNat 100 32 200 40
    (by decide) (by decide)).1
  obtain ⟨bytes, hcall, hmemory⟩ := (hexact.mpr (by decide)).result (Or.inr (Or.inl (by decide)))
  have hbytes : (encrypt twoBlocks
      ⟨⟨0x0001020304050607, 0x08090a0b0c0d0e0f⟩, ⟨0x1011121314151617, 0x18191a1b1c1d1e1f⟩⟩
        (Memory.load UInt8.ofNat 100 32)).map Prod.snd =
      some [0x0b, 0x5c, 0xc3, 0x21, 0xb0, 0xdd, 0x56, 0xb4, 0x31, 0x28, 0x7e, 0x84, 0x14, 0xf4, 0xde, 0x5d,
        0xbb, 0xa0, 0xf2, 0x45, 0x2e, 0x72, 0xf1, 0xb9, 0x7b, 0x2d, 0xe6, 0x3a, 0x73, 0x5c, 0x93, 0xe4] := by
    decide +kernel
  rw [hcall] at hbytes
  obtain rfl := Option.some.inj hbytes
  refine ⟨q, hq, ?_⟩
  rw [hmemory]
  decide +kernel

/-- With an empty `from` and one block of room in `to`, both read and write a block. -/
theorem empty_from_processed :
    ¬∀ (E D : AesBlock → AesBlock) (s : AesIgeState) (memory : Memory) (from_ fromSize to_ toSize : ℕ),
      fromSize % 16 = 0 → fromSize ≤ toSize →
      (∀ q, encryptSlices E s memory from_ fromSize to_ toSize = some q →
        Exact (encrypt E) s memory from_ fromSize to_ q) ∨
      ∀ q, decryptSlices D s memory from_ fromSize to_ toSize = some q →
        Exact (decrypt D) s memory from_ fromSize to_ q := by
  intro h
  rcases h id id ⟨⟨0, 0⟩, ⟨0, 0⟩⟩ (fun _ => 0) 100 0 200 16 (by decide) (by decide) with h | h
  · have hprocessed : Processed (encrypt id) _ _ 100 200 (16 * (16 / 16)) :=
      encryptBatches_processed ⟨⟨⟨0, 0⟩, ⟨0, 0⟩⟩, fun _ => 0, [], []⟩ 100 200 _
    exact Nat.lt_irrefl 16 ((hprocessed.exact_iff (by decide) (by decide)).mp (h _ rfl))
  · have hprocessed : Processed (decrypt id) _ _ 100 200 (16 * (16 / 16)) :=
      decryptBlocks_processed _ ⟨⟨⟨0, 0⟩, ⟨0, 0⟩⟩, fun _ => 0, [], []⟩ 100 200
    exact Nat.lt_irrefl 16 ((hprocessed.exact_iff (by decide) (by decide)).mp (h _ rfl))

end TdUtils.AesIgeState
