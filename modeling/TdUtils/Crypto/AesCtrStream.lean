import Mathlib.Data.List.Forall2
import TdUtils.Crypto.XorBytes
import TdUtils.Lib.Machine

/-!
# Crypto.AesCtrStream — AES in counter mode on the memory of its caller

Each call of `encrypt` reads a range of the memory and writes one, in place or elsewhere.  Whatever the calls
are, the bytes written are the bytes read, xored with the keystream.
-/

namespace TdUtils.AesCtrState

open Lib (Memory)
open XorBytes

/-- A call of `encrypt` or `decrypt`: the memory before it, and where `from` and `to` are. -/
structure Call where
  mem : Memory
  src : ℕ
  dst : ℕ
  size : ℕ

namespace Call

def input (c : Call) : List UInt8 := c.mem.load c.src c.size

/-- What stands in `to` in a memory. -/
def output (c : Call) (mem : Memory) : List UInt8 := mem.load c.dst c.size

/-- `from` and `to` are the same range or do not touch. -/
def Proper (c : Call) : Prop := Apart c.src c.dst c.size

end Call

variable (E : AesBlock → AesBlock)

/-- The loop of `encrypt`. -/
def encryptAt : ℕ → AesCtrState → Memory → ℕ → ℕ → ℕ → Option (AesCtrState × Memory)
  | 0, s, mem, _, _, n => if n = 0 then some (s, mem) else none
  | fuel + 1, s, mem, src, dst, n =>
    if n = 0 then some (s, mem)
    else
      let s := if AesCtrCounterPack.size - s.current = 0 then fill E s else s
      let minN := min n (AesCtrCounterPack.size - s.current)
      let mem := XorBytes.run mem src (s.encryptedCounter.drop s.current) dst minN
      encryptAt fuel { s with current := s.current + minN } mem (src + minN) (dst + minN) (n - minN)

/-- An object that is called; it answers with the memory after the call. -/
def machine : Lib.Machine AesCtrState Call Memory := ⟨fun s c => encryptAt E c.size s c.mem c.src c.dst c.size⟩

/-- All bytes read, in the order of the calls. -/
def inputs (calls : List Call) : List UInt8 := calls.flatMap Call.input

/-- All bytes written. -/
def outputs (calls : List Call) (mems : List Memory) : List UInt8 :=
  (List.zipWith Call.output calls mems).flatten

variable {E} {iv : AesBlock}

theorem length_init (n : ℕ) (block : AesBlock) : (AesCtrCounterPack.init n block).length = n := by
  induction n generalizing block with
  | zero => rfl
  | succ n ih => rw [AesCtrCounterPack.init, List.length_cons, ih]

theorem length_fill (s : AesCtrState) : (fill E s).encryptedCounter.length = AesCtrCounterPack.size := by
  have hblocks : ∀ blocks : List AesBlock,
      (blocks.flatMap fun block => (E block).raw).length = 16 * blocks.length := by
    intro blocks
    induction blocks with
    | nil => rfl
    | cons block blocks ih =>
      rw [List.flatMap_cons, List.length_append, ih, length_raw, List.length_cons]
      omega
  unfold fill
  dsimp only
  rw [hblocks, length_init]
  rfl

/-- The loop on memory computes what the loop on bytes computes. -/
theorem encryptAt_eq (fuel : ℕ) :
    ∀ (s : AesCtrState) (mem : Memory) {src dst n : ℕ}, Apart src dst n →
      s.encryptedCounter.length = AesCtrCounterPack.size →
      encryptAt E fuel s mem src dst n =
        (encryptLoop E fuel s (mem.load src n)).map fun (t, bytes) => (t, mem.store dst bytes) := by
  induction fuel with
  | zero =>
    intro s mem src dst n _ _
    by_cases hn : n = 0
    · subst hn
      exact congrArg some (Prod.ext rfl (Memory.store_nil mem dst).symm)
    · have hload : mem.load src n ≠ [] := fun h => hn (by rw [← Memory.length_load mem src n, h]; rfl)
      rw [encryptAt, encryptLoop, if_neg hn, if_neg hload]
      rfl
  | succ fuel ih =>
    intro s mem src dst n ha hlen
    by_cases hn : n = 0
    · subst hn
      exact congrArg some (Prod.ext rfl (Memory.store_nil mem dst).symm)
    · have hload : mem.load src n ≠ [] := fun h => hn (by rw [← Memory.length_load mem src n, h]; rfl)
      rw [encryptAt, encryptLoop, if_neg hn, if_neg hload, Memory.length_load]
      have hfilled : (if AesCtrCounterPack.size - s.current = 0 then fill E s else s).encryptedCounter.length =
          AesCtrCounterPack.size := by
        split_ifs
        · exact length_fill s
        · exact hlen
      generalize (if AesCtrCounterPack.size - s.current = 0 then fill E s else s) = s' at hfilled ⊢
      dsimp only
      generalize hmin : min n (AesCtrCounterPack.size - s'.current) = k
      obtain ⟨m, rfl⟩ := Nat.exists_eq_add_of_le (show k ≤ n by omega)
      have hdrop : k ≤ (s'.encryptedCounter.drop s'.current).length := by
        rw [List.length_drop]
        omega
      have hpiece : (xorBytes (mem.load src k) ((s'.encryptedCounter.drop s'.current).take k)).length = k := by
        rw [length_xorBytes, Memory.length_load, List.length_take]
        omega
      have hrest := ih { s' with current := s'.current + k }
        (mem.store dst (xorBytes (mem.load src k) ((s'.encryptedCounter.drop s'.current).take k))) ha.right hfilled
      rw [Memory.take_load (Nat.le_add_right k m), Memory.drop_load (Nat.le_add_right k m),
        Nat.add_sub_cancel_left, XorBytes.run_spec ha.left hdrop, hrest, ha.load_right hpiece, Option.map_map]
      congr 1
      funext r
      rcases r with ⟨t, bytes⟩
      exact Prod.ext rfl ((Memory.store_append _ _ _ _).trans (by rw [hpiece])).symm

theorem ctr_ctr (n : ℕ) (bytes : List UInt8) : ctr E iv n (ctr E iv n bytes) = bytes := by
  apply List.ext_getElem
  · rw [length_ctr, length_ctr]
  · intro i _ _
    simp only [ctr, List.getElem_mapIdx]
    rw [UInt8.xor_assoc, UInt8.xor_self, UInt8.xor_zero]

theorem Streamed.length {s : AesCtrState} {n : ℕ} (h : Streamed E iv s n) :
    s.encryptedCounter.length = AesCtrCounterPack.size := by
  obtain ⟨m, -, -, hpack⟩ := h.pack
  rw [hpack, List.length_map, List.length_range]
  rfl

/-- One call goes on with the keystream where the last one stopped. -/
theorem call_spec {s : AesCtrState} {n : ℕ} {c : Call} (h : Streamed E iv s n) (hc : c.Proper) :
    ∃ t, (machine E).step s c = some (t, c.mem.store c.dst (ctr E iv n c.input)) ∧
      Streamed E iv t (n + c.size) := by
  obtain ⟨t, hrun, ht⟩ := encrypt_spec h c.input
  have hsize : c.input.length = c.size := Memory.length_load _ _ _
  rw [encrypt, hsize] at hrun
  rw [hsize] at ht
  refine ⟨t, ?_, ht⟩
  show encryptAt E c.size s c.mem c.src c.dst c.size = _
  rw [encryptAt_eq c.size s c.mem hc h.length]
  exact congrArg (Option.map _) hrun

/-- The calls from some place of the keystream on. -/
theorem calls_spec (calls : List Call) :
    ∀ {s : AesCtrState} {n : ℕ}, Streamed E iv s n → (∀ c ∈ calls, c.Proper) →
      ∃ t mems, (machine E).run s calls = some (t, mems) ∧
        outputs calls mems = ctr E iv n (inputs calls) ∧
        List.Forall₂ (fun c mem => ∃ bytes : List UInt8, bytes.length = c.size ∧ mem = c.mem.store c.dst bytes)
          calls mems := by
  induction calls with
  | nil => exact fun _ _ => ⟨_, [], rfl, rfl, .nil⟩
  | cons c calls ih =>
    intro s n h hall
    obtain ⟨s', hstep, h'⟩ := call_spec h (hall c List.mem_cons_self)
    obtain ⟨t, mems, hrun, hout, hmems⟩ := ih h' fun c hc => hall c (List.mem_cons_of_mem _ hc)
    have hsize : c.input.length = c.size := Memory.length_load _ _ _
    have hlen : (ctr E iv n c.input).length = c.size := (length_ctr n _).trans hsize
    have hwritten : c.output (c.mem.store c.dst (ctr E iv n c.input)) = ctr E iv n c.input := by
      unfold Call.output
      rw [← hlen]
      exact Memory.load_store _ _ _
    refine ⟨t, _ :: mems, Lib.Machine.run_cons_of hstep hrun, ?_, .cons ⟨_, hlen, rfl⟩ hmems⟩
    have hcons : inputs (c :: calls) = c.input ++ inputs calls := List.flatMap_cons
    rw [hcons, ctr_append, hsize, ← hout]
    exact congrArg (· ++ outputs calls mems) hwritten

/-- Any calls encrypt the bytes they read, one after the other, and write nowhere else; any calls that read
what these have written get the bytes back. -/
theorem streaming (E : AesBlock → AesBlock) (iv : AesBlock) (calls : List Call)
    (hcalls : ∀ c ∈ calls, c.Proper) :
    ∃ s mems, (machine E).run (init E iv) calls = some (s, mems) ∧
      outputs calls mems = ctr E iv 0 (inputs calls) ∧
      List.Forall₂ (fun c mem => ∀ q, q < c.dst ∨ c.dst + c.size ≤ q → mem q = c.mem q) calls mems ∧
      ∀ calls' : List Call, (∀ c ∈ calls', c.Proper) → inputs calls' = outputs calls mems →
        ∃ s' mems', (machine E).run (init E iv) calls' = some (s', mems') ∧
          outputs calls' mems' = inputs calls := by
  obtain ⟨s, mems, hrun, hout, hmems⟩ := calls_spec calls streamed_init hcalls
  refine ⟨s, mems, hrun, hout, hmems.imp ?_, ?_⟩
  · rintro c mem ⟨bytes, hlen, rfl⟩ q hq
    rcases hq with hq | hq
    · exact Memory.store_of_lt hq
    · exact Memory.store_of_ge (hlen ▸ hq)
  · intro calls' hcalls' hread
    obtain ⟨s', mems', hrun', hout', -⟩ := calls_spec calls' streamed_init hcalls'
    refine ⟨s', mems', hrun', ?_⟩
    rw [hout', hread, hout, ctr_ctr]

/-- Twenty bytes in place, and three more to somewhere else. -/
theorem streaming_in_place : ∃ s mems,
    (machine id).run (init id ⟨0, 0⟩) [⟨UInt8.ofNat, 0, 0, 20⟩, ⟨UInt8.ofNat, 5, 100, 3⟩] = some (s, mems) ∧
    outputs [⟨UInt8.ofNat, 0, 0, 20⟩, ⟨UInt8.ofNat, 5, 100, 3⟩] mems =
      ctr id ⟨0, 0⟩ 0 (inputs [⟨UInt8.ofNat, 0, 0, 20⟩, ⟨UInt8.ofNat, 5, 100, 3⟩]) := by
  obtain ⟨s, mems, hrun, hout, -⟩ := streaming id ⟨0, 0⟩ [⟨UInt8.ofNat, 0, 0, 20⟩, ⟨UInt8.ofNat, 5, 100, 3⟩]
    fun c hc => by
      obtain rfl | rfl := List.mem_pair.mp hc
      · exact Or.inl rfl
      · exact Or.inr (Or.inl (by decide))
  exact ⟨s, mems, hrun, hout⟩

end TdUtils.AesCtrState
