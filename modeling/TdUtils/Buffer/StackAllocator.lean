import Mathlib.Data.List.Basic
import TdUtils.Lib.Machine
import TdUtils.Lib.Memory
import TdUtils.Lib.Word

/-!
# Buffer.StackAllocator — memory that is given back in the reverse order

A thread has one megabyte, and each `Ptr` is a part of it behind the others.  To destroy a `Ptr` sets the position back to
where it begins, whatever is behind it; `stack_safe` is about the threads that destroy first what they have allocated last.
-/

namespace TdUtils

open Lib

/-- The slice of a `Ptr`. -/
structure StackPtr where
  ptr : ℕ
  size : ℕ

/-- `Impl`, with the `Ptr`s in the order of their allocations; one that is destroyed is `none`. -/
structure StackAllocator where
  mem : Memory := fun _ => 0
  pos : ℕ := 0
  ptrs : List (Option StackPtr) := []

namespace StackAllocator

def memSize : ℕ := 1024 * 1024

/-- What is taken for `size` bytes, a `size_t`. -/
def taken (size : ℕ) : ℕ := Word.add 64 (if size = 0 then 1 else size) 7 / 8 * 8

/-- Where the bytes begin, and the new position; `none` is `abort`. -/
def implAlloc (pos size : ℕ) : Option (ℕ × ℕ) :=
  let res := pos
  let pos := Word.add 64 pos (taken size)
  if memSize < pos then none else some (res, pos)

def implFreePtr (pos ptr : ℕ) : Option ℕ := if pos ≤ ptr then none else some ptr

/-- A `Ptr` that is moved keeps its number. -/
inductive Op where
  | alloc (size : ℕ)
  | destroy (i : ℕ)
  | write (i offset : ℕ) (bytes : List UInt8)
  | read (i : ℕ)

/-- `none` is also an access out of `mem`, or through a `Ptr` that is not there. -/
def step (s : StackAllocator) : Op → Option (StackAllocator × List UInt8)
  | .alloc size => (implAlloc s.pos size).map fun (res, pos) => ({ s with pos := pos, ptrs := s.ptrs ++ [some ⟨res, size⟩] }, [])
  | .destroy i =>
    match s.ptrs[i]?.join with
    | some p => (implFreePtr s.pos p.ptr).map fun pos => ({ s with pos := pos, ptrs := s.ptrs.set i none }, [])
    | none => some (s, [])
  | .write i offset bytes =>
    match s.ptrs[i]?.join with
    | some p =>
      if offset + bytes.length ≤ p.size ∧ p.ptr + p.size ≤ memSize then
        some ({ s with mem := s.mem.store (p.ptr + offset) bytes }, [])
      else none
    | none => none
  | .read i =>
    match s.ptrs[i]?.join with
    | some p => if p.ptr + p.size ≤ memSize then some (s, s.mem.load p.ptr p.size) else none
    | none => none

def machine : Machine StackAllocator Op (List UInt8) := ⟨step⟩

/-! ### The sizes -/

/-- The size, at least one, as a multiple of eight. -/
def rounded (size : ℕ) : ℕ := (max size 1 + 7) / 8 * 8

/-- What the `Ptr`s that are there take together. -/
def used : List (Option StackPtr) → ℕ
  | [] => 0
  | none :: ps => used ps
  | some p :: ps => rounded p.size + used ps

theorem le_rounded (size : ℕ) : size ≤ rounded size ∧ 0 < rounded size := by
  unfold rounded
  omega

theorem taken_eq {size : ℕ} (hsize : size < 2 ^ 64) : taken size = rounded size % 2 ^ 64 := by
  unfold taken rounded Word.add
  split <;> omega

theorem implAlloc_of_le {pos size : ℕ} (h : pos + rounded size ≤ memSize) :
    implAlloc pos size = some (pos, pos + rounded size) := by
  have hle := (le_rounded size).1
  have hmem : memSize = 1048576 := rfl
  have htaken : taken size = rounded size := by
    rw [taken_eq (by omega), Nat.mod_eq_of_lt (by omega)]
  unfold implAlloc
  dsimp only
  rw [htaken, Word.add_of_lt (by omega), if_neg (Nat.not_lt_of_le h)]

/-- Near the end of `size_t` the sum wraps, and the check passes. -/
theorem implAlloc_eq_none_iff {pos size : ℕ} (hpos : pos ≤ memSize) (hsize : size < 2 ^ 64) :
    implAlloc pos size = none ↔ memSize < pos + rounded size ∧ pos + rounded size < 2 ^ 64 := by
  have hmem : memSize = 1048576 := rfl
  have hround : rounded size ≤ 2 ^ 64 := by
    unfold rounded
    omega
  unfold implAlloc Word.add
  dsimp only
  rw [taken_eq hsize]
  split
  · rename_i hover
    refine ⟨fun _ => ?_, fun _ => rfl⟩
    omega
  · rename_i hover
    refine ⟨fun h => absurd h (Option.some_ne_none _), fun h => ?_⟩
    omega

/-! ### The stack -/

/-- The `Ptr`s that are there stand one behind the other from `a` to `b`. -/
def Stacked : ℕ → List (Option StackPtr) → ℕ → Prop
  | a, [], b => a = b
  | a, none :: ps, b => Stacked a ps b
  | a, some p :: ps, b => p.ptr = a ∧ Stacked (a + rounded p.size) ps b

variable {a b c i j : ℕ} {p q : StackPtr} {s t : StackAllocator}

theorem stacked_append : ∀ (ps qs : List (Option StackPtr)) (a : ℕ),
    Stacked a (ps ++ qs) c ↔ ∃ b, Stacked a ps b ∧ Stacked b qs c
  | [], qs, a => by
    constructor
    · exact fun h => ⟨a, rfl, h⟩
    · rintro ⟨b, rfl, hqs⟩
      exact hqs
  | none :: ps, qs, a => stacked_append ps qs a
  | some p :: ps, qs, a => by
    constructor
    · rintro ⟨hp, h⟩
      obtain ⟨b, hps, hqs⟩ := (stacked_append ps qs _).mp h
      exact ⟨b, ⟨hp, hps⟩, hqs⟩
    · rintro ⟨b, ⟨hp, hps⟩, hqs⟩
      exact ⟨hp, (stacked_append ps qs _).mpr ⟨b, hps, hqs⟩⟩

theorem Stacked.eq_used : ∀ {ps : List (Option StackPtr)} {a : ℕ}, Stacked a ps b → b = a + used ps
  | [], _, h => h.symm
  | none :: ps, a, h => by
    have hrest : Stacked a ps b := h
    exact hrest.eq_used
  | some p :: ps, a, h => by
    have hrest : Stacked (a + rounded p.size) ps b := h.2
    rw [hrest.eq_used, used, Nat.add_assoc]

theorem stacked_self : ∀ {ps : List (Option StackPtr)}, (∀ p ∈ ps, p = none) → Stacked b ps b
  | [], _ => rfl
  | none :: ps, hnone => show Stacked b ps b from stacked_self fun p hp => hnone p (List.mem_cons_of_mem _ hp)
  | some _ :: _, hnone => by cases hnone _ List.mem_cons_self

theorem Stacked.below : ∀ {ps : List (Option StackPtr)} {a i : ℕ}, Stacked a ps b → ps[i]?.join = some p →
    a ≤ p.ptr ∧ p.ptr + rounded p.size ≤ b
  | none :: ps, a, i + 1, h, hp => Stacked.below (show Stacked a ps b from h) hp
  | some q :: ps, a, 0, h, hp => by
    cases hp
    have hb := Stacked.eq_used h.2
    have hq := h.1
    omega
  | some q :: ps, a, i + 1, h, hp => by
    have hrest := Stacked.below (show Stacked (a + rounded q.size) ps b from h.2) hp
    omega

theorem Stacked.apart : ∀ {ps : List (Option StackPtr)} {a i j : ℕ}, Stacked a ps b → i < j → ps[i]?.join = some p →
    ps[j]?.join = some q → p.ptr + rounded p.size ≤ q.ptr
  | none :: ps, a, i + 1, j + 1, h, hij, hp, hq =>
    Stacked.apart (show Stacked a ps b from h) (Nat.lt_of_succ_lt_succ hij) hp hq
  | some x :: ps, a, 0, j + 1, h, _, hp, hq => by
    cases hp
    rw [h.1]
    exact (Stacked.below h.2 hq).1
  | some x :: ps, a, i + 1, j + 1, h, hij, hp, hq =>
    Stacked.apart (show Stacked (a + rounded x.size) ps b from h.2) (Nat.lt_of_succ_lt_succ hij) hp hq

/-- What every step keeps. -/
structure Sound (s : StackAllocator) : Prop where
  stacked : Stacked 0 s.ptrs s.pos
  le : s.pos ≤ memSize

theorem Sound.pos_eq (h : s.Sound) : s.pos = used s.ptrs := by rw [h.stacked.eq_used, Nat.zero_add]

/-- The slices are in `mem`, and no two of them share a byte. -/
def Apart (s : StackAllocator) : Prop := ∀ (i : ℕ) (p : StackPtr), s.ptrs[i]?.join = some p →
  p.ptr + p.size ≤ memSize ∧ ∀ (j : ℕ) (q : StackPtr), j ≠ i → s.ptrs[j]?.join = some q → p.ptr + p.size ≤ q.ptr ∨ q.ptr + q.size ≤ p.ptr

theorem Sound.apart (h : s.Sound) : s.Apart := by
  intro i p hp
  have hpsize := (le_rounded p.size).1
  refine ⟨Nat.le_trans (Nat.add_le_add_left hpsize _) (Nat.le_trans (h.stacked.below hp).2 h.le), fun j q hij hq => ?_⟩
  have hqsize := (le_rounded q.size).1
  rcases Nat.lt_or_gt_of_ne hij with hlt | hgt
  · have := h.stacked.apart hlt hq hp
    omega
  · have := h.stacked.apart hgt hp hq
    omega

/-! ### The runs -/

/-- The memory suffices, what is destroyed is the last one that is there, and what is used is there. -/
def Proper (s : StackAllocator) : Op → Prop
  | .alloc size => used s.ptrs + rounded size ≤ memSize
  | .destroy i => s.ptrs[i]?.join.isSome → ∀ p ∈ s.ptrs.drop (i + 1), p = none
  | .write i offset bytes => ∃ p ∈ s.ptrs[i]?.join, offset + bytes.length ≤ p.size
  | .read i => s.ptrs[i]?.join.isSome

instance decidableProper (s : StackAllocator) : ∀ op, Decidable (s.Proper op)
  | .alloc size => inferInstanceAs (Decidable (used s.ptrs + rounded size ≤ memSize))
  | .destroy i => inferInstanceAs (Decidable (s.ptrs[i]?.join.isSome → ∀ p ∈ s.ptrs.drop (i + 1), p = none))
  | .write i offset bytes => inferInstanceAs (Decidable (∃ p ∈ s.ptrs[i]?.join, offset + bytes.length ≤ p.size))
  | .read i => inferInstanceAs (Decidable (s.ptrs[i]?.join.isSome = true))

/-- The operation destroys the `Ptr` or writes through it. -/
def Op.Touches (i : ℕ) : Op → Prop
  | .destroy j => j = i
  | .write j _ _ => j = i
  | _ => False

/-- The `Ptr` and its bytes are as they were. -/
def Keeps (s t : StackAllocator) (i : ℕ) : Prop := ∀ p : StackPtr, s.ptrs[i]?.join = some p →
  t.ptrs[i]?.join = some p ∧ t.mem.load p.ptr p.size = s.mem.load p.ptr p.size

theorem step_alloc {size : ℕ} (h : s.pos + rounded size ≤ memSize) :
    s.step (.alloc size) =
      some ({ s with pos := s.pos + rounded size, ptrs := s.ptrs ++ [some ⟨s.pos, size⟩] }, []) := by
  unfold step
  dsimp only
  rw [implAlloc_of_le h]
  rfl

theorem Sound.alloc (h : s.Sound) {size : ℕ} (hproper : s.Proper (.alloc size)) :
    ∃ t answer, s.step (.alloc size) = some (t, answer) ∧ t.Sound ∧ ∀ i, Keeps s t i := by
  have hle : s.pos + rounded size ≤ memSize := h.pos_eq ▸ hproper
  refine ⟨_, _, step_alloc hle, ⟨?_, hle⟩, fun i p hp => ⟨?_, rfl⟩⟩
  · exact (stacked_append _ _ _).mpr ⟨s.pos, h.stacked, rfl, rfl⟩
  · have hlt : i < s.ptrs.length := (List.getElem?_eq_some_iff.mp (Option.join_eq_some_iff.mp hp)).1
    rw [List.getElem?_append_left hlt]
    exact hp

theorem Sound.step_destroy (h : s.Sound) (hp : s.ptrs[i]?.join = some p) :
    s.step (.destroy i) = some ({ s with pos := p.ptr, ptrs := s.ptrs.set i none }, []) := by
  have hbelow := (h.stacked.below hp).2
  have hround := (le_rounded p.size).2
  unfold step
  dsimp only
  rw [hp]
  dsimp only
  unfold implFreePtr
  rw [if_neg (by omega)]
  rfl

theorem Sound.destroy (h : s.Sound) (hproper : s.Proper (.destroy i)) :
    ∃ t answer, s.step (.destroy i) = some (t, answer) ∧ t.Sound ∧ ∀ j, i ≠ j → Keeps s t j := by
  cases hp : s.ptrs[i]?.join with
  | none =>
    refine ⟨s, [], ?_, h, fun j _ p hp => ⟨hp, rfl⟩⟩
    unfold step
    dsimp only
    rw [hp]
  | some p =>
    obtain ⟨hlt, hat⟩ := List.getElem?_eq_some_iff.mp (Option.join_eq_some_iff.mp hp)
    have hsplit : s.ptrs = s.ptrs.take i ++ some p :: s.ptrs.drop (i + 1) := by
      rw [← hat, ← List.drop_eq_getElem_cons hlt, List.take_append_drop]
    have hset : s.ptrs.set i none = s.ptrs.take i ++ none :: s.ptrs.drop (i + 1) := by
      rw [List.set_eq_take_append_cons_drop, if_pos hlt]
    have hstacked := h.stacked
    rw [hsplit] at hstacked
    obtain ⟨b, hfront, hptr, hrest⟩ := (stacked_append _ _ _).mp hstacked
    have hnone := hproper (by rw [hp]; rfl)
    refine ⟨_, _, h.step_destroy hp, ⟨?_, ?_⟩, fun j hij q hq => ⟨?_, rfl⟩⟩
    · dsimp only
      rw [hset]
      refine (stacked_append _ _ _).mpr ⟨b, hfront, ?_⟩
      rw [hptr]
      exact (stacked_self hnone : Stacked b (s.ptrs.drop (i + 1)) b)
    · have hbelow := (h.stacked.below hp).2
      exact Nat.le_trans (Nat.le_trans (Nat.le_add_right _ _) hbelow) h.le
    · dsimp only
      rw [List.getElem?_set_ne hij]
      exact hq

theorem Sound.write (h : s.Sound) {offset : ℕ} {bytes : List UInt8} (hproper : s.Proper (.write i offset bytes)) :
    ∃ p, s.ptrs[i]?.join = some p ∧ offset + bytes.length ≤ p.size ∧
      s.step (.write i offset bytes) = some ({ s with mem := s.mem.store (p.ptr + offset) bytes }, []) := by
  obtain ⟨p, hp, hfits⟩ := hproper
  refine ⟨p, hp, hfits, ?_⟩
  unfold step
  dsimp only
  rw [hp]
  dsimp only
  rw [if_pos ⟨hfits, (h.apart i p hp).1⟩]

theorem Sound.read (h : s.Sound) (hp : s.ptrs[i]?.join = some p) :
    s.step (.read i) = some (s, s.mem.load p.ptr p.size) := by
  unfold step
  dsimp only
  rw [hp]
  dsimp only
  rw [if_pos (h.apart i p hp).1]

theorem Sound.step (h : s.Sound) {op : Op} (hproper : s.Proper op) :
    ∃ t answer, s.step op = some (t, answer) ∧ t.Sound ∧ ∀ i, ¬op.Touches i → Keeps s t i := by
  cases op with
  | alloc size =>
    obtain ⟨t, answer, hstep, hsound, hkeeps⟩ := h.alloc hproper
    exact ⟨t, answer, hstep, hsound, fun i _ => hkeeps i⟩
  | destroy j => exact h.destroy hproper
  | write j offset bytes =>
    obtain ⟨p, hp, hfits, hstep⟩ := h.write hproper
    refine ⟨_, _, hstep, ⟨h.stacked, h.le⟩, fun i hi q hq => ⟨hq, Memory.load_store_of_apart ?_⟩⟩
    have := (h.apart i q hq).2 j p hi hp
    omega
  | read j =>
    obtain ⟨p, hp⟩ := Option.isSome_iff_exists.mp hproper
    exact ⟨s, _, h.read hp, h, fun i _ p hp => ⟨hp, rfl⟩⟩

theorem Sound.run : ∀ {ops : List Op} {s : StackAllocator}, s.Sound → machine.Along Proper s ops →
    ∃ t answers, machine.run s ops = some (t, answers) ∧ t.Sound ∧ ∀ i, (∀ op ∈ ops, ¬op.Touches i) → Keeps s t i
  | [], s, h, _ => ⟨s, [], rfl, h, fun _ _ _ hp => ⟨hp, rfl⟩⟩
  | op :: ops, s, h, halong => by
    obtain ⟨s', answer, hstep, hsound, hkeeps⟩ := h.step halong.1
    obtain ⟨t, answers, hrun, hsound', hkeeps'⟩ := Sound.run hsound (Machine.along_step halong hstep)
    refine ⟨t, answer :: answers, Machine.run_cons_of hstep hrun, hsound', fun i hi p hp => ?_⟩
    obtain ⟨hp', hload⟩ := hkeeps i (hi op List.mem_cons_self) p hp
    obtain ⟨hp'', hload'⟩ := hkeeps' i (fun op' hop' => hi op' (List.mem_cons_of_mem _ hop')) p hp'
    exact ⟨hp'', hload'.trans hload⟩

/-- The order matters: what is allocated after a `Ptr` under another one is destroyed can reach into the other one. -/
theorem Sound.not_apart_of_destroy (h : s.Sound) (hij : i < j) (hp : s.ptrs[i]?.join = some p)
    (hq : s.ptrs[j]?.join = some q) {size : ℕ} (hsize : q.ptr < p.ptr + size) (hroom : p.ptr + rounded size ≤ memSize) :
    ∃ t answer u answer', s.step (.destroy i) = some (t, answer) ∧ t.step (.alloc size) = some (u, answer') ∧ ¬u.Apart := by
  have hround := (le_rounded p.size).2
  have happart := h.stacked.apart hij hp hq
  have hlt : j < s.ptrs.length := (List.getElem?_eq_some_iff.mp (Option.join_eq_some_iff.mp hq)).1
  refine ⟨_, _, _, _, h.step_destroy hp, step_alloc hroom, fun hapart => ?_⟩
  have hnew : (s.ptrs.set i none ++ [some (⟨p.ptr, size⟩ : StackPtr)])[s.ptrs.length]?.join = some ⟨p.ptr, size⟩ := by
    have hlength : (s.ptrs.set i none).length = s.ptrs.length := List.length_set
    rw [← hlength, List.getElem?_concat_length]
    rfl
  have hold : (s.ptrs.set i none ++ [some (⟨p.ptr, size⟩ : StackPtr)])[j]?.join = some q := by
    rw [List.getElem?_append_left (by rwa [List.length_set]), List.getElem?_set_ne (Nat.ne_of_lt hij)]
    exact hq
  have := (hapart _ _ hnew).2 j q (Nat.ne_of_lt hlt) hold
  dsimp only at this
  omega

/-- A thread that destroys first what it has allocated last: nothing aborts while the memory suffices, and only when it does
not; no two `Ptr`s share a byte, nothing stays taken for a `Ptr` that is destroyed, and what was written through a `Ptr` is
read through it. -/
theorem stack_safe (ops : List Op) (h : machine.Along Proper {} ops) :
    ∃ s answers, machine.run {} ops = some (s, answers) ∧ s.Apart ∧ s.pos = used s.ptrs ∧
      (∀ size < 2 ^ 64, s.step (.alloc size) = none ↔
        memSize < used s.ptrs + rounded size ∧ used s.ptrs + rounded size < 2 ^ 64) ∧
      ∀ i offset bytes after, machine.Along Proper s (.write i offset bytes :: after) → (∀ op ∈ after, ¬op.Touches i) →
        ∃ t answers r, machine.run s (.write i offset bytes :: after ++ [.read i]) = some (t, answers ++ [r]) ∧
          (r.drop offset).take bytes.length = bytes := by
  have hstart : Sound {} := ⟨rfl, Nat.zero_le _⟩
  obtain ⟨s, answers, hrun, hsound, -⟩ := hstart.run h
  refine ⟨s, answers, hrun, hsound.apart, hsound.pos_eq, fun size hsize => ?_, fun i offset bytes after halong hafter => ?_⟩
  · rw [← hsound.pos_eq, ← implAlloc_eq_none_iff hsound.le hsize]
    exact Option.map_eq_none_iff
  · obtain ⟨p, hp, hfits, hwrite⟩ := hsound.write halong.1
    have hsound' : Sound { s with mem := s.mem.store (p.ptr + offset) bytes } := ⟨hsound.stacked, hsound.le⟩
    obtain ⟨t, answers', hrun', hsound'', hkeeps⟩ := hsound'.run (Machine.along_step halong hwrite)
    obtain ⟨hp', hload⟩ := hkeeps i hafter p hp
    refine ⟨t, [] :: answers', t.mem.load p.ptr p.size,
      Machine.run_concat_of (Machine.run_cons_of hwrite hrun') (hsound''.read hp'), ?_⟩
    rw [hload, Memory.drop_load (by omega), Memory.take_load (by omega)]
    exact Memory.load_store _ _ _

/-- The second one is gone when the third one takes its place. -/
theorem stack_safe_three : ∃ s answers,
    machine.run {} [.alloc 5, .alloc 0, .write 0 2 [7, 7], .destroy 1, .alloc 9, .read 0] = some (s, answers) ∧ s.Apart ∧
      s.pos = used s.ptrs ∧
      (∀ size < 2 ^ 64, s.step (.alloc size) = none ↔
        memSize < used s.ptrs + rounded size ∧ used s.ptrs + rounded size < 2 ^ 64) ∧
      ∀ i offset bytes after, machine.Along Proper s (.write i offset bytes :: after) → (∀ op ∈ after, ¬op.Touches i) →
        ∃ t answers r, machine.run s (.write i offset bytes :: after ++ [.read i]) = some (t, answers ++ [r]) ∧
          (r.drop offset).take bytes.length = bytes := by
  refine stack_safe _ ?_
  decide

end StackAllocator

end TdUtils
