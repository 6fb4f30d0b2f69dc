import Mathlib.Data.List.Nodup
import TdUtils.Buffer.SharedSlice

/-!
# Buffer.SharedSliceCounts — the counter of a buffer is the number of its variables

A variable that may write has its buffer for itself, so a write changes what no other variable sees.
-/

namespace TdUtils

namespace UnsafeSharedSlice

open Lib (hit hit_none hit_self hit_of_ne)

variable {heap : SharedHeap} {count count' : ℕ → ℕ} {ptr : Option ℕ} {b : ℕ} {buffer : SharedBuffer}

/-! ### The heap -/

/-- The counters are right, and what is not counted is freed; each buffer was small enough for its header. -/
structure Counted (heap : SharedHeap) (count : ℕ → ℕ) : Prop where
  live : ∀ b buffer, lookup heap b = some buffer → buffer.refcnt = count b ∧ 0 < count b ∧ Fits buffer.bytes.length
  gone : ∀ b, lookup heap b = none → count b = 0

theorem lt_of_lookup (h : lookup heap b = some buffer) : b < heap.length := by
  unfold lookup at h
  by_contra hlt
  rw [List.getElem?_eq_none (Nat.le_of_not_lt hlt)] at h
  cases h

theorem lookup_set (h : lookup heap b = some buffer) (cell : Option SharedBuffer) (c : ℕ) :
    lookup (heap.set b cell) c = if b = c then cell else lookup heap c := by
  have hlt := lt_of_lookup h
  unfold lookup
  rw [List.getElem?_set]
  split
  · rename_i heq
    cases cell <;> rfl
  · rfl

theorem lookup_alloc (heap : SharedHeap) (slice : List UInt8) (c : ℕ) :
    lookup (alloc heap slice).1 c = if heap.length = c then some { bytes := slice } else lookup heap c := by
  unfold lookup alloc
  dsimp only
  split
  · rename_i heq
    rw [← heq, List.getElem?_append_right (Nat.le_refl _), Nat.sub_self]
    rfl
  · rename_i hne
    rcases Nat.lt_or_gt_of_ne hne with hlt | hgt
    · rw [List.getElem?_eq_none (by rw [List.length_append]; exact hlt), List.getElem?_eq_none (Nat.le_of_lt hlt)]
    · rw [List.getElem?_append_left hgt]

theorem lookup_length (heap : SharedHeap) : lookup heap heap.length = none := by
  unfold lookup
  rw [List.getElem?_eq_none (Nat.le_refl _)]
  rfl

theorem Counted.lookup_of_pos (h : Counted heap count) (hpos : 0 < count b) : ∃ buffer, lookup heap b = some buffer := by
  cases hlookup : lookup heap b with
  | none => exact absurd (h.gone b hlookup) (Nat.ne_of_gt hpos)
  | some buffer => exact ⟨buffer, rfl⟩

/-- One buffer changes, and its count with it. -/
theorem Counted.set (h : Counted heap count) (hb : lookup heap b = some buffer) {cell : Option SharedBuffer}
    (hlive : ∀ buffer, cell = some buffer → buffer.refcnt = count' b ∧ 0 < count' b ∧ Fits buffer.bytes.length)
    (hgone : cell = none → count' b = 0)
    (hother : ∀ c, b ≠ c → count' c = count c) : Counted (heap.set b cell) count' := by
  refine ⟨fun c other hc => ?_, fun c hc => ?_⟩
  · rw [lookup_set hb] at hc
    split at hc
    · rename_i heq
      rw [← heq]
      exact hlive other hc
    · rename_i hne
      rw [hother c hne]
      exact h.live c other hc
  · rw [lookup_set hb] at hc
    split at hc
    · rename_i heq
      rw [← heq]
      exact hgone hc
    · rename_i hne
      rw [hother c hne]
      exact h.gone c hc

theorem Counted.alloc (h : Counted heap count) {slice : List UInt8} (hfits : Fits slice.length)
    (hcount : ∀ c, count' c = count c + hit (alloc heap slice).2 c) :
    Counted (UnsafeSharedSlice.alloc heap slice).1 count' := by
  have hnew : count heap.length = 0 := h.gone _ (lookup_length heap)
  have hone : count' heap.length = 1 := by
    rw [hcount, hnew, Nat.zero_add]
    exact hit_self heap.length
  have hother : ∀ c, heap.length ≠ c → count' c = count c := by
    intro c hne
    rw [hcount]
    exact congrArg (count c + ·) (hit_of_ne hne)
  refine ⟨fun c buffer hc => ?_, fun c hc => ?_⟩
  · rw [lookup_alloc] at hc
    split at hc
    · rename_i heq
      rw [← heq, hone, ← Option.some.inj hc]
      exact ⟨rfl, Nat.one_pos, hfits⟩
    · rename_i hne
      rw [hother c hne]
      exact h.live c buffer hc
  · rw [lookup_alloc] at hc
    split at hc
    · cases hc
    · rename_i hne
      rw [hother c hne]
      exact h.gone c hc

theorem Counted.clone (h : Counted heap count) (hpos : ∀ b, ptr = some b → 0 < count b)
    (hcount : ∀ c, count' c = count c + hit ptr c) :
    ∃ after, clone heap ptr = some (after, ptr) ∧ Counted after count' ∧ after.length = heap.length ∧
      ∀ c, (lookup after c).map SharedBuffer.bytes = (lookup heap c).map SharedBuffer.bytes := by
  cases ptr with
  | none =>
    refine ⟨heap, rfl, ?_, rfl, fun _ => rfl⟩
    rw [show count' = count from funext hcount]
    exact h
  | some b =>
    obtain ⟨buffer, hb⟩ := h.lookup_of_pos (hpos b rfl)
    obtain ⟨hrefcnt, -, hfits⟩ := h.live b buffer hb
    refine ⟨heap.set b (some { buffer with refcnt := buffer.refcnt + 1 }), ?_, h.set hb ?_ ?_ ?_, List.length_set,
      fun c => ?_⟩
    · unfold UnsafeSharedSlice.clone
      dsimp only
      rw [hb]
      rfl
    · rintro _ ⟨⟩
      rw [hcount, hit_self, ← hrefcnt]
      exact ⟨rfl, Nat.succ_pos _, hfits⟩
    · exact fun heq => by cases heq
    · intro c hne
      rw [hcount, hit_of_ne hne, Nat.add_zero]
    · rw [lookup_set hb]
      split
      · rename_i heq
        rw [← heq, hb]
        rfl
      · rfl

/-- A buffer is freed when its last variable goes. -/
theorem Counted.reset (h : Counted heap count) (hcount : ∀ c, count' c + hit ptr c = count c) :
    ∃ after freed, reset heap ptr = some (after, freed) ∧ Counted after count' ∧ after.length = heap.length ∧
      freed.Nodup ∧ (∀ c, c ∈ freed ↔ (lookup heap c).isSome ∧ lookup after c = none) ∧
      ∀ c, lookup heap c = none → lookup after c = none := by
  cases ptr with
  | none =>
    refine ⟨heap, [], rfl, ?_, rfl, .nil, fun c => ⟨fun hc => (by cases hc), fun hc => ?_⟩, fun _ hc => hc⟩
    · rw [show count' = count from funext hcount]
      exact h
    · rw [hc.2] at hc
      exact absurd hc.1 Bool.false_ne_true
  | some b =>
    have hself := hcount b
    rw [hit_self] at hself
    obtain ⟨buffer, hb⟩ := h.lookup_of_pos (b := b) (by omega)
    obtain ⟨hrefcnt, -, hfits⟩ := h.live b buffer hb
    have hother : ∀ c, b ≠ c → count' c = count c := by
      intro c hne
      have hc := hcount c
      rwa [hit_of_ne hne, Nat.add_zero] at hc
    have hreset : UnsafeSharedSlice.reset heap (some b) = some (if buffer.refcnt = 1 then (heap.set b none, [b])
        else (heap.set b (some { buffer with refcnt := buffer.refcnt - 1 }), [])) := by
      unfold UnsafeSharedSlice.reset
      dsimp only
      rw [hb]
      rfl
    rw [hreset]
    by_cases hlast : buffer.refcnt = 1
    · rw [if_pos hlast]
      refine ⟨_, _, rfl, h.set hb (fun _ heq => (by cases heq)) (fun _ => by omega) hother, List.length_set,
        List.nodup_singleton b, fun c => ?_, fun c hc => ?_⟩
      · rw [lookup_set hb, List.mem_singleton]
        constructor
        · rintro rfl
          rw [hb, if_pos rfl]
          exact ⟨rfl, rfl⟩
        · rintro ⟨hsome, hnone⟩
          split at hnone
          · rename_i heq
            exact heq.symm
          · rw [hnone] at hsome
            exact absurd hsome Bool.false_ne_true
      · rw [lookup_set hb]
        split
        · rfl
        · exact hc
    · rw [if_neg hlast]
      refine ⟨_, _, rfl, h.set hb ?_ (fun heq => (by cases heq)) hother, List.length_set, .nil, fun c => ?_,
        fun c hc => ?_⟩
      · rintro _ ⟨⟩
        exact ⟨by dsimp only; omega, by omega, hfits⟩
      · refine ⟨fun hc => (by cases hc), fun ⟨hsome, hnone⟩ => ?_⟩
        rw [lookup_set hb] at hnone
        split at hnone
        · cases hnone
        · rw [hnone] at hsome
          exact absurd hsome Bool.false_ne_true
      · rw [lookup_set hb]
        split
        · rename_i heq
          rw [← heq, hb] at hc
          cases hc
        · exact hc

end UnsafeSharedSlice

namespace SharedSlices

open UnsafeSharedSlice
open Lib (hit hit_none hit_self)

variable {s : SharedSlices} {slices : List SliceHandle} {slice old : SliceHandle} {h : ℕ} {freed : List ℕ}

/-! ### The variables -/

theorem refs_append (slices : List SliceHandle) (slice : SliceHandle) (b : ℕ) :
    refs (slices ++ [slice]) b = refs slices b + hit slice.ptr b := Lib.refs_append SliceHandle.ptr slices slice b

theorem refs_set {slices : List SliceHandle} {h : ℕ} (hold : slices[h]? = some old) (slice : SliceHandle) (b : ℕ) :
    refs (slices.set h slice) b + hit old.ptr b = refs slices b + hit slice.ptr b :=
  Lib.refs_set SliceHandle.ptr hold slice b

/-- A variable that may write is the only one on its buffer. -/
def Alone (slices : List SliceHandle) : Prop :=
  ∀ (i j b : ℕ) (slice : SliceHandle), slices[i]? = some (.unique (some b)) → slices[j]? = some slice → slice.ptr = some b → i = j

/-- The variables on a buffer that a new one may share. -/
def Shares (slices : List SliceHandle) (slice : SliceHandle) : Prop :=
  ∀ b, slice.ptr = some b → ∀ (i : ℕ) (other : SliceHandle), slices[i]? = some other → other.ptr = some b →
    (∃ ptr, slice = .shared ptr) ∧ ∃ ptr, other = .shared ptr

theorem shares_none (hptr : slice.ptr = none) : Shares slices slice := by
  intro b hb
  rw [hptr] at hb
  cases hb

theorem shares_of_refs (hzero : ∀ b, slice.ptr = some b → refs slices b = 0) : Shares slices slice :=
  fun b hb _ _ hother hptr => absurd hptr (Lib.ptr_ne_of_refs_eq_zero (hzero b hb) hother)

theorem Alone.push (halone : Alone slices) (hshares : Shares slices slice) : Alone (slices ++ [slice]) := by
  intro i j b other hi hj hptr
  rcases Lib.getElem?_append_inv hi with hi | ⟨hi, hslice⟩
  · rcases Lib.getElem?_append_inv hj with hj | ⟨-, hother⟩
    · exact halone i j b other hi hj hptr
    · rw [hother] at hptr
      obtain ⟨-, ptr, heq⟩ := hshares b hptr i _ hi rfl
      cases heq
  · rcases Lib.getElem?_append_inv hj with hj | ⟨hj, -⟩
    · obtain ⟨⟨ptr, heq⟩, -⟩ := hshares b (by rw [← hslice]; rfl) j other hj hptr
      rw [← hslice] at heq
      cases heq
    · rw [hi, hj]

theorem Alone.set (halone : Alone slices) {h : ℕ}
    (hshares : ∀ b, slice.ptr = some b → ∀ (i : ℕ) (other : SliceHandle), i ≠ h → slices[i]? = some other → other.ptr = some b →
      (∃ ptr, slice = .shared ptr) ∧ ∃ ptr, other = .shared ptr) : Alone (slices.set h slice) := by
  intro i j b other hi hj hptr
  rcases Lib.getElem?_set_inv hi with ⟨hne, hi⟩ | ⟨hi, hslice⟩
  · rcases Lib.getElem?_set_inv hj with ⟨-, hj⟩ | ⟨-, hother⟩
    · exact halone i j b other hi hj hptr
    · rw [hother] at hptr
      obtain ⟨-, ptr, heq⟩ := hshares b hptr i _ hne hi rfl
      cases heq
  · rcases Lib.getElem?_set_inv hj with ⟨hne, hj⟩ | ⟨hj, -⟩
    · obtain ⟨⟨ptr, heq⟩, -⟩ := hshares b (by rw [← hslice]; rfl) j other hne hj hptr
      rw [← hslice] at heq
      cases heq
    · rw [hi, hj]

theorem Alone.set_none (halone : Alone slices) (h : ℕ) (hptr : slice.ptr = none) : Alone (slices.set h slice) :=
  halone.set fun b hb => by
    rw [hptr] at hb
    cases hb

/-- What is left on a buffer when a variable gives its pointer away. -/
theorem Alone.released (halone : Alone slices) {h : ℕ} (hold : slices[h]? = some old) {b : ℕ} (hptr : old.ptr = some b)
    {i : ℕ} {other : SliceHandle} (hi : i ≠ h) (hother : slices[i]? = some other) (hb : other.ptr = some b) :
    (∃ ptr, old = .shared ptr) ∧ ∃ ptr, other = .shared ptr := by
  refine ⟨?_, ?_⟩
  · cases old with
    | shared ptr => exact ⟨ptr, rfl⟩
    | unique ptr =>
      cases hptr
      exact absurd (halone h i b other hold hother hb).symm hi
    | destroyed => cases hptr
  · cases other with
    | shared ptr => exact ⟨ptr, rfl⟩
    | unique ptr =>
      cases hb
      exact absurd (halone i h b old hother hold hptr) hi
    | destroyed => cases hb

/-! ### The invariant -/

/-- `count` is what has to be counted on a buffer, also in the middle of a call. -/
structure Inv (s : SharedSlices) (count : ℕ → ℕ) (freed : List ℕ) : Prop where
  counted : Counted s.heap count
  alone : Alone s.slices
  history : ∀ b, b ∈ freed ↔ b < s.heap.length ∧ lookup s.heap b = none
  nodup : freed.Nodup

variable {count count' : ℕ → ℕ} {ptr : Option ℕ}

theorem inv_start : Inv {} (refs []) [] where
  counted := ⟨fun b _ hb => absurd (lt_of_lookup hb) (Nat.not_lt_zero b), fun _ _ => rfl⟩
  alone := fun _ _ _ _ hi => by cases hi
  history := fun b => ⟨fun hb => (by cases hb), fun hb => absurd hb.1 (Nat.not_lt_zero b)⟩
  nodup := .nil

theorem Inv.alloc (hinv : Inv s count freed) {slice : List UInt8} (hfits : Fits slice.length) (count' : ℕ → ℕ)
    (hcount : ∀ c, count' c = count c + hit (alloc s.heap slice).2 c) :
    Inv { s with heap := (alloc s.heap slice).1 } count' freed := by
  refine ⟨hinv.counted.alloc hfits hcount, hinv.alone, fun b => ?_, hinv.nodup⟩
  show b ∈ freed ↔ b < (s.heap ++ [_]).length ∧ lookup (UnsafeSharedSlice.alloc s.heap slice).1 b = none
  rw [hinv.history b, lookup_alloc, List.length_append]
  split
  · rename_i heq
    refine ⟨fun hb => absurd hb.1 (by omega), fun hb => (by cases hb.2)⟩
  · rename_i hne
    exact ⟨fun hb => ⟨by omega, hb.2⟩, fun hb => ⟨by have := hb.1; simp only [List.length_singleton] at this; omega, hb.2⟩⟩

theorem Inv.clone (hinv : Inv s count freed) (count' : ℕ → ℕ) (hpos : ∀ b, ptr = some b → 0 < count b)
    (hcount : ∀ c, count' c = count c + hit ptr c) :
    ∃ after, clone s.heap ptr = some (after, ptr) ∧ Inv { s with heap := after } count' freed := by
  obtain ⟨after, hclone, hcounted, hlength, hbytes⟩ := hinv.counted.clone hpos hcount
  refine ⟨after, hclone, hcounted, hinv.alone, fun b => ?_, hinv.nodup⟩
  rw [hinv.history b]
  show _ ↔ b < after.length ∧ lookup after b = none
  rw [hlength, ← Option.map_eq_none_iff (f := SharedBuffer.bytes), ← Option.map_eq_none_iff (f := SharedBuffer.bytes), hbytes b]

theorem Inv.drop (hinv : Inv s count freed) (count' : ℕ → ℕ) (ptr : Option ℕ)
    (hcount : ∀ c, count' c + hit ptr c = count c) :
    ∃ t out, s.drop ptr = some (t, out) ∧ t.slices = s.slices ∧ Inv t count' (freed ++ out) := by
  obtain ⟨after, out, hreset, hcounted, hlength, hnodup, hout, hnone⟩ := hinv.counted.reset hcount
  refine ⟨{ s with heap := after }, out, ?_, rfl, hcounted, hinv.alone, fun b => ?_, ?_⟩
  · unfold SharedSlices.drop
    rw [hreset]
    rfl
  · show _ ↔ b < after.length ∧ lookup after b = none
    rw [List.mem_append, hinv.history b, hout b, hlength]
    constructor
    · rintro (⟨hlt, hb⟩ | ⟨hsome, hb⟩)
      · exact ⟨hlt, hnone b hb⟩
      · obtain ⟨buffer, hbuffer⟩ := Option.isSome_iff_exists.mp hsome
        exact ⟨lt_of_lookup hbuffer, hb⟩
    · rintro ⟨hlt, hb⟩
      cases hlookup : lookup s.heap b with
      | none => exact .inl ⟨hlt, rfl⟩
      | some buffer => exact .inr ⟨rfl, hb⟩
  · refine List.nodup_append.mpr ⟨hinv.nodup, hnodup, fun x hx y hy heq => ?_⟩
    rw [heq] at hx
    obtain ⟨buffer, hbuffer⟩ := Option.isSome_iff_exists.mp ((hout y).mp hy).1
    have hnone := ((hinv.history y).mp hx).2
    rw [hbuffer] at hnone
    cases hnone

theorem Inv.put (hinv : Inv s count freed) {h : ℕ} (halone : Alone (s.slices.set h slice)) :
    Inv (s.put h slice) count freed := ⟨hinv.counted, halone, hinv.history, hinv.nodup⟩

theorem Inv.push (hinv : Inv s count freed) (hshares : Shares s.slices slice) : Inv (s.push slice) count freed :=
  ⟨hinv.counted, hinv.alone.push hshares, hinv.history, hinv.nodup⟩

theorem Inv.count_congr (hinv : Inv s count freed) (hcount : ∀ c, count' c = count c) : Inv s count' freed := by
  rw [show count' = count from funext hcount]
  exact hinv

/-! ### Each call -/

/-- A new variable takes the pointer of one that has given it away. -/
theorem Alone.shares (halone : Alone slices) {h : ℕ} (hold : slices[h]? = some old) {null : SliceHandle}
    (hnull : null.ptr = none) (hptr : slice.ptr = old.ptr)
    (hkind : (∃ ptr, old = .shared ptr) → ∃ ptr, slice = .shared ptr) : Shares (slices.set h null) slice := by
  intro b hb i other hother hotherb
  rcases Lib.getElem?_set_inv hother with ⟨hne, hi⟩ | ⟨-, rfl⟩
  · obtain ⟨hshared, hothers⟩ := halone.released hold (hptr ▸ hb) hne hi hotherb
    exact ⟨hkind hshared, hothers⟩
  · rw [hnull] at hotherb
    cases hotherb

theorem Inv.pushNull (hinv : Inv s (refs s.slices) freed) (hptr : slice.ptr = none) :
    Inv (s.push slice) (refs (s.push slice).slices) freed := by
  refine (hinv.push (shares_none hptr)).count_congr fun c => ?_
  show refs (s.slices ++ [slice]) c = _
  rw [refs_append, hptr, hit_none, Nat.add_zero]

/-- A variable on a new buffer. -/
theorem Inv.pushNew (hinv : Inv s count freed) {bytes : List UInt8} (hfits : Fits bytes.length) (slice : SliceHandle)
    (hptr : slice.ptr = (UnsafeSharedSlice.alloc s.heap bytes).2) (hle : ∀ c, refs s.slices c ≤ count c) :
    Inv ({ s with heap := (UnsafeSharedSlice.alloc s.heap bytes).1 }.push slice) (fun c => count c + hit slice.ptr c)
      freed := by
  refine (hinv.alloc hfits (fun c => count c + hit slice.ptr c) fun c => by rw [hptr]).push
    (shares_of_refs fun b hb => ?_)
  rw [hptr] at hb
  obtain rfl : s.heap.length = b := Option.some.inj hb
  exact Nat.le_zero.mp (Nat.le_trans (hle _) (Nat.le_of_eq (hinv.counted.gone _ (lookup_length s.heap))))

theorem create_of_fits {heap : SharedHeap} {bytes : List UInt8} (hfits : Fits bytes.length) :
    UnsafeSharedSlice.create heap bytes = some (UnsafeSharedSlice.alloc heap bytes) := if_pos hfits

theorem Inv.pushCreated (hinv : Inv s (refs s.slices) freed) {bytes : List UInt8} (hfits : Fits bytes.length)
    {handle : Option ℕ → SliceHandle} (hptr : ∀ ptr, (handle ptr).ptr = ptr) :
    ∃ t out, s.pushCreated bytes handle = some (t, out) ∧ Inv t (refs t.slices) (freed ++ out) := by
  have hnew := hinv.pushNew hfits (handle (UnsafeSharedSlice.alloc s.heap bytes).2) (hptr _) fun _ => Nat.le_refl _
  unfold SharedSlices.pushCreated
  rw [create_of_fits hfits]
  refine ⟨_, [], rfl, ?_⟩
  rw [List.append_nil]
  exact hnew.count_congr fun c => refs_append s.slices _ c

theorem Inv.move (hinv : Inv s (refs s.slices) freed) {h : ℕ} (hold : s.slices[h]? = some old) {null : SliceHandle}
    (hnull : null.ptr = none) (hptr : slice.ptr = old.ptr)
    (hkind : (∃ ptr, old = .shared ptr) → ∃ ptr, slice = .shared ptr) :
    Inv ((s.put h null).push slice) (refs ((s.put h null).push slice).slices) freed := by
  refine ((hinv.put (hinv.alone.set_none h hnull)).push
    (hinv.alone.shares hold hnull hptr hkind)).count_congr fun c => ?_
  have hset := refs_set hold null c
  show refs (s.slices.set h null ++ [slice]) c = _
  rw [refs_append, hptr]
  rw [hnull, hit_none] at hset
  omega

theorem Inv.release (hinv : Inv s (refs s.slices) freed) {h : ℕ} (hold : s.slices[h]? = some old) {null : SliceHandle}
    (hnull : null.ptr = none) :
    ∃ t out, (s.put h null).drop old.ptr = some (t, out) ∧ Inv t (refs t.slices) (freed ++ out) := by
  obtain ⟨t, out, hdrop, hslices, ht⟩ := (hinv.put (hinv.alone.set_none h hnull)).drop
    (refs (s.slices.set h null)) old.ptr fun c => by
      have hset := refs_set hold null c
      rw [hnull, hit_none] at hset
      omega
  refine ⟨t, out, hdrop, ?_⟩
  rw [hslices]
  exact ht

/-- The variable that is assigned to drops what it had. -/
theorem Inv.assign (hinv : Inv s (refs s.slices) freed) {dest src : ℕ} {target : SliceHandle}
    (hdest : s.slices[dest]? = some target) (hold : s.slices[src]? = some old) {null : SliceHandle}
    (hnull : null.ptr = none) (hptr : slice.ptr = old.ptr)
    (hkind : (∃ ptr, old = .shared ptr) → ∃ ptr, slice = .shared ptr) :
    ∃ t out, (s.put src null).assign dest slice = some (t, out) ∧ Inv t (refs t.slices) (freed ++ out) := by
  have hshares := hinv.alone.shares hold hnull hptr hkind
  have hnow : ∃ was, (s.slices.set src null)[dest]? = some was := by
    rw [List.getElem?_set]
    split
    · split
      · exact ⟨null, rfl⟩
      · rename_i hlt
        exact absurd (List.getElem?_eq_some_iff.mp hold).1 hlt
    · exact ⟨target, hdest⟩
  obtain ⟨was, hwas⟩ := hnow
  have hput : Inv ((s.put src null).put dest slice) (refs s.slices) freed :=
    (hinv.put (hinv.alone.set_none src hnull)).put ((hinv.alone.set_none src hnull).set
      fun b hb i other _ hother hotherb => hshares b hb i other hother hotherb)
  obtain ⟨t, out, hdrop, hslices, ht⟩ := hput.drop
    (refs ((s.slices.set src null).set dest slice)) was.ptr fun c => by
      have hset := refs_set hold null c
      have hassign := refs_set hwas slice c
      rw [hnull, hit_none] at hset
      rw [hptr] at hassign
      omega
  refine ⟨t, out, ?_, ?_⟩
  · have hfound : (s.put src null).slices[dest]? = some was := hwas
    unfold SharedSlices.assign
    rw [hfound]
    exact hdrop
  · rw [hslices]
    exact ht

/-- A `UniqueSharedSlice` copies the bytes when others are on the buffer. -/
theorem Inv.pushUnique (hinv : Inv s count freed) (hcount : ∀ c, refs s.slices c + hit ptr c = count c) :
    ∃ t out, s.pushUnique ptr = some (t, out) ∧ Inv t (refs t.slices) (freed ++ out) := by
  have hle : ∀ c, refs s.slices c ≤ count c := fun c => by
    have hc := hcount c
    omega
  unfold SharedSlices.pushUnique
  cases ptr with
  | none =>
    refine ⟨_, _, rfl, ?_⟩
    rw [List.append_nil]
    refine (hinv.push (shares_none rfl)).count_congr fun c => ?_
    rw [← hcount c]
    exact refs_append s.slices (.unique none) c
  | some b =>
    have hself := hcount b
    rw [hit_self] at hself
    obtain ⟨buffer, hb⟩ := hinv.counted.lookup_of_pos (b := b) (by omega)
    obtain ⟨hrefcnt, -, hfits⟩ := hinv.counted.live b buffer hb
    have hunique : isUnique s.heap (some b) = some (decide (buffer.refcnt = 1)) := by
      unfold isUnique
      dsimp only
      rw [hb]
      rfl
    have hslice : asSlice s.heap (some b) = some buffer.bytes := by
      unfold asSlice
      dsimp only
      rw [hb]
      rfl
    rw [hunique, hslice]
    by_cases hone : buffer.refcnt = 1
    · rw [decide_eq_true hone]
      refine ⟨_, _, rfl, ?_⟩
      rw [List.append_nil]
      refine (hinv.push (shares_of_refs ?_)).count_congr fun c => ?_
      · rintro _ ⟨⟩
        omega
      · rw [← hcount c]
        exact refs_append s.slices (.unique (some b)) c
    · rw [decide_eq_false hone]
      obtain ⟨t, out, hdrop, hslices, ht⟩ :=
        (hinv.pushNew hfits (.unique (UnsafeSharedSlice.alloc s.heap buffer.bytes).2) rfl hle).drop
          (refs (s.slices ++ [.unique (UnsafeSharedSlice.alloc s.heap buffer.bytes).2])) (some b) fun c => by
            have hc := hcount c
            rw [refs_append]
            omega
      refine ⟨t, out, ?_, ?_⟩
      · dsimp only
        rw [create_of_fits hfits]
        exact hdrop
      · rw [hslices]
        exact ht

/-- A write changes the bytes of one buffer only. -/
theorem Inv.write (hinv : Inv s count freed) {h : ℕ} (pos : ℕ) (byte : UInt8) (hat : s.slices[h]? = some (.unique ptr))
    (hpos : ∀ b, ptr = some b → 0 < count b) :
    ∃ heap, UnsafeSharedSlice.write s.heap pos byte ptr = some heap ∧ Inv { s with heap := heap } count freed ∧
      ∀ k, k ≠ h → view { s with heap := heap } k = s.view k := by
  cases ptr with
  | none => exact ⟨s.heap, rfl, hinv, fun _ _ => rfl⟩
  | some b =>
    obtain ⟨buffer, hb⟩ := hinv.counted.lookup_of_pos (hpos b rfl)
    have hlive := hinv.counted.live b buffer hb
    refine ⟨s.heap.set b (some { buffer with bytes := buffer.bytes.set pos byte }), ?_,
      ⟨hinv.counted.set hb ?_ (fun heq => (by cases heq)) fun _ _ => rfl, hinv.alone, fun c => ?_, hinv.nodup⟩,
      fun k hk => ?_⟩
    · unfold UnsafeSharedSlice.write
      dsimp only
      rw [hb]
      rfl
    · rintro _ ⟨⟩
      refine ⟨hlive.1, hlive.2.1, ?_⟩
      dsimp only
      rw [List.length_set]
      exact hlive.2.2
    · show c ∈ freed ↔ c < (s.heap.set b _).length ∧ lookup (s.heap.set b _) c = none
      rw [hinv.history c, List.length_set, lookup_set hb]
      split
      · rename_i heq
        rw [← heq, hb]
        exact ⟨fun hc => (by cases hc.2), fun hc => (by cases hc.2)⟩
      · exact .rfl
    · unfold view
      dsimp only
      cases hslice : s.slices[k]? with
      | none => rfl
      | some slice =>
        show asSlice (s.heap.set b _) slice.ptr = asSlice s.heap slice.ptr
        cases hptr : slice.ptr with
        | none => rfl
        | some c =>
          have hne : b ≠ c := by
            rintro rfl
            exact hk (hinv.alone h k b slice hat hslice hptr).symm
          unfold asSlice
          dsimp only
          rw [lookup_set hb, if_neg hne]

theorem Inv.same (hinv : Inv s (refs s.slices) freed) :
    ∃ t out, some (s, ([] : List ℕ)) = some (t, out) ∧ Inv t (refs t.slices) (freed ++ out) := by
  refine ⟨s, [], rfl, ?_⟩
  rw [List.append_nil]
  exact hinv

/-- A step that frees nothing. -/
theorem Inv.answer {t : SharedSlices} (ht : Inv t (refs t.slices) freed) :
    ∃ u out, some (t, ([] : List ℕ)) = some (u, out) ∧ Inv u (refs u.slices) (freed ++ out) := ht.same

theorem Inv.step (hinv : Inv s (refs s.slices) freed) {op : Op} (hfits : op.Fits) :
    ∃ t out, s.step op = some (t, out) ∧ Inv t (refs t.slices) (freed ++ out) := by
  cases op with
  | sharedNull => exact (hinv.pushNull rfl).answer
  | uniqueNull => exact (hinv.pushNull rfl).answer
  | shared slice => exact hinv.pushCreated hfits fun _ => rfl
  | unique slice => exact hinv.pushCreated hfits fun _ => rfl
  | uniqueSize size => exact hinv.pushCreated (by rwa [List.length_replicate]) fun _ => rfl
  | clone h =>
    dsimp only [SharedSlices.step]
    split
    · rename_i ptr hat
      have hpos : ∀ b, ptr = some b → 0 < refs s.slices b := fun b hb => Lib.refs_pos hat hb
      obtain ⟨after, hclone, hafter⟩ := hinv.clone (fun c => refs s.slices c + hit ptr c) hpos fun _ => rfl
      rw [hclone]
      refine ((hafter.push fun b hb i other hi hother => ⟨⟨ptr, rfl⟩, ?_⟩).count_congr fun c => ?_).answer
      · cases other with
        | shared ptr => exact ⟨ptr, rfl⟩
        | unique ptr =>
          cases hother
          have heq := hinv.alone i h b _ hi hat hb
          rw [heq, hat] at hi
          cases hi
        | destroyed => cases hother
      · exact refs_append s.slices (.shared ptr) c
    · exact hinv.same
  | copy h =>
    dsimp only [SharedSlices.step]
    split
    · rename_i ptr hat
      cases ptr with
      | none => exact hinv.pushCreated (by decide) fun _ => rfl
      | some b =>
        obtain ⟨buffer, hb⟩ := hinv.counted.lookup_of_pos (Lib.refs_pos hat rfl)
        unfold asSlice
        dsimp only
        rw [hb]
        exact hinv.pushCreated (hinv.counted.live b buffer hb).2.2 fun _ => rfl
    · exact hinv.same
  | move h =>
    dsimp only [SharedSlices.step]
    split
    · rename_i ptr hat
      exact (hinv.move hat rfl rfl fun _ => ⟨ptr, rfl⟩).answer
    · rename_i ptr hat
      exact (hinv.move hat rfl rfl fun ⟨_, heq⟩ => by cases heq).answer
    · exact hinv.same
  | assign dest src =>
    dsimp only [SharedSlices.step]
    split
    · rename_i ptr hdest hsrc
      exact hinv.assign hdest hsrc rfl rfl fun _ => ⟨ptr, rfl⟩
    · rename_i ptr hdest hsrc
      exact hinv.assign hdest hsrc rfl rfl fun ⟨_, heq⟩ => by cases heq
    · exact hinv.same
  | toUnique h =>
    dsimp only [SharedSlices.step]
    split
    · rename_i ptr hat
      refine (hinv.put (hinv.alone.set_none h rfl)).pushUnique fun c => ?_
      have hset := refs_set hat (.shared none) c
      exact hset
    · exact hinv.same
  | toShared h =>
    dsimp only [SharedSlices.step]
    split
    · rename_i ptr hat
      have ht : Inv ((s.put h (.unique none)).push (.shared ptr)) _ freed :=
        hinv.move hat rfl rfl fun ⟨_, heq⟩ => by cases heq
      exact ht.answer
    · exact hinv.same
  | clear h =>
    dsimp only [SharedSlices.step]
    split
    · rename_i ptr hat
      exact hinv.release hat rfl
    · rename_i ptr hat
      exact hinv.release hat rfl
    · exact hinv.same
  | destroy h =>
    dsimp only [SharedSlices.step]
    split
    · rename_i slice hat
      exact hinv.release hat rfl
    · exact hinv.same
  | write h pos byte =>
    dsimp only [SharedSlices.step]
    split
    · rename_i ptr hat
      obtain ⟨heap, hwrite, hafter, -⟩ := hinv.write pos byte hat fun b hb => Lib.refs_pos hat hb
      rw [hwrite]
      exact Inv.answer hafter
    · exact hinv.same

/-- A write through a variable is not seen through any other. -/
theorem Inv.step_write (hinv : Inv s (refs s.slices) freed) (h pos : ℕ) (byte : UInt8) :
    ∃ t, s.step (.write h pos byte) = some (t, []) ∧ ∀ k, k ≠ h → t.view k = s.view k := by
  dsimp only [SharedSlices.step]
  split
  · rename_i ptr hat
    obtain ⟨heap, hwrite, -, hview⟩ := hinv.write pos byte hat fun b hb => Lib.refs_pos hat hb
    rw [hwrite]
    exact ⟨_, rfl, hview⟩
  · exact ⟨s, rfl, fun _ _ => rfl⟩

theorem Inv.counts (hinv : Inv s (refs s.slices) freed) : Counts s freed where
  refcnt := fun b buffer hb => (hinv.counted.live b buffer hb).1
  once := hinv.nodup
  freed := by
    intro b
    rw [hinv.history b]
    constructor
    · rintro ⟨hlt, hnone⟩
      exact ⟨hlt, hinv.counted.gone b hnone⟩
    · rintro ⟨hlt, hzero⟩
      refine ⟨hlt, ?_⟩
      cases hb : lookup s.heap b with
      | none => rfl
      | some buffer => exact absurd hzero (Nat.ne_of_gt (hinv.counted.live b buffer hb).2.1)
  write := hinv.step_write

theorem fits_of_pushCreated {bytes : List UInt8} {handle : Option ℕ → SliceHandle} {r : SharedSlices × List ℕ}
    (hpush : s.pushCreated bytes handle = some r) : Fits bytes.length := by
  unfold SharedSlices.pushCreated UnsafeSharedSlice.create at hpush
  split_ifs at hpush with hfits
  · exact hfits
  · cases hpush

/-- A call that is answered has asked for no more than fits. -/
theorem fits_of_step {op : Op} {r : SharedSlices × List ℕ} (hstep : s.step op = some r) : op.Fits := by
  cases op with
  | shared slice => exact fits_of_pushCreated hstep
  | unique slice => exact fits_of_pushCreated hstep
  | uniqueSize size =>
    have hfits := fits_of_pushCreated hstep
    rwa [List.length_replicate] at hfits
  | _ => trivial

theorem fits_of_run : ∀ {ops : List Op} {s t : SharedSlices} {freed : List (List ℕ)},
    machine.run s ops = some (t, freed) → ∀ op ∈ ops, op.Fits
  | [], _, _, _, _ => fun _ hop => absurd hop List.not_mem_nil
  | _ :: _, _, _, _, hrun => by
    obtain ⟨u, out, rest, hstep, hrest, -⟩ := Lib.Machine.run_cons_inv hrun
    exact List.forall_mem_cons.mpr ⟨fits_of_step hstep, fits_of_run hrest⟩

/-- After a sequence of calls the counters are right, and writes are seen by nobody else, if and only if no call has asked
for a buffer whose size overflows with its header. -/
theorem buffers_counted_iff (ops : List Op) :
    (∃ s freed, machine.run {} ops = some (s, freed) ∧ Counts s freed.flatten) ↔ ∀ op ∈ ops, op.Fits := by
  constructor
  · rintro ⟨s, freed, hrun, -⟩
    exact fits_of_run hrun
  · intro hfits
    obtain ⟨s, freed, hrun, hinv⟩ := machine.run_history {} (fun _ op => op.Fits) (fun _ => True)
      (fun _ freed s => Inv s (refs s.slices) freed.flatten) (fun _ _ _ => trivial) inv_start (by
        rintro ops freed s op - hop hinv
        obtain ⟨t, out, hstep, ht⟩ := hinv.step hop
        refine ⟨t, out, hstep, ?_⟩
        rw [List.flatten_append, List.flatten_singleton]
        exact ht) ops trivial (Lib.Machine.along_of_forall ops _ fun _ => hfits)
    exact ⟨s, freed, hrun, hinv.counts⟩

/-- The block of `UniqueSharedSlice(SIZE_MAX - 15)` has no byte, and its header is written behind it. -/
theorem uniqueSize_overruns :
    ¬∃ s freed, machine.run {} [.uniqueSize 0xFFFFFFFFFFFFFFF0] = some (s, freed) ∧ Counts s freed.flatten := by
  rintro ⟨s, freed, hrun, -⟩
  have hfits : Op.Fits (.uniqueSize 0xFFFFFFFFFFFFFFF0) := fits_of_run hrun _ (List.mem_singleton_self _)
  unfold Op.Fits Fits headerSize at hfits
  simp at hfits

end SharedSlices

end TdUtils
