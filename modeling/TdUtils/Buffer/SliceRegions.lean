import TdUtils.Buffer.SliceCounter
import TdUtils.Lib.Pointers

/-!
# Buffer.SliceRegions — where `BufferSlice(size)` puts a new slice

Creations and destructions of slices and the ends of threads, of any threads.  `Held s pending` counts the pointers
to each buffer, with one that is on its way from one place to another, and says that the block of each thread is not
overfull; it holds for all sizes.  `Within` is the other half, that slices end before the end of their buffers, and
stays as long as the size of a slice with the header of its buffer fits into a `size_t`.
-/

namespace TdUtils.BufferAllocator

open Lib

/-- Bytes up to a multiple of 8. -/
def rounded (size : ℕ) : ℕ := (size + 7) / 8 * 8

/-- What is promised of a new slice `x`: it has its size, its rounded region is before the end of the buffer, which is
in the memory of the buffer, and it shares no byte with a slice that was there before. -/
structure Fresh (s s' : State) (size : ℕ) (x : BufferSlice) (a : ℕ) (raw : Raw) : Prop where
  slices : s'.slices = s.slices ++ [some x]
  buffer : x.buffer = some a
  access : s'.access a = some raw
  size_eq : x.end_ = x.begin_ + size
  aligned : 8 ∣ x.begin_
  rounded_le : x.begin_ + rounded size ≤ raw.end_
  end_le : raw.end_ ≤ raw.dataSize
  allocated : BufferRaw.dataOffset + raw.dataSize ≤ raw.bufSize
  disjoint : ∀ (i : ℕ) (y : BufferSlice), s.get i = some y → y.buffer = some a → y.end_ ≤ x.begin_ ∨ x.end_ ≤ y.begin_

/-- `data_size_ - end_` of the block of a thread is not below 0. -/
def NoUnderflow (s : State) : Prop :=
  ∀ (thread a : ℕ) (raw : Raw), s.tls[thread]? = some (some a) → s.access a = some raw → raw.end_ ≤ raw.dataSize

/-- If the call makes a slice, it makes it as promised. -/
def MakesFresh (s : State) (call : Call) : Prop :=
  NoUnderflow s ∧ ∀ size, call.op = .ofSize size →
    ∃ s' x a raw, s.ofSize call.thread size = some s' ∧ Fresh s s' size x a raw

/-- A creation, the destruction of a slice that is there, or the end of a thread. -/
def Legal (s : State) (call : Call) : Prop :=
  call.thread < s.counters.length ∧
    match call.op with
    | .ofSize size => size < 2 ^ 64
    | .destroy i => (s.get i).isSome
    | .clearThreadLocal => True
    | _ => False

instance decidableLegal (s : State) (call : Call) : Decidable (Legal s call) := by
  unfold Legal
  cases call.op <;> infer_instance

/-- The header and the rounded size fit into a `size_t`. -/
def Op.Fits : Op → Prop
  | .ofSize size => size ≤ 2 ^ 64 - 40
  | _ => True

/-! ### Rounding -/

theorem roundUp_lt (size : ℕ) : BufferRaw.roundUp size < 2 ^ 64 := by
  unfold BufferRaw.roundUp
  omega

theorem dvd_roundUp (size : ℕ) : 8 ∣ BufferRaw.roundUp size := Nat.dvd_mul_left 8 _

theorem fits_iff {size : ℕ} (hsize : size < 2 ^ 64) :
    Op.Fits (.ofSize size) ↔
      BufferRaw.dataOffset + BufferRaw.roundUp size < 2 ^ 64 ∧ rounded size ≤ BufferRaw.roundUp size := by
  unfold Op.Fits BufferRaw.dataOffset BufferRaw.roundUp rounded
  omega

namespace State

variable {s s' : State} {pending ptr : Option ℕ} {a b thread size i : ℕ} {raw raw' : Raw} {x y : BufferSlice}

/-! ### Pointers -/

/-- How many blocks and slices point to a buffer. -/
def pointers (s : State) (b : ℕ) : ℕ :=
  refs id s.tls b + refs (fun o : Option BufferSlice => o.bind BufferSlice.buffer) s.slices b

/-- The block of a thread. -/
structure SharedBlock (raw : Raw) : Prop where
  dataSize : raw.dataSize = 16384
  bufSize : raw.bufSize = 16416
  end_le : raw.end_ ≤ 16384
  aligned : 8 ∣ raw.end_

/-- Each buffer has at least as many references as there are pointers to it, the pending one included. -/
structure Held (s : State) (pending : Option ℕ) : Prop where
  threads : s.tls.length = s.counters.length
  counted : ∀ b : ℕ, 0 < s.pointers b + hit pending b →
    ∃ raw, s.raws[b]? = some raw ∧ s.pointers b + hit pending b ≤ raw.refCnt
  block : ∀ thread b : ℕ, s.tls[thread]? = some (some b) → ∃ raw, s.raws[b]? = some raw ∧ SharedBlock raw

/-- Buffers stay, and their ends do not go back. -/
def Grows (s s' : State) : Prop :=
  ∀ (b : ℕ) (raw : Raw), s.raws[b]? = some raw → ∃ raw', s'.raws[b]? = some raw' ∧ raw.end_ ≤ raw'.end_

theorem Grows.refl (s : State) : Grows s s := fun _ raw h => ⟨raw, h, le_rfl⟩

theorem Grows.trans {s'' : State} (h : Grows s s') (h' : Grows s' s'') : Grows s s'' := by
  intro b raw hraw
  obtain ⟨raw₁, hraw₁, hle₁⟩ := h b raw hraw
  obtain ⟨raw₂, hraw₂, hle₂⟩ := h' b raw₁ hraw₁
  exact ⟨raw₂, hraw₂, hle₁.trans hle₂⟩

/-- Only references are counted. -/
def SameData (s s' : State) : Prop :=
  ∀ (b : ℕ) (raw : Raw), s.raws[b]? = some raw → ∃ n, s'.raws[b]? = some { raw with refCnt := n }

theorem SameData.grows (h : SameData s s') : Grows s s' := by
  intro b raw hraw
  obtain ⟨n, hraw'⟩ := h b raw hraw
  exact ⟨_, hraw', le_rfl⟩

theorem access_of (hraw : s.raws[a]? = some raw) (hpos : 0 < raw.refCnt) : s.access a = some raw := by
  unfold access
  rw [hraw, Option.bind_some, if_neg (Nat.ne_of_gt hpos)]

theorem getElem?_of_access (h : s.access a = some raw) : s.raws[a]? = some raw := by
  obtain ⟨raw', hraw, heq⟩ := Option.bind_eq_some_iff.mp h
  split_ifs at heq
  obtain rfl := Option.some.inj heq
  exact hraw

theorem pointers_put (s : State) (a : ℕ) (raw : Raw) (b : ℕ) : (s.put a raw).pointers b = s.pointers b := rfl

theorem pos_of_tls (h : s.tls[thread]? = some (some a)) : 0 < s.pointers a :=
  Nat.add_pos_left (@refs_pos _ _ _ id _ _ _ _ h rfl) _

theorem pos_of_get (h : s.get i = some x) (hx : x.buffer = some a) : 0 < s.pointers a :=
  Nat.add_pos_right _ (refs_pos (getElem?_of_get h) hx)

/-- A buffer to which something points is there. -/
theorem Held.access (h : Held s pending) (hpos : 0 < s.pointers a + hit pending a) :
    ∃ raw, s.access a = some raw ∧ s.raws[a]? = some raw ∧ s.pointers a + hit pending a ≤ raw.refCnt := by
  obtain ⟨raw, hraw, hle⟩ := h.counted a hpos
  exact ⟨raw, access_of hraw (lt_of_lt_of_le hpos hle), hraw, hle⟩

/-- The buffer that is there, once something points to it. -/
theorem Held.access_raw (h : Held s pending) (hraw : s.raws[a]? = some raw)
    (hpos : 0 < s.pointers a + hit pending a) : s.access a = some raw ∧ s.pointers a + hit pending a ≤ raw.refCnt := by
  obtain ⟨r, haccess, hr, hle⟩ := h.access hpos
  obtain rfl := Option.some.inj (hraw.symm.trans hr)
  exact ⟨haccess, hle⟩

theorem getElem?_put (hraw : s.raws[a]? = some raw) (raw' : Raw) : (s.put a raw').raws[a]? = some raw' :=
  List.getElem?_set_self (List.getElem?_eq_some_iff.mp hraw).1

theorem getElem?_put_ne (h : b ≠ a) (raw' : Raw) : (s.put a raw').raws[b]? = s.raws[b]? :=
  List.getElem?_set_ne (Ne.symm h)

/-- One buffer changes, and the pending pointer with it. -/
theorem Held.put (h : Held s pending) (hraw : s.raws[a]? = some raw) (hshared : SharedBlock raw → SharedBlock raw')
    (hothers : ∀ b, b ≠ a → hit ptr b ≤ hit pending b) (hcount : s.pointers a + hit ptr a ≤ raw'.refCnt) :
    Held (s.put a raw') ptr := by
  refine ⟨h.threads, fun b hpos => ?_, fun thread b htls => ?_⟩
  · rw [pointers_put] at hpos ⊢
    by_cases hb : b = a
    · rw [hb]
      exact ⟨raw', getElem?_put hraw raw', hcount⟩
    · obtain ⟨r, hr, hle⟩ := h.counted b (by have := hothers b hb; omega)
      rw [getElem?_put_ne hb]
      exact ⟨r, hr, by have := hothers b hb; omega⟩
  · obtain ⟨r, hr, hblock⟩ := h.block thread b htls
    by_cases hb : b = a
    · rw [hb, hraw] at hr
      obtain rfl := Option.some.inj hr
      rw [hb]
      exact ⟨raw', getElem?_put hraw raw', hshared hblock⟩
    · rw [getElem?_put_ne hb]
      exact ⟨r, hr, hblock⟩

theorem Grows.put (hraw : s.raws[a]? = some raw) (hle : raw.end_ ≤ raw'.end_) : Grows s (s.put a raw') := by
  intro b r hr
  by_cases hb : b = a
  · rw [hb, hraw] at hr
    obtain rfl := Option.some.inj hr
    rw [hb]
    exact ⟨raw', getElem?_put hraw raw', hle⟩
  · rw [getElem?_put_ne hb]
    exact ⟨r, hr, le_rfl⟩

theorem SameData.put (hraw : s.raws[a]? = some raw) (n : ℕ) : SameData s (s.put a { raw with refCnt := n }) := by
  intro b r hr
  by_cases hb : b = a
  · rw [hb, hraw] at hr
    obtain rfl := Option.some.inj hr
    rw [hb]
    exact ⟨n, getElem?_put hraw _⟩
  · rw [getElem?_put_ne hb]
    exact ⟨r.refCnt, hr⟩

theorem incRef_of (h : s.access a = some raw) :
    s.incRef a = some (s.put a { raw with refCnt := raw.refCnt + 1 }) := by
  unfold incRef
  rw [h]
  rfl

theorem decRef_of (h : s.access a = some raw) :
    s.decRef a = some (s.put a { raw with refCnt := raw.refCnt - 1 }) := by
  unfold decRef
  rw [h]
  rfl

theorem SharedBlock.refCnt (h : SharedBlock raw) (n : ℕ) : SharedBlock { raw with refCnt := n } :=
  ⟨h.dataSize, h.bufSize, h.end_le, h.aligned⟩

/-- The pending pointer goes. -/
theorem Held.release (h : Held s ptr) : ∃ s', s.release ptr = some s' ∧ Held s' none ∧ SameData s s' ∧
    s'.tls = s.tls ∧ s'.slices = s.slices ∧ s'.counters = s.counters := by
  cases ptr with
  | none => exact ⟨s, rfl, h, fun b raw hraw => ⟨raw.refCnt, hraw⟩, rfl, rfl, rfl⟩
  | some a =>
    have hpos : 0 < s.pointers a + hit (some a) a := by
      rw [hit_self]
      exact Nat.succ_pos _
    obtain ⟨raw, haccess, hraw, hle⟩ := h.access hpos
    rw [hit_self] at hle
    have hheld : Held (s.put a { raw with refCnt := raw.refCnt - 1 }) none :=
      h.put hraw (fun hshared => hshared.refCnt _) (fun b _ => Nat.zero_le _) (Nat.le_sub_of_add_le hle)
    exact ⟨_, decRef_of haccess, hheld, .put hraw _, rfl, rfl, rfl⟩

/-- A new buffer, and the pointer to it. -/
theorem Held.newRaw (h : Held s none) (raw : Raw) (hcount : raw.refCnt = 1) :
    Held { s with raws := s.raws ++ [raw] } (some s.raws.length) := by
  have hzero : s.pointers s.raws.length = 0 := by
    by_contra hne
    obtain ⟨r, hr, -⟩ := h.counted s.raws.length (Nat.add_pos_left (Nat.pos_of_ne_zero hne) _)
    rw [List.getElem?_eq_none le_rfl] at hr
    cases hr
  have hkeep : ∀ (b : ℕ) (r : Raw), s.raws[b]? = some r → (s.raws ++ [raw])[b]? = some r := fun b r hr => by
    rw [List.getElem?_append_left (List.getElem?_eq_some_iff.mp hr).1]
    exact hr
  refine ⟨h.threads, fun b hpos => ?_, fun thread b htls => ?_⟩
  · change 0 < s.pointers b + hit (some s.raws.length) b at hpos
    change ∃ r, (s.raws ++ [raw])[b]? = some r ∧ s.pointers b + hit (some s.raws.length) b ≤ r.refCnt
    by_cases hb : s.raws.length = b
    · rw [← hb, hzero, hit_self, List.getElem?_append_right le_rfl, Nat.sub_self]
      exact ⟨raw, rfl, by omega⟩
    · rw [hit_of_ne hb] at hpos ⊢
      obtain ⟨r, hr, hle⟩ := h.counted b hpos
      exact ⟨r, hkeep b r hr, hle⟩
  · obtain ⟨r, hr, hshared⟩ := h.block thread b htls
    exact ⟨r, hkeep b r hr, hshared⟩

theorem Grows.newRaw (s : State) (raw : Raw) : Grows s { s with raws := s.raws ++ [raw] } := by
  intro b r hr
  refine ⟨r, ?_, le_rfl⟩
  change (s.raws ++ [raw])[b]? = some r
  rw [List.getElem?_append_left (List.getElem?_eq_some_iff.mp hr).1]
  exact hr

/-- The pending pointer becomes the block of a thread, whose old block is pending then. -/
theorem Held.setTls {block : Option ℕ} (h : Held s ptr) (hblock : s.tls[thread]? = some block)
    (hshared : ∀ b, ptr = some b → ∃ raw, s.raws[b]? = some raw ∧ SharedBlock raw) :
    Held { s with tls := s.tls.set thread ptr } block := by
  have hmoved : ∀ b, ({ s with tls := s.tls.set thread ptr } : State).pointers b + hit block b =
      s.pointers b + hit ptr b := fun b => by
    have hset := refs_set id hblock ptr b
    unfold pointers
    dsimp only [id] at hset ⊢
    omega
  refine ⟨(List.length_set ..).trans h.threads, fun b hpos => ?_, fun t b htls => ?_⟩
  · rw [hmoved] at hpos ⊢
    exact h.counted b hpos
  · rcases getElem?_set_inv htls with ⟨-, hold⟩ | ⟨-, hnew⟩
    · exact h.block t b hold
    · exact hshared b hnew.symm

/-- A slice goes, and its pointer is pending. -/
theorem Held.setNone (h : Held s none) (hx : s.get i = some x) : Held (s.set i none) x.buffer := by
  have hmoved : ∀ b, (s.set i none).pointers b + hit x.buffer b = s.pointers b + hit none b := fun b => by
    have hset := refs_set (fun o : Option BufferSlice => o.bind BufferSlice.buffer) (getElem?_of_get hx) none b
    unfold pointers State.set
    dsimp only [Option.bind_some, Option.bind_none] at hset ⊢
    omega
  refine ⟨h.threads, fun b hpos => ?_, h.block⟩
  rw [hmoved] at hpos ⊢
  exact h.counted b hpos

/-- The pending pointer becomes that of a new slice. -/
theorem Held.push (h : Held s x.buffer) : Held (s.push x) none := by
  have hmoved : ∀ b, (s.push x).pointers b + hit none b = s.pointers b + hit x.buffer b := fun b => by
    have happend := refs_append (fun o : Option BufferSlice => o.bind BufferSlice.buffer) s.slices (some x) b
    unfold pointers State.push
    dsimp only
    rw [happend, hit_none, Option.bind_some]
    omega
  refine ⟨h.threads, fun b hpos => ?_, h.block⟩
  rw [hmoved] at hpos ⊢
  exact h.counted b hpos

theorem track_eq (s : State) (thread : ℕ) (size : ℤ) :
    s.track thread size = { s with counters := (s.track thread size).counters } := by
  unfold track
  split_ifs <;> rfl

theorem raws_track (s : State) (thread : ℕ) (size : ℤ) : (s.track thread size).raws = s.raws := by
  rw [track_eq]

theorem get_track (s : State) (thread : ℕ) (size : ℤ) (i : ℕ) : (s.track thread size).get i = s.get i := by
  unfold State.get
  rw [slices_track]

theorem Held.track (h : Held s ptr) (thread : ℕ) (size : ℤ) : Held (s.track thread size) ptr := by
  have hthreads : s.tls.length = (s.track thread size).counters.length := by
    rw [length_counters_track]
    exact h.threads
  rw [track_eq]
  exact ⟨hthreads, h.counted, h.block⟩

/-! ### A place for a new slice -/

theorem createBufferRaw_block (s : State) :
    s.createBufferRaw (4096 * 4) = ({ s with raws := s.raws ++ [⟨16384, 16416, 0, 0, 1⟩] }, s.raws.length) := rfl

/-- A new block, in the place of the old one. -/
def withBlock (s : State) (thread : ℕ) : State :=
  { s with raws := s.raws ++ [⟨16384, 16416, 0, 0, 1⟩], tls := s.tls.set thread (some s.raws.length) }

theorem Held.withBlock {block : Option ℕ} (h : Held s none) (hblock : s.tls[thread]? = some block) :
    Held (s.withBlock thread) block := by
  have hnew := h.newRaw ⟨16384, 16416, 0, 0, 1⟩ rfl
  refine hnew.setTls hblock fun b hb => ?_
  obtain rfl := Option.some.inj hb
  refine ⟨⟨16384, 16416, 0, 0, 1⟩, ?_, ⟨rfl, rfl, Nat.zero_le _, Nat.dvd_zero 8⟩⟩
  exact List.getElem?_concat_length

theorem hasRoom_of (h : s.access a = some raw) (hshared : SharedBlock raw) (size : ℕ) :
    s.hasRoom size (some a) = some (decide (raw.end_ + size ≤ 16384)) := by
  have hsub : Word.sub 64 raw.dataSize raw.end_ = 16384 - raw.end_ := by
    rw [hshared.dataSize]
    exact Word.sub_of_le hshared.end_le (by omega)
  have hle := hshared.end_le
  change (s.access a).map _ = _
  rw [h, Option.map_some, hsub]
  refine congrArg some (decide_eq_decide.mpr ?_)
  omega

/-- The thread has a block that has room. -/
structure Room (s s₁ : State) (thread size a : ℕ) (raw : Raw) : Prop where
  held : Held s₁ none
  grows : Grows s s₁
  slices : s₁.slices = s.slices
  counters : s₁.counters = s.counters
  tls : s₁.tls[thread]? = some (some a)
  there : s₁.raws[a]? = some raw
  shared : SharedBlock raw
  fits : raw.end_ + size ≤ 16384
  old_le : ∀ r, s.raws[a]? = some r → r.end_ ≤ raw.end_

theorem Held.newBlock {block : Option ℕ} (h : Held s none) (hblock : s.tls[thread]? = some block)
    (hsize : size ≤ 512) : ∃ s₁ raw, (s.withBlock thread).release block = some s₁ ∧
      Room s s₁ thread size s.raws.length raw := by
  have hthread : thread < s.tls.length := (List.getElem?_eq_some_iff.mp hblock).1
  obtain ⟨s₁, hrelease, hheld, hdata, htls, hslices, hcounters⟩ := (h.withBlock hblock).release
  have hnew : (s.withBlock thread).raws[s.raws.length]? = some ⟨16384, 16416, 0, 0, 1⟩ := List.getElem?_concat_length
  obtain ⟨n, hraw⟩ := hdata s.raws.length _ hnew
  refine ⟨s₁, ⟨16384, 16416, 0, 0, n⟩, hrelease, hheld, ?_, hslices, hcounters, ?_, hraw, ?_, ?_, fun r hr => ?_⟩
  · exact (Grows.newRaw s _).trans hdata.grows
  · rw [htls]
    exact List.getElem?_set_self hthread
  · exact ⟨rfl, rfl, Nat.zero_le _, Nat.dvd_zero 8⟩
  · dsimp only
    omega
  · rw [List.getElem?_eq_none le_rfl] at hr
    cases hr

theorem Held.sharedBlock (h : Held s none) (hthread : thread < s.tls.length) (hsize : size ≤ 512) :
    ∃ s₁ a raw, s.sharedBlock thread size = some (s₁, a) ∧ Room s s₁ thread size a raw := by
  have hblock : s.tls[thread]? = some s.tls[thread] := List.getElem?_eq_getElem hthread
  obtain ⟨s₁, raw, hrelease, hroom⟩ := h.newBlock hblock hsize
  unfold State.sharedBlock
  rw [hblock, createBufferRaw_block]
  simp only [Option.bind_eq_bind, Option.bind_some]
  cases htls : s.tls[thread] with
  | none =>
    rw [htls] at hrelease
    refine ⟨s₁, s.raws.length, raw, ?_, hroom⟩
    rw [State.hasRoom, Option.bind_some, if_neg Bool.false_ne_true]
    change ((s.withBlock thread).release none).bind _ = _
    rw [hrelease]
    rfl
  | some a =>
    rw [htls] at hrelease hblock
    obtain ⟨r, hr, hshared⟩ := h.block thread a hblock
    obtain ⟨haccess, -⟩ := h.access_raw hr (Nat.add_pos_left (pos_of_tls hblock) _)
    rw [hasRoom_of haccess hshared, Option.bind_some]
    by_cases hfits : r.end_ + size ≤ 16384
    · refine ⟨s, a, r, ?_, h, .refl s, rfl, rfl, hblock, hr, hshared, hfits, fun r' hr' => ?_⟩
      · rw [if_pos (decide_eq_true hfits)]
        rfl
      · rw [hr] at hr'
        obtain rfl := Option.some.inj hr'
        exact le_rfl
    · refine ⟨s₁, s.raws.length, raw, ?_, hroom⟩
      rw [if_neg (by rw [decide_eq_true_eq]; exact hfits)]
      change ((s.withBlock thread).release (some a)).bind _ = _
      rw [hrelease]
      rfl

theorem put_put (s : State) (a : ℕ) (raw raw' : Raw) : (s.put a raw).put a raw' = s.put a raw' := by
  unfold put
  dsimp only
  rw [List.set_set]

/-- A buffer with a rounded region at its end, for the pointer that is pending. -/
structure Place (s s₁ : State) (size a old : ℕ) (raw : Raw) : Prop where
  held : Held s₁ (some a)
  grows : Grows s s₁
  slices : s₁.slices = s.slices
  counters : s₁.counters = s.counters
  there : s₁.raws[a]? = some raw
  old_le : ∀ r, s.raws[a]? = some r → r.end_ ≤ old
  aligned : 8 ∣ old
  end_eq : raw.end_ = old + BufferRaw.roundUp size
  end_le : raw.end_ ≤ raw.dataSize
  end_lt : raw.end_ < 2 ^ 64
  allocated : BufferRaw.dataOffset + raw.dataSize ≤ raw.bufSize ↔ BufferRaw.dataOffset + BufferRaw.roundUp size < 2 ^ 64

theorem Held.createReaderFast (h : Held s none) (hthread : thread < s.tls.length) (hsize : size < 512) :
    ∃ s₁ a old raw, s.createReaderFast thread size = some (s₁, a) ∧ Place s s₁ size a old raw := by
  have hround : BufferRaw.roundUp size ≤ 512 := by
    unfold BufferRaw.roundUp
    omega
  obtain ⟨s₁, a, raw, hblock, hroom⟩ := h.sharedBlock hthread hround
  have hpos : 0 < s₁.pointers a + hit none a := Nat.add_pos_left (pos_of_tls hroom.tls) _
  obtain ⟨haccess, hle⟩ := hroom.held.access_raw hroom.there hpos
  have hfits := hroom.fits
  have hend : Word.add 64 raw.end_ (BufferRaw.roundUp size) = raw.end_ + BufferRaw.roundUp size :=
    Word.add_of_lt (by omega)
  -- the block with its new end, and then with one more reference
  have haccess' : (s₁.put a { raw with end_ := raw.end_ + BufferRaw.roundUp size }).access a =
      some { raw with end_ := raw.end_ + BufferRaw.roundUp size } :=
    access_of (getElem?_put hroom.there _) (lt_of_lt_of_le hpos hle)
  refine ⟨s₁.put a { raw with end_ := raw.end_ + BufferRaw.roundUp size, refCnt := raw.refCnt + 1 }, a, raw.end_,
    { raw with end_ := raw.end_ + BufferRaw.roundUp size, refCnt := raw.refCnt + 1 }, ?_, ?_⟩
  · unfold State.createReaderFast
    simp only [Option.bind_eq_bind, hblock, Option.bind_some, haccess, hend]
    rw [incRef_of haccess', Option.bind_some, put_put]
  · have hshared := hroom.shared
    refine ⟨hroom.held.put hroom.there (fun _ => ?_) (fun b hb => ?_) ?_, ?_, hroom.slices, hroom.counters,
      getElem?_put hroom.there _, hroom.old_le, hshared.aligned, rfl, ?_, ?_, ?_⟩
    · exact ⟨hshared.dataSize, hshared.bufSize, hfits, Nat.dvd_add hshared.aligned (dvd_roundUp size)⟩
    · exact (hit_of_ne (Ne.symm hb)).le
    · rw [hit_self]
      rw [hit_none] at hle
      exact Nat.succ_le_succ hle
    · exact hroom.grows.trans (.put hroom.there (Nat.le_add_right _ _))
    · dsimp only
      rw [hshared.dataSize]
      exact hfits
    · dsimp only
      omega
    · dsimp only
      rw [hshared.dataSize, hshared.bufSize]
      unfold BufferRaw.dataOffset
      omega

/-- A large buffer has room for its bytes unless its size with the header wraps. -/
theorem createBufferRaw_eq (s : State) (size : ℕ) : ∃ bufSize,
    s.createBufferRaw size =
      ({ s with raws := s.raws ++ [⟨BufferRaw.roundUp size, bufSize, 0, 0, 1⟩] }, s.raws.length) ∧
    (BufferRaw.dataOffset + BufferRaw.roundUp size ≤ bufSize ↔ BufferRaw.dataOffset + BufferRaw.roundUp size < 2 ^ 64) := by
  refine ⟨_, rfl, ?_⟩
  have hlt := roundUp_lt size
  unfold BufferRaw.bufSize Word.add BufferRaw.dataOffset BufferRaw.rawSize
  dsimp only
  split_ifs <;> omega

/-- The buffer of a large slice. -/
def ownRaw (size bufSize refCnt : ℕ) : Raw := ⟨BufferRaw.roundUp size, bufSize, 0, BufferRaw.roundUp size, refCnt⟩

/-- A reader comes, and the writer goes. -/
theorem handOver {bufSize : ℕ} (hraw : s.raws[a]? = some raw) :
    ((s.put a (ownRaw size bufSize 1)).incRef a).bind (fun s => s.decRef a) =
      some (s.put a (ownRaw size bufSize 1)) := by
  have hinc := incRef_of (access_of (getElem?_put hraw (ownRaw size bufSize 1)) Nat.one_pos)
  have hdec := decRef_of (access_of (getElem?_put hraw (ownRaw size bufSize 2)) Nat.two_pos)
  rw [put_put] at hinc hdec
  rw [hinc, Option.bind_some]
  exact hdec

theorem Held.createReaderLarge (h : Held s none) (hsize : ¬size < 512) :
    ∃ s₁ a old raw, s.createReader thread size = some (s₁, a) ∧ Place s s₁ size a old raw := by
  obtain ⟨bufSize, hcreate, hallocated⟩ := createBufferRaw_eq s size
  have hlt := roundUp_lt size
  have hend : Word.add 64 0 (BufferRaw.roundUp size) = BufferRaw.roundUp size := by
    rw [Word.add_of_lt (by omega), Nat.zero_add]
  have hnew := h.newRaw ⟨BufferRaw.roundUp size, bufSize, 0, 0, 1⟩ rfl
  have hgrows := Grows.newRaw s ⟨BufferRaw.roundUp size, bufSize, 0, 0, 1⟩
  generalize hs₀ : ({ s with raws := s.raws ++ [⟨BufferRaw.roundUp size, bufSize, 0, 0, 1⟩] } : State) = s₀
    at hcreate hnew hgrows
  have hthere : s₀.raws[s.raws.length]? = some ⟨BufferRaw.roundUp size, bufSize, 0, 0, 1⟩ := by
    rw [← hs₀]
    exact List.getElem?_concat_length
  refine ⟨s₀.put s.raws.length (ownRaw size bufSize 1), s.raws.length, 0, ownRaw size bufSize 1, ?_, ?_⟩
  · obtain ⟨s₂, hinc, hdec⟩ := Option.bind_eq_some_iff.mp (handOver hthere)
    unfold State.createReader
    rw [if_neg hsize, hcreate]
    simp only [Option.bind_eq_bind]
    rw [access_of hthere Nat.one_pos, Option.bind_some]
    dsimp only
    rw [hend]
    exact Option.bind_eq_some_iff.mpr ⟨s₂, hinc, Option.bind_eq_some_iff.mpr ⟨_, hdec, rfl⟩⟩
  · refine ⟨hnew.put hthere (fun hshared => ?_) (fun b _ => le_rfl) ?_,
      hgrows.trans (.put hthere (Nat.zero_le _)), ?_, ?_,
      getElem?_put hthere _, fun r hr => ?_, Nat.dvd_zero 8, (Nat.zero_add _).symm, le_rfl, hlt, hallocated⟩
    · exact ⟨hshared.dataSize, hshared.bufSize, hshared.dataSize.le, dvd_roundUp size⟩
    · exact (hnew.access_raw hthere (by rw [hit_self]; exact Nat.succ_pos _)).2
    · rw [← hs₀]
      rfl
    · rw [← hs₀]
      rfl
    · rw [List.getElem?_eq_none le_rfl] at hr
      cases hr

theorem Held.createReader (h : Held s none) (hthread : thread < s.tls.length) (size : ℕ) :
    ∃ s₁ a old raw, s.createReader thread size = some (s₁, a) ∧ Place s s₁ size a old raw := by
  by_cases hsmall : size < 512
  · obtain ⟨s₁, a, old, raw, hfast, hplace⟩ := h.createReaderFast hthread hsmall
    refine ⟨s₁, a, old, raw, ?_, hplace⟩
    unfold State.createReader
    rw [if_pos hsmall]
    exact hfast
  · exact h.createReaderLarge hsmall

/-! ### A new slice -/

/-- Every slice ends before the end of its buffer. -/
def Within (s : State) : Prop :=
  ∀ (i : ℕ) (x : BufferSlice), s.get i = some x →
    ∃ a raw, x.buffer = some a ∧ s.raws[a]? = some raw ∧ x.end_ ≤ raw.end_

theorem Within.grows (h : Within s) (hget : ∀ i x, s'.get i = some x → s.get i = some x) (hgrows : Grows s s') :
    Within s' := by
  intro i x hx
  obtain ⟨a, raw, hbuffer, hraw, hle⟩ := h i x (hget i x hx)
  obtain ⟨raw', hraw', hle'⟩ := hgrows a raw hraw
  exact ⟨a, raw', hbuffer, hraw', hle.trans hle'⟩

theorem get_push_inv {s : State} {x y : BufferSlice} {i : ℕ} (h : (s.push x).get i = some y) :
    s.get i = some y ∨ y = x := by
  rcases getElem?_append_inv (getElem?_of_get h) with hold | ⟨-, hnew⟩
  · refine .inl ?_
    unfold State.get
    rw [hold]
    rfl
  · exact .inr (Option.some.inj hnew)

/-- The slice that `BufferSlice(size)` makes. -/
def newSlice (a old size : ℕ) : BufferSlice := ⟨some a, old, Word.add 64 old size⟩

/-- Whatever its size, a slice is made. -/
theorem Held.ofSize (h : Held s none) (hthread : thread < s.tls.length) (size : ℕ) :
    ∃ s₁ a old raw, Place s s₁ size a old raw ∧ s.ofSize thread size =
      some ((s₁.push (newSlice a old size)).debugTrack thread (newSlice a old size)) := by
  obtain ⟨s₁, a, old, raw, hcreate, hplace⟩ := h.createReader hthread size
  obtain ⟨haccess, -⟩ := hplace.held.access_raw hplace.there (by rw [hit_self]; exact Nat.succ_pos _)
  refine ⟨s₁, a, old, raw, hplace, ?_⟩
  have hsub : Word.sub 64 raw.end_ (BufferRaw.roundUp size) = old := by
    rw [Word.sub_of_le (by have := hplace.end_eq; omega) hplace.end_lt, hplace.end_eq, Nat.add_sub_cancel]
  unfold State.ofSize
  simp only [Option.bind_eq_bind, hcreate, Option.bind_some, haccess, hsub]
  rfl

theorem Place.held_push {s₁ : State} {old : ℕ} (h : Place s s₁ size a old raw) (thread : ℕ) :
    Held ((s₁.push (newSlice a old size)).debugTrack thread (newSlice a old size)) none :=
  (Held.push (x := newSlice a old size) h.held).track _ _

/-- If the size fits, the slice is as promised. -/
theorem Place.fresh {s₁ : State} {old : ℕ} (h : Place s s₁ size a old raw) (hwithin : Within s)
    (hsize : size < 2 ^ 64) (hfits : Op.Fits (.ofSize size)) (thread : ℕ) :
    Fresh s ((s₁.push (newSlice a old size)).debugTrack thread (newSlice a old size)) size (newSlice a old size) a
      raw := by
  have hend := h.end_eq
  have hlt := h.end_lt
  obtain ⟨hheader, hrounded⟩ := (fits_iff hsize).mp hfits
  have hle : size ≤ rounded size := by
    unfold rounded
    omega
  have hsum : Word.add 64 old size = old + size := Word.add_of_lt (by omega)
  have hheld := h.held_push thread
  have hslices : ((s₁.push (newSlice a old size)).debugTrack thread (newSlice a old size)).slices =
      s.slices ++ [some (newSlice a old size)] := by
    unfold State.debugTrack
    rw [slices_track]
    exact congrArg (· ++ [some (newSlice a old size)]) h.slices
  have hthere : ((s₁.push (newSlice a old size)).debugTrack thread (newSlice a old size)).raws[a]? = some raw := by
    unfold State.debugTrack
    rw [track_eq]
    exact h.there
  refine ⟨hslices, rfl, ?_, hsum, h.aligned, ?_, h.end_le, h.allocated.mpr hheader, fun i y hy hbuffer => ?_⟩
  · have hget : ((s₁.push (newSlice a old size)).debugTrack thread (newSlice a old size)).get s.slices.length =
        some (newSlice a old size) := by
      unfold State.get
      rw [hslices, List.getElem?_concat_length]
      rfl
    exact (hheld.access_raw hthere (Nat.add_pos_left (pos_of_get hget rfl) _)).1
  · change old + rounded size ≤ raw.end_
    omega
  · obtain ⟨b, r, hb, hr, hend'⟩ := hwithin i y hy
    rw [hbuffer] at hb
    obtain rfl := Option.some.inj hb
    exact .inl (hend'.trans (h.old_le r hr))

/-- Only the slice that is made can be as promised. -/
theorem Place.fits_of_fresh {s₁ : State} {old : ℕ} (h : Place s s₁ size a old raw) {raw' : Raw}
    (hfresh : Fresh s ((s₁.push (newSlice a old size)).debugTrack thread (newSlice a old size)) size x b raw')
    (hsize : size < 2 ^ 64) : Op.Fits (.ofSize size) := by
  have hslices := hfresh.slices
  unfold State.debugTrack at hslices
  rw [slices_track] at hslices
  have hlist : s.slices ++ [some (newSlice a old size)] = s.slices ++ [some x] := by
    rw [← hslices, ← h.slices]
    rfl
  obtain rfl : newSlice a old size = x := Option.some.inj (List.cons.inj (List.append_cancel_left hlist)).1
  obtain rfl : a = b := Option.some.inj hfresh.buffer
  have hraw := getElem?_of_access hfresh.access
  unfold State.debugTrack at hraw
  rw [raws_track] at hraw
  obtain rfl : raw = raw' := Option.some.inj (h.there.symm.trans hraw)
  have hrounded : old + rounded size ≤ raw.end_ := hfresh.rounded_le
  have hend := h.end_eq
  exact (fits_iff hsize).mpr ⟨h.allocated.mp hfresh.allocated, by omega⟩

theorem Place.within {s₁ : State} {old : ℕ} (h : Place s s₁ size a old raw) (hwithin : Within s)
    (hsize : size < 2 ^ 64) (hfits : Op.Fits (.ofSize size)) (thread : ℕ) :
    Within ((s₁.push (newSlice a old size)).debugTrack thread (newSlice a old size)) := by
  have hfresh := h.fresh hwithin hsize hfits thread
  intro i y hy
  unfold State.debugTrack at hy ⊢
  rw [get_track] at hy
  rw [raws_track]
  rcases get_push_inv hy with hold | rfl
  · have hget : s.get i = some y := by
      unfold State.get at hold ⊢
      rwa [h.slices] at hold
    obtain ⟨b, r, hb, hr, hle⟩ := hwithin i y hget
    obtain ⟨r', hr', hle'⟩ := h.grows b r hr
    exact ⟨b, r', hb, hr', hle.trans hle'⟩
  · refine ⟨a, raw, rfl, h.there, ?_⟩
    have hle : size ≤ rounded size := by
      unfold rounded
      omega
    have hrounded := hfresh.rounded_le
    rw [hfresh.size_eq]
    omega

/-! ### The calls -/

theorem Held.noUnderflow (h : Held s none) : NoUnderflow s := by
  intro thread a raw htls haccess
  obtain ⟨r, hr, hshared⟩ := h.block thread a htls
  rw [getElem?_of_access haccess] at hr
  obtain rfl := Option.some.inj hr
  rw [hshared.dataSize]
  exact hshared.end_le

theorem get_untrack (s : State) (thread : ℕ) (x : BufferSlice) (i : ℕ) :
    (s.debugUntrack thread x).get i = s.get i := get_track s thread _ i

theorem slices_set (s : State) (i : ℕ) (o : Option BufferSlice) : (s.set i o).slices = s.slices.set i o := rfl

theorem slices_untrack (s : State) (thread : ℕ) (x : BufferSlice) : (s.debugUntrack thread x).slices = s.slices :=
  slices_track s thread _

theorem raws_set (s : State) (i : ℕ) (o : Option BufferSlice) : (s.set i o).raws = s.raws := rfl

theorem raws_untrack (s : State) (thread : ℕ) (x : BufferSlice) : (s.debugUntrack thread x).raws = s.raws :=
  raws_track s thread _

theorem Held.untrack (h : Held s ptr) (thread : ℕ) (x : BufferSlice) : Held (s.debugUntrack thread x) ptr :=
  h.track thread _

theorem Held.destroy (h : Held s none) (hx : s.get i = some x) (thread : ℕ) :
    ∃ s', s.destroy thread i = some s' ∧ Held s' none ∧ s'.slices = s.slices.set i none ∧ Grows s s' := by
  have hget : (s.debugUntrack thread x).get i = some x := by
    rw [get_untrack]
    exact hx
  have hheld : Held ((s.debugUntrack thread x).set i none) x.buffer := (h.untrack thread x).setNone hget
  obtain ⟨s', hrelease, hheld', hdata, -, hslices, -⟩ := hheld.release
  refine ⟨s', Option.bind_eq_some_iff.mpr ⟨x, hx, hrelease⟩, hheld', ?_, ?_⟩
  · rw [hslices, slices_set, slices_untrack]
  · intro b raw hraw
    refine hdata.grows b raw ?_
    rw [raws_set, raws_untrack]
    exact hraw

theorem Held.clearThreadLocal (h : Held s none) (hthread : thread < s.tls.length) :
    ∃ s', s.clearThreadLocal thread = some s' ∧ Held s' none ∧ s'.slices = s.slices ∧ Grows s s' := by
  have hblock : s.tls[thread]? = some s.tls[thread] := List.getElem?_eq_getElem hthread
  have hheld := h.setTls hblock fun b hb => by cases hb
  obtain ⟨s', hrelease, hheld', hdata, -, hslices, -⟩ := hheld.release
  exact ⟨s', Option.bind_eq_some_iff.mpr ⟨_, hblock, hrelease⟩, hheld', hslices, hdata.grows⟩

end State

open State

variable {s : State} {call : Call}

/-- A legal call goes through. -/
theorem step_of_legal (hheld : Held s none) (hlegal : Legal s call) :
    ∃ s', machine.step s call = some (s', ()) ∧ Held s' none ∧ (Within s → call.op.Fits → Within s') := by
  obtain ⟨thread, op⟩ := call
  obtain ⟨hthread, hop⟩ := hlegal
  have htls : thread < s.tls.length := hheld.threads ▸ hthread
  have hstep : ∀ s', s.run thread op = some s' → machine.step s ⟨thread, op⟩ = some (s', ()) := fun s' hrun => by
    change step s ⟨thread, op⟩ = some (s', ())
    unfold step
    rw [if_pos hthread, hrun]
    rfl
  cases op with
  | ofSize size =>
    obtain ⟨s₁, a, old, raw, hplace, hrun⟩ := hheld.ofSize htls size
    exact ⟨_, hstep _ hrun, hplace.held_push thread, fun hwithin hfits => hplace.within hwithin hop hfits thread⟩
  | destroy i =>
    obtain ⟨x, hx⟩ := Option.isSome_iff_exists.mp hop
    obtain ⟨s', hrun, hheld', hslices, hgrows⟩ := hheld.destroy hx thread
    refine ⟨s', hstep s' hrun, hheld', fun hwithin _ => hwithin.grows (fun j y hy => ?_) hgrows⟩
    have hget := getElem?_of_get hy
    rw [hslices] at hget
    rcases getElem?_set_inv hget with ⟨-, hold⟩ | ⟨-, hnew⟩
    · unfold State.get
      rw [hold]
      rfl
    · cases hnew
  | clearThreadLocal =>
    obtain ⟨s', hrun, hheld', hslices, hgrows⟩ := hheld.clearThreadLocal htls
    refine ⟨s', hstep s' hrun, hheld', fun hwithin _ => hwithin.grows (fun j y hy => ?_) hgrows⟩
    unfold State.get at hy ⊢
    rwa [hslices] at hy
  | _ => exact absurd hop id

/-- In a state in which all slices are within their buffers, what the next call makes is as promised if and only if
its size fits. -/
theorem makesFresh_iff_fits (hheld : Held s none) (hwithin : Within s) (hlegal : Legal s call) :
    MakesFresh s call ↔ call.op.Fits := by
  obtain ⟨thread, op⟩ := call
  obtain ⟨hthread, hop⟩ := hlegal
  by_cases hofSize : ∃ size, op = .ofSize size
  · obtain ⟨size, rfl⟩ := hofSize
    obtain ⟨s₁, a, old, raw, hplace, hrun⟩ := hheld.ofSize (hheld.threads ▸ hthread) size
    constructor
    · rintro ⟨-, hall⟩
      obtain ⟨t, x, b, r, ht, hfresh⟩ := hall size rfl
      have heq := Option.some.inj (hrun.symm.trans ht)
      exact hplace.fits_of_fresh (heq ▸ hfresh) hop
    · intro hfits
      refine ⟨hheld.noUnderflow, fun size' heq => ?_⟩
      obtain rfl := Op.ofSize.inj heq
      exact ⟨_, _, a, raw, hrun, hplace.fresh hwithin hop hfits thread⟩
  · have hfits : op.Fits := by
      cases op with
      | ofSize size => exact absurd ⟨size, rfl⟩ hofSize
      | _ => trivial
    exact iff_of_true ⟨hheld.noUnderflow, fun size heq => absurd ⟨size, heq⟩ hofSize⟩ hfits

theorem held_start (threads : ℕ) : Held (start threads) none := by
  have hzero : ∀ b, (start threads).pointers b + hit none b = 0 := fun b => by
    have htls : refs id (List.replicate threads (none : Option ℕ)) b = 0 :=
      List.countP_eq_zero.mpr fun o ho => by
        rw [List.eq_of_mem_replicate ho]
        exact fun h => Option.some_ne_none b (of_decide_eq_true h).symm
    exact (Nat.add_zero _).trans ((Nat.add_zero _).trans htls)
  refine ⟨?_, fun b hpos => ?_, fun thread b htls => ?_⟩
  · change (List.replicate threads (none : Option ℕ)).length = (List.replicate threads (0 : ℤ)).length
    rw [List.length_replicate, List.length_replicate]
  · rw [hzero b] at hpos
    cases hpos
  · cases List.eq_of_mem_replicate (List.mem_of_getElem? htls)

theorem within_start (threads : ℕ) : Within (start threads) := fun i x hx => by cases hx

theorem run_of_legal : ∀ (calls : List Call) {s : State}, Held s none → machine.Along Legal s calls →
    ∃ t answers, machine.run s calls = some (t, answers)
  | [], s, _, _ => ⟨s, [], rfl⟩
  | call :: calls, s, hheld, hlegal => by
    obtain ⟨s', hstep, hheld', -⟩ := step_of_legal hheld hlegal.1
    obtain ⟨t, answers, hrun⟩ := run_of_legal calls hheld' (Machine.along_step hlegal hstep)
    exact ⟨t, () :: answers, Machine.run_cons_of hstep hrun⟩

theorem along_makesFresh_iff : ∀ (calls : List Call) {s : State}, Held s none → Within s →
    machine.Along Legal s calls → (machine.Along MakesFresh s calls ↔ ∀ call ∈ calls, call.op.Fits)
  | [], _, _, _, _ => iff_of_true trivial (List.forall_mem_nil _)
  | call :: calls, s, hheld, hwithin, hlegal => by
    obtain ⟨s', hstep, hheld', hwithin'⟩ := step_of_legal hheld hlegal.1
    have hhead := makesFresh_iff_fits hheld hwithin hlegal.1
    have hrest : call.op.Fits → (machine.Along MakesFresh s' calls ↔ ∀ call ∈ calls, call.op.Fits) := fun hfits =>
      along_makesFresh_iff calls hheld' (hwithin' hwithin hfits) (Machine.along_step hlegal hstep)
    rw [List.forall_mem_cons]
    constructor
    · intro halong
      have hfits := hhead.mp halong.1
      exact ⟨hfits, (hrest hfits).mp (Machine.along_step halong hstep)⟩
    · rintro ⟨hfits, hall⟩
      refine ⟨hhead.mpr hfits, ?_⟩
      rw [hstep]
      exact (hrest hfits).mpr hall

/-- Every run of creations, destructions and ends of threads goes through, and each of its slices is made as promised
if and only if all the sizes fit. -/
theorem slices_fresh_iff (threads : ℕ) (calls : List Call) (hlegal : machine.Along Legal (start threads) calls) :
    (∃ s answers, machine.run (start threads) calls = some (s, answers)) ∧
      (machine.Along MakesFresh (start threads) calls ↔ ∀ call ∈ calls, call.op.Fits) :=
  ⟨run_of_legal calls (held_start threads) hlegal,
    along_makesFresh_iff calls (held_start threads) (within_start threads) hlegal⟩

/-- Two threads; one ends before its slice is destroyed. -/
theorem slices_fresh_iff_two :
    let calls : List Call :=
      [⟨0, .ofSize 5⟩, ⟨0, .ofSize 511⟩, ⟨1, .ofSize 600⟩, ⟨0, .clearThreadLocal⟩, ⟨1, .destroy 0⟩]
    (∃ s answers, machine.run (start 2) calls = some (s, answers)) ∧
      (machine.Along MakesFresh (start 2) calls ↔ ∀ call ∈ calls, call.op.Fits) :=
  slices_fresh_iff 2 _ (by decide)

/-- The rounded size fits into a `size_t`, but not with the header: the buffer gets 40 bytes. -/
theorem huge_slice_outside : ¬∀ (threads : ℕ) (calls : List Call), machine.Along Legal (start threads) calls →
    machine.Along MakesFresh (start threads) calls := by
  intro hall
  have hlegal : machine.Along Legal (start 1) [⟨0, .ofSize 0xfffffffffffffff8⟩] := by decide
  have hfits := (makesFresh_iff_fits (held_start 1) (within_start 1) hlegal.1).mp (hall 1 _ hlegal).1
  exact absurd hfits (by unfold Op.Fits; decide)

end TdUtils.BufferAllocator
