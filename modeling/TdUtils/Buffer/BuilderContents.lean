import TdUtils.Buffer.BufferBuilder

/-!
# Buffer.BuilderContents — the bytes of a builder

`contents` is what the lists and the buffer hold together.  Whatever goes through makes it longer by its piece, on its
side (`edits_contents`); in a builder whose buffer has the memory that it says it has (`Sound`) everything goes
through.
-/

namespace TdUtils

open Lib

namespace BufferBuilder

/-! ### One buffer -/

namespace Raw

variable {raw : Raw} {slice : List UInt8} {n : ℕ}

/-- What is between `begin_` and `end_` is in the memory. -/
structure Readable (raw : Raw) : Prop where
  le : raw.begin_ ≤ raw.end_
  inside : raw.begin_ = raw.end_ ∨ raw.end_ ≤ raw.data.length
  end_lt : raw.end_ < 2 ^ 64
  memory_lt : raw.data.length < 2 ^ 64

/-- All of `data_size_` is in the memory, and no reader has seen it. -/
structure Sound (raw : Raw) : Prop where
  readable : Readable raw
  end_le : raw.end_ ≤ raw.dataSize
  dataSize_le : raw.dataSize ≤ raw.data.length
  unread : raw.wasReader = false

def bytes (raw : Raw) : List UInt8 := part raw.data raw.begin_ raw.end_

theorem bytes_eq_nil (h : raw.begin_ = raw.end_) : raw.bytes = [] := by
  unfold bytes
  rw [h, part_self]

theorem Readable.asSlice (h : Readable raw) : raw.asSlice = some raw.bytes := by
  unfold Raw.asSlice
  split_ifs with hempty hinside
  · rw [bytes_eq_nil hempty]
  · rfl
  · exact absurd ⟨h.le, h.inside.resolve_left hempty⟩ hinside

/-- The bytes behind `end_` are written. -/
def extend (raw : Raw) (slice : List UInt8) : Raw :=
  { raw with data := overwrite raw.data raw.end_ slice, end_ := raw.end_ + slice.length }

/-- The bytes in front of `begin_` are written. -/
def extendFront (raw : Raw) (slice : List UInt8) : Raw :=
  { raw with data := overwrite raw.data (raw.begin_ - slice.length) slice, begin_ := raw.begin_ - slice.length }

theorem extend_nil (raw : Raw) : raw.extend [] = raw := by
  unfold extend
  rw [overwrite_nil, List.length_nil, Nat.add_zero]

theorem extendFront_nil (raw : Raw) : raw.extendFront [] = raw := by
  unfold extendFront
  rw [overwrite_nil, List.length_nil, Nat.sub_zero]

/-- The slice is empty, or there is memory for it behind. -/
def HasMemory (raw : Raw) (slice : List UInt8) : Prop := slice = [] ∨ raw.end_ + slice.length ≤ raw.data.length

instance (raw : Raw) (slice : List UInt8) : Decidable (HasMemory raw slice) :=
  inferInstanceAs (Decidable (_ ∨ _))

theorem Readable.extend (h : Readable raw) (hmem : HasMemory raw slice) :
    Readable (raw.extend slice) ∧ (raw.extend slice).bytes = raw.bytes ++ slice := by
  rcases hmem with rfl | hmem
  · rw [extend_nil, List.append_nil]
    exact ⟨h, rfl⟩
  · have hlength : (overwrite raw.data raw.end_ slice).length = raw.data.length := length_overwrite hmem
    have hlt := h.memory_lt
    refine ⟨⟨Nat.le_trans h.le (Nat.le_add_right _ _), .inr ?_, ?_, ?_⟩, part_overwrite_behind h.le hmem⟩
    · change raw.end_ + slice.length ≤ (overwrite raw.data raw.end_ slice).length
      rw [hlength]
      exact hmem
    · change raw.end_ + slice.length < 2 ^ 64
      omega
    · change (overwrite raw.data raw.end_ slice).length < 2 ^ 64
      rw [hlength]
      exact hlt

theorem Readable.extendFront (h : Readable raw) (hlen : slice.length ≤ raw.begin_)
    (hmem : slice = [] ∨ raw.begin_ ≤ raw.data.length) :
    Readable (raw.extendFront slice) ∧ (raw.extendFront slice).bytes = slice ++ raw.bytes := by
  rcases hmem with rfl | hmem
  · rw [extendFront_nil]
    exact ⟨h, rfl⟩
  · have hle := h.le
    have hinside : raw.end_ ≤ raw.data.length := by
      rcases h.inside with heq | hinside
      · omega
      · exact hinside
    have hback : raw.begin_ - slice.length + slice.length = raw.begin_ := Nat.sub_add_cancel hlen
    have hlength : (overwrite raw.data (raw.begin_ - slice.length) slice).length = raw.data.length :=
      length_overwrite (by omega)
    have hbytes : part (overwrite raw.data (raw.begin_ - slice.length) slice) (raw.begin_ - slice.length) raw.end_ =
        slice ++ part raw.data (raw.begin_ - slice.length + slice.length) raw.end_ :=
      part_overwrite_before (by omega) hinside
    rw [hback] at hbytes
    refine ⟨⟨Nat.le_trans (Nat.sub_le _ _) hle, .inr ?_, h.end_lt, ?_⟩, hbytes⟩
    · change raw.end_ ≤ (overwrite raw.data (raw.begin_ - slice.length) slice).length
      rw [hlength]
      exact hinside
    · change (overwrite raw.data (raw.begin_ - slice.length) slice).length < 2 ^ 64
      rw [hlength]
      exact h.memory_lt

/-- Where there is room, it is in the memory. -/
theorem Sound.extend (h : Sound raw) (hfits : raw.end_ + slice.length ≤ raw.dataSize) :
    raw.HasMemory slice ∧ Sound (raw.extend slice) := by
  have hdata := h.dataSize_le
  have hmem : raw.HasMemory slice := .inr (by omega)
  refine ⟨hmem, (h.readable.extend hmem).1, hfits, ?_, h.unread⟩
  change raw.dataSize ≤ (overwrite raw.data raw.end_ slice).length
  rw [length_overwrite (by omega)]
  exact hdata

theorem Sound.extendFront (h : Sound raw) (hlen : slice.length ≤ raw.begin_) :
    raw.begin_ ≤ raw.data.length ∧ Sound (raw.extendFront slice) := by
  have hle := h.readable.le
  have hend := h.end_le
  have hdata := h.dataSize_le
  have hmem : raw.begin_ ≤ raw.data.length := by omega
  refine ⟨hmem, (h.readable.extendFront hlen (.inr hmem)).1, hend, ?_, h.unread⟩
  change raw.dataSize ≤ (overwrite raw.data (raw.begin_ - slice.length) slice).length
  rw [length_overwrite (by omega)]
  exact hdata

/-- The room behind the bytes, as it is computed. -/
theorem Sound.room_eq (h : Sound raw) : Word.sub 64 raw.dataSize raw.end_ = raw.dataSize - raw.end_ :=
  Word.sub_of_le h.end_le (Nat.lt_of_le_of_lt h.dataSize_le h.readable.memory_lt)

end Raw

namespace BufferWriter

variable {raw : Raw} {slice : List UInt8} {n : ℕ}

/-- Copying to where there is room, or not. -/
theorem copyFrom_eq (raw : Raw) (begin_ : ℕ) (hn : slice.length ≤ n) : copyFrom (some raw) ⟨begin_, n⟩ slice =
    if slice = [] ∨ begin_ + slice.length ≤ raw.data.length then
      some (some { raw with data := overwrite raw.data begin_ slice }) else none := by
  unfold copyFrom
  dsimp only
  rw [if_neg (Nat.not_lt.mpr hn)]
  by_cases hnil : slice = []
  · rw [if_pos hnil, if_pos (.inl hnil), hnil, overwrite_nil]
  · rw [if_neg hnil]
    by_cases hmem : begin_ + slice.length ≤ raw.data.length
    · rw [if_pos hmem, if_pos (.inr hmem)]
    · rw [if_neg hmem, if_neg (not_or.mpr ⟨hnil, hmem⟩)]

/-- What copying behind `end_` and confirming it does. -/
theorem copy_append (h : raw.Readable) (hn : slice.length ≤ n) :
    (copyFrom (some raw) ⟨raw.end_, n⟩ slice).bind (fun w => confirmAppend w slice.length) =
      if raw.HasMemory slice ∧ raw.end_ + slice.length ≤ raw.dataSize then some (some (raw.extend slice))
      else none := by
  rw [copyFrom_eq raw raw.end_ hn]
  by_cases hmem : raw.HasMemory slice
  · have hsum : Word.add 64 raw.end_ slice.length = raw.end_ + slice.length := by
      refine Word.add_of_lt ?_
      have hend := h.end_lt
      have hmemory := h.memory_lt
      rcases hmem with rfl | hmem
      · exact hend
      · omega
    unfold Raw.HasMemory at hmem
    rw [if_pos hmem, Option.bind_some]
    unfold confirmAppend
    dsimp only
    rw [hsum]
    by_cases hfits : raw.end_ + slice.length ≤ raw.dataSize
    · rw [if_pos hfits, if_pos ⟨hmem, hfits⟩]
      rfl
    · rw [if_neg hfits, if_neg fun hand => hfits hand.2]
  · unfold Raw.HasMemory at hmem
    rw [if_neg hmem, if_neg fun hand => hmem hand.1, Option.bind_none]

/-- What copying in front of `begin_` and confirming it does. -/
theorem copy_prepend (raw : Raw) (hlen : slice.length ≤ raw.begin_) (hn : slice.length ≤ n) :
    (copyFrom (some raw) ⟨raw.begin_ - slice.length, n⟩ slice).bind (fun w => confirmPrepend w slice.length) =
      if slice = [] ∨ raw.begin_ ≤ raw.data.length then some (some (raw.extendFront slice)) else none := by
  rw [copyFrom_eq raw _ hn, Nat.sub_add_cancel hlen]
  by_cases hmem : slice = [] ∨ raw.begin_ ≤ raw.data.length
  · rw [if_pos hmem, if_pos hmem, Option.bind_some]
    unfold confirmPrepend
    dsimp only
    rw [if_pos hlen]
    rfl
  · rw [if_neg hmem, if_neg hmem, Option.bind_none]

/-- With no buffer only nothing can be copied. -/
theorem copyFrom_none_eq {dest : MutableSlice} {w : BufferWriter} (h : copyFrom none dest slice = some w) :
    slice = [] ∧ w = none := by
  unfold copyFrom at h
  split_ifs at h with hsize hnil
  exact ⟨hnil, (Option.some.inj h).symm⟩

def bytes : BufferWriter → List UInt8
  | none => []
  | some raw => raw.bytes

/-- Every buffer there is can be read. -/
def Readable (w : BufferWriter) : Prop := ∀ raw, w = some raw → raw.Readable

def Sound (w : BufferWriter) : Prop := ∀ raw, w = some raw → raw.Sound

variable {w w' : BufferWriter} {dest : MutableSlice}

theorem Sound.readable (h : Sound w) : Readable w := fun raw hraw => (h raw hraw).readable

theorem readable_some (h : raw.Readable) : Readable (some raw) := fun _ heq => Option.some.inj heq ▸ h

theorem sound_some (h : raw.Sound) : Sound (some raw) := fun _ heq => Option.some.inj heq ▸ h

theorem readable_none : Readable none := fun _ heq => by cases heq

theorem preparePrepend_some_eq (h : preparePrepend (some raw) = some dest) :
    raw.wasReader = false ∧ dest = ⟨0, raw.begin_⟩ := by
  change (if raw.wasReader then none else some ⟨0, raw.begin_⟩) = some dest at h
  split_ifs at h with hread
  exact ⟨Bool.eq_false_iff.mpr hread, (Option.some.inj h).symm⟩

/-- What is copied behind the bytes stands behind them. -/
theorem Readable.append (h : Readable w) (hn : slice.length ≤ n)
    (hcopy : (w.copyFrom ⟨w.prepareAppend.begin_, n⟩ slice).bind (fun w => w.confirmAppend slice.length) = some w') :
    Readable w' ∧ w'.bytes = w.bytes ++ slice := by
  cases w with
  | none =>
    obtain ⟨w₁, hfrom, hconfirm⟩ := Option.bind_eq_some_iff.mp hcopy
    obtain ⟨rfl, rfl⟩ := copyFrom_none_eq hfrom
    obtain rfl := Option.some.inj hconfirm
    exact ⟨readable_none, rfl⟩
  | some raw =>
    have hraw := h raw rfl
    unfold prepareAppend at hcopy
    rw [copy_append hraw hn] at hcopy
    split_ifs at hcopy with hroom
    obtain rfl := Option.some.inj hcopy
    obtain ⟨hreadable, hbytes⟩ := hraw.extend hroom.1
    exact ⟨readable_some hreadable, hbytes⟩

theorem Readable.prepend (h : Readable w) (hdest : w.preparePrepend = some dest) (hlen : slice.length ≤ dest.size)
    (hn : slice.length ≤ n)
    (hcopy : (w.copyFrom ⟨dest.begin_ + (dest.size - slice.length), n⟩ slice).bind
      (fun w => w.confirmPrepend slice.length) = some w') :
    Readable w' ∧ w'.bytes = slice ++ w.bytes := by
  cases w with
  | none =>
    obtain ⟨w₁, hfrom, hconfirm⟩ := Option.bind_eq_some_iff.mp hcopy
    obtain ⟨rfl, rfl⟩ := copyFrom_none_eq hfrom
    obtain rfl := Option.some.inj hconfirm
    exact ⟨readable_none, rfl⟩
  | some raw =>
    obtain ⟨-, rfl⟩ := preparePrepend_some_eq hdest
    dsimp only at hlen hcopy
    rw [Nat.zero_add, copy_prepend raw hlen hn] at hcopy
    split_ifs at hcopy with hmem
    obtain rfl := Option.some.inj hcopy
    obtain ⟨hreadable, hbytes⟩ := (h raw rfl).extendFront hlen hmem
    exact ⟨readable_some hreadable, hbytes⟩

theorem Sound.append (h : Sound w) (hroom : slice.length ≤ w.prepareAppend.size) (hn : slice.length ≤ n) :
    ∃ w', (w.copyFrom ⟨w.prepareAppend.begin_, n⟩ slice).bind (fun w => w.confirmAppend slice.length) = some w' ∧
      Sound w' := by
  cases w with
  | none =>
    obtain rfl := List.length_eq_zero_iff.mp (Nat.le_zero.mp hroom)
    exact ⟨none, rfl, h⟩
  | some raw =>
    have hraw := h raw rfl
    have hend := hraw.end_le
    unfold prepareAppend at hroom
    dsimp only at hroom
    rw [hraw.room_eq] at hroom
    have hfits : raw.end_ + slice.length ≤ raw.dataSize := by omega
    obtain ⟨hmem, hsound⟩ := hraw.extend hfits
    refine ⟨some (raw.extend slice), ?_, sound_some hsound⟩
    unfold prepareAppend
    rw [copy_append hraw.readable hn, if_pos ⟨hmem, hfits⟩]

theorem Sound.preparePrepend (h : Sound w) : ∃ dest, w.preparePrepend = some dest := by
  cases w with
  | none => exact ⟨_, rfl⟩
  | some raw =>
    refine ⟨_, if_neg ?_⟩
    rw [(h raw rfl).unread]
    exact Bool.false_ne_true

theorem Sound.prepend (h : Sound w) (hdest : w.preparePrepend = some dest) (hlen : slice.length ≤ dest.size)
    (hn : slice.length ≤ n) :
    ∃ w', (w.copyFrom ⟨dest.begin_ + (dest.size - slice.length), n⟩ slice).bind
      (fun w => w.confirmPrepend slice.length) = some w' ∧ Sound w' := by
  cases w with
  | none =>
    obtain rfl := Option.some.inj hdest
    obtain rfl := List.length_eq_zero_iff.mp (Nat.le_zero.mp hlen)
    exact ⟨none, rfl, h⟩
  | some raw =>
    obtain ⟨-, rfl⟩ := preparePrepend_some_eq hdest
    dsimp only at hlen ⊢
    obtain ⟨hmem, hsound⟩ := (h raw rfl).extendFront hlen
    refine ⟨some (raw.extendFront slice), ?_, sound_some hsound⟩
    rw [Nat.zero_add, copy_prepend raw hlen hn, if_pos (.inr hmem)]

end BufferWriter

/-! ### Edits -/

variable {b b' : BufferBuilder} {slice : List UInt8} {done : Bool} {e : Edit}

/-- What the lists and the buffer hold. -/
def contents (b : BufferBuilder) : List UInt8 :=
  b.toPrepend.reverse.flatten ++ b.bufferWriter.bytes ++ b.toAppend.flatten

theorem removeSuffix_eq {dest : MutableSlice} (h : slice.length ≤ dest.size) :
    dest.removeSuffix (dest.size - slice.length) = some ⟨dest.begin_, slice.length⟩ := by
  unfold MutableSlice.removeSuffix
  rw [if_pos (Nat.sub_le _ _), Nat.sub_sub_self h]

theorem removePrefix_eq {dest : MutableSlice} (h : slice.length ≤ dest.size) :
    dest.removePrefix (dest.size - slice.length) =
      some ⟨dest.begin_ + (dest.size - slice.length), slice.length⟩ := by
  unfold MutableSlice.removePrefix
  rw [if_pos (Nat.sub_le _ _), Nat.sub_sub_self h]

/-- Either nothing is done, or the bytes are in place. -/
theorem appendInplace_inv (h : b.appendInplace slice = some (b', done)) :
    (done = false ∧ b' = b) ∨ (done = true ∧ b.toAppend = [] ∧
      ∃ w', (b.bufferWriter.copyFrom ⟨b.bufferWriter.prepareAppend.begin_, slice.length⟩ slice).bind
        (fun w => w.confirmAppend slice.length) = some w' ∧ b' = { b with bufferWriter := w' }) := by
  unfold appendInplace at h
  by_cases hlist : b.toAppend = []
  · rw [if_neg (not_not.mpr hlist)] at h
    by_cases hsize : b.bufferWriter.prepareAppend.size < slice.length
    · rw [if_pos hsize] at h
      cases h
      exact .inl ⟨rfl, rfl⟩
    · rw [if_neg hsize] at h
      simp only [Option.bind_eq_bind, removeSuffix_eq (Nat.not_lt.mp hsize), Option.bind_some] at h
      obtain ⟨w, hfrom, h⟩ := Option.bind_eq_some_iff.mp h
      obtain ⟨w', hconfirm, h⟩ := Option.bind_eq_some_iff.mp h
      cases h
      exact .inr ⟨rfl, hlist, w', Option.bind_eq_some_iff.mpr ⟨w, hfrom, hconfirm⟩, rfl⟩
  · rw [if_pos hlist] at h
    cases h
    exact .inl ⟨rfl, rfl⟩

theorem prependInplace_inv (h : b.prependInplace slice = some (b', done)) :
    (done = false ∧ b' = b) ∨ (done = true ∧ b.toPrepend = [] ∧
      ∃ dest w', b.bufferWriter.preparePrepend = some dest ∧ slice.length ≤ dest.size ∧
        (b.bufferWriter.copyFrom ⟨dest.begin_ + (dest.size - slice.length), slice.length⟩ slice).bind
          (fun w => w.confirmPrepend slice.length) = some w' ∧ b' = { b with bufferWriter := w' }) := by
  unfold prependInplace at h
  by_cases hlist : b.toPrepend = []
  · rw [if_neg (not_not.mpr hlist)] at h
    obtain ⟨dest, hdest, h⟩ := Option.bind_eq_some_iff.mp h
    by_cases hsize : dest.size < slice.length
    · rw [if_pos hsize] at h
      cases h
      exact .inl ⟨rfl, rfl⟩
    · rw [if_neg hsize] at h
      simp only [Option.bind_eq_bind, removePrefix_eq (Nat.not_lt.mp hsize), Option.bind_some] at h
      obtain ⟨w, hfrom, h⟩ := Option.bind_eq_some_iff.mp h
      obtain ⟨w', hconfirm, h⟩ := Option.bind_eq_some_iff.mp h
      cases h
      exact .inr ⟨rfl, hlist, dest, w', hdest, Nat.not_lt.mp hsize,
        Option.bind_eq_some_iff.mpr ⟨w, hfrom, hconfirm⟩, rfl⟩
  · rw [if_pos hlist] at h
    cases h
    exact .inl ⟨rfl, rfl⟩

theorem toBufferSlice_eq {piece : Piece} (h : piece.toBufferSlice = some slice) : slice = piece.bytes := by
  cases piece with
  | slice bytes =>
    change (if bytes.length ≤ 2 ^ 64 - 40 then some bytes else none) = some slice at h
    split_ifs at h
    exact (Option.some.inj h).symm
  | bufferSlice bytes => exact (Option.some.inj h).symm

/-- Whatever is appended comes behind the contents. -/
theorem append_contents {piece : Piece} (hb : b.bufferWriter.Readable) (h : b.append piece = some b') :
    b'.bufferWriter.Readable ∧ b'.contents = b.contents ++ piece.bytes := by
  obtain ⟨⟨b₁, done⟩, hinplace, hrest⟩ := Option.bind_eq_some_iff.mp h
  rcases appendInplace_inv hinplace with ⟨rfl, rfl⟩ | ⟨rfl, hlist, w', hcopy, rfl⟩
  · obtain ⟨slice, hslice, heq⟩ := Option.bind_eq_some_iff.mp hrest
    obtain rfl := Option.some.inj heq
    obtain rfl := toBufferSlice_eq hslice
    refine ⟨hb, ?_⟩
    unfold contents
    rw [List.flatten_append, List.flatten_singleton, List.append_assoc _ _ piece.bytes]
  · obtain rfl := Option.some.inj hrest
    obtain ⟨hreadable, hbytes⟩ := hb.append (Nat.le_refl _) hcopy
    refine ⟨hreadable, ?_⟩
    unfold contents
    dsimp only
    rw [hlist, hbytes, List.flatten_nil, List.append_nil, List.append_nil, List.append_assoc]

/-- Whatever is prepended comes in front of the contents. -/
theorem prepend_contents {piece : Piece} (hb : b.bufferWriter.Readable) (h : b.prepend piece = some b') :
    b'.bufferWriter.Readable ∧ b'.contents = piece.bytes ++ b.contents := by
  obtain ⟨⟨b₁, done⟩, hinplace, hrest⟩ := Option.bind_eq_some_iff.mp h
  rcases prependInplace_inv hinplace with ⟨rfl, rfl⟩ | ⟨rfl, hlist, dest, w', hdest, hlen, hcopy, rfl⟩
  · obtain ⟨slice, hslice, heq⟩ := Option.bind_eq_some_iff.mp hrest
    obtain rfl := Option.some.inj heq
    obtain rfl := toBufferSlice_eq hslice
    refine ⟨hb, ?_⟩
    unfold contents
    rw [List.reverse_concat, List.flatten_cons, List.append_assoc, List.append_assoc, List.append_assoc]
  · obtain rfl := Option.some.inj hrest
    obtain ⟨hreadable, hbytes⟩ := hb.prepend hdest hlen (Nat.le_refl _) hcopy
    refine ⟨hreadable, ?_⟩
    unfold contents
    dsimp only
    rw [hlist, hbytes, List.reverse_nil, List.flatten_nil, List.nil_append, List.nil_append, List.append_assoc]

/-- The prepended pieces from the last to the first, what was there, and the appended pieces. -/
def expected (initial : List UInt8) (edits : List Edit) : List UInt8 :=
  (edits.filterMap Edit.prepended).reverse.flatten ++ initial ++ (edits.filterMap Edit.appended).flatten

theorem expected_nil (initial : List UInt8) : expected initial [] = initial := List.append_nil _

theorem expected_append (initial : List UInt8) (piece : Piece) (edits : List Edit) :
    expected initial (.append piece :: edits) = expected (initial ++ piece.bytes) edits := by
  have happended : (Edit.append piece :: edits).filterMap Edit.appended =
      piece.bytes :: edits.filterMap Edit.appended := List.filterMap_cons_some rfl
  have hprepended : (Edit.append piece :: edits).filterMap Edit.prepended = edits.filterMap Edit.prepended :=
    List.filterMap_cons_none rfl
  unfold expected
  rw [happended, hprepended, List.flatten_cons]
  simp only [List.append_assoc]

theorem expected_prepend (initial : List UInt8) (piece : Piece) (edits : List Edit) :
    expected initial (.prepend piece :: edits) = expected (piece.bytes ++ initial) edits := by
  have hprepended : (Edit.prepend piece :: edits).filterMap Edit.prepended =
      piece.bytes :: edits.filterMap Edit.prepended := List.filterMap_cons_some rfl
  have happended : (Edit.prepend piece :: edits).filterMap Edit.appended = edits.filterMap Edit.appended :=
    List.filterMap_cons_none rfl
  unfold expected
  rw [happended, hprepended, List.reverse_cons, List.flatten_append, List.flatten_singleton]
  simp only [List.append_assoc]

/-- Edits one after another. -/
def edits (b : BufferBuilder) (es : List Edit) : Option BufferBuilder := es.foldlM edit b

theorem edits_cons (b : BufferBuilder) (e : Edit) (es : List Edit) :
    b.edits (e :: es) = (b.edit e).bind fun b => b.edits es := rfl

/-- Edits that go through leave the contents that are expected of them. -/
theorem edits_contents : ∀ {es : List Edit} {b b' : BufferBuilder}, b.bufferWriter.Readable → b.edits es = some b' →
    b'.bufferWriter.Readable ∧ b'.contents = expected b.contents es
  | [], b, b', hb, h => by
    obtain rfl := Option.some.inj h
    exact ⟨hb, (expected_nil _).symm⟩
  | e :: es, b, b', hb, h => by
    rw [edits_cons] at h
    obtain ⟨b₁, hfirst, hrest⟩ := Option.bind_eq_some_iff.mp h
    cases e with
    | append piece =>
      obtain ⟨hb₁, hcontents⟩ := append_contents hb hfirst
      rw [expected_append, ← hcontents]
      exact edits_contents hb₁ hrest
    | prepend piece =>
      obtain ⟨hb₁, hcontents⟩ := prepend_contents hb hfirst
      rw [expected_prepend, ← hcontents]
      exact edits_contents hb₁ hrest

theorem toBufferSlice_of_le {piece : Piece} (h : piece.bytes.length ≤ 2 ^ 64 - 40) :
    piece.toBufferSlice = some piece.bytes := by
  cases piece with
  | slice bytes => exact if_pos h
  | bufferSlice bytes => rfl

/-- In a sound buffer there is always a place. -/
theorem append_sound {piece : Piece} (hb : b.bufferWriter.Sound) (hpiece : piece.bytes.length ≤ 2 ^ 64 - 40) :
    ∃ b', b.append piece = some b' ∧ b'.bufferWriter.Sound := by
  have hslow : ∃ b', (piece.toBufferSlice.bind fun slice => some { b with toAppend := b.toAppend ++ [slice] }) =
      some b' ∧ b'.bufferWriter.Sound := by
    rw [toBufferSlice_of_le hpiece]
    exact ⟨_, rfl, hb⟩
  unfold append appendInplace
  by_cases hlist : b.toAppend = []
  · rw [if_neg (not_not.mpr hlist)]
    by_cases hsize : b.bufferWriter.prepareAppend.size < piece.bytes.length
    · rw [if_pos hsize]
      exact hslow
    · obtain ⟨w', hcopy, hsound⟩ := hb.append (Nat.not_lt.mp hsize) (Nat.le_refl piece.bytes.length)
      obtain ⟨w, hfrom, hconfirm⟩ := Option.bind_eq_some_iff.mp hcopy
      rw [if_neg hsize]
      simp only [Option.bind_eq_bind, removeSuffix_eq (Nat.not_lt.mp hsize), Option.bind_some, hfrom, hconfirm]
      exact ⟨_, rfl, hsound⟩
  · rw [if_pos hlist]
    exact hslow

theorem prepend_sound {piece : Piece} (hb : b.bufferWriter.Sound) (hpiece : piece.bytes.length ≤ 2 ^ 64 - 40) :
    ∃ b', b.prepend piece = some b' ∧ b'.bufferWriter.Sound := by
  have hslow : ∃ b', (piece.toBufferSlice.bind fun slice => some { b with toPrepend := b.toPrepend ++ [slice] }) =
      some b' ∧ b'.bufferWriter.Sound := by
    rw [toBufferSlice_of_le hpiece]
    exact ⟨_, rfl, hb⟩
  unfold prepend prependInplace
  by_cases hlist : b.toPrepend = []
  · obtain ⟨dest, hdest⟩ := hb.preparePrepend
    rw [if_neg (not_not.mpr hlist), hdest]
    simp only [Option.bind_eq_bind, Option.bind_some]
    by_cases hsize : dest.size < piece.bytes.length
    · rw [if_pos hsize]
      exact hslow
    · obtain ⟨w', hcopy, hsound⟩ := hb.prepend hdest (Nat.not_lt.mp hsize) (Nat.le_refl piece.bytes.length)
      obtain ⟨w, hfrom, hconfirm⟩ := Option.bind_eq_some_iff.mp hcopy
      rw [if_neg hsize]
      simp only [removePrefix_eq (Nat.not_lt.mp hsize), Option.bind_some, hfrom, hconfirm]
      exact ⟨_, rfl, hsound⟩
  · rw [if_pos hlist]
    exact hslow

/-- All edits go through. -/
theorem edits_sound : ∀ (es : List Edit) {b : BufferBuilder}, b.bufferWriter.Sound →
    (∀ e ∈ es, e.piece.bytes.length ≤ 2 ^ 64 - 40) → ∃ b', b.edits es = some b' ∧ b'.bufferWriter.Sound
  | [], b, hb, _ => ⟨b, rfl, hb⟩
  | e :: es, b, hb, hpieces => by
    have hfirst : ∃ b', b.edit e = some b' ∧ b'.bufferWriter.Sound := by
      have hpiece := hpieces e List.mem_cons_self
      cases e with
      | append piece => exact append_sound hb hpiece
      | prepend piece => exact prepend_sound hb hpiece
    obtain ⟨b₁, hb₁, hsound⟩ := hfirst
    obtain ⟨b', hb', hsound'⟩ := edits_sound es hsound fun e he => hpieces e (List.mem_cons_of_mem _ he)
    exact ⟨b', Option.bind_eq_some_iff.mpr ⟨b₁, hb₁, hb'⟩, hsound'⟩

end BufferBuilder

end TdUtils
