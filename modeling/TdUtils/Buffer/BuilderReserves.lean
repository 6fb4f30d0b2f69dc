import TdUtils.Buffer.BuilderExtract

/-!
# Buffer.BuilderReserves — a builder with reserves around its first slice

The size of the buffer is the sum of the slice and its reserves, as a `size_t`.  Where this sum does not wrap too far
(`ReservesFit`), appending and prepending give what is expected, whatever is copied in place and whatever goes to a
list; where it does, there are a few bytes that are written outside of the buffer.
-/

namespace TdUtils

open Lib

namespace BufferBuilder

/-- `data_size_` of the buffer of a slice and its reserves. -/
def reservedSize (size prependSize appendSize : ℕ) : ℕ :=
  BufferRaw.roundUp (max 512 ((size + prependSize + appendSize) % 2 ^ 64))

/-- The slice and the reserve in front of it are in the buffer, whose size with its header does not wrap. -/
def ReservesFit (size prependSize appendSize : ℕ) : Prop :=
  prependSize + size ≤ reservedSize size prependSize appendSize ∧
    32 + reservedSize size prependSize appendSize < 2 ^ 64

/-- After the edits `for_each` and `size()` describe what is expected, and `extract` returns it. -/
def Delivers (slice : List UInt8) (prependSize appendSize : UInt64) (es : List Edit) : Prop :=
  ∃ b₀ b b' slices, ofSlice slice prependSize.toNat appendSize.toNat = some b₀ ∧ b₀.edits es = some b ∧
    b.forEach = some slices ∧ slices.flatten = expected slice es ∧ b.size = some (expected slice es).length ∧
    b.extract = some (b', expected slice es)

variable {b b' : BufferBuilder} {slice : List UInt8} {size prependSize appendSize : ℕ}

theorem dataSize_eq_reservedSize (size prependSize appendSize : ℕ) :
    (createWriter size prependSize appendSize).dataSize = reservedSize size prependSize appendSize := by
  have hsum : Word.add 64 (Word.add 64 size prependSize) appendSize = (size + prependSize + appendSize) % 2 ^ 64 := by
    unfold Word.add
    rw [Nat.mod_add_mod]
  unfold createWriter reservedSize
  dsimp only
  rw [hsum]
  congr 1
  split_ifs <;> omega

theorem reservedSize_lt (size prependSize appendSize : ℕ) : reservedSize size prependSize appendSize < 2 ^ 64 := by
  unfold reservedSize BufferRaw.roundUp
  omega

theorem dvd_reservedSize (size prependSize appendSize : ℕ) : 8 ∣ reservedSize size prependSize appendSize :=
  Nat.dvd_mul_left 8 _

/-! ### The buffer stays -/

/-- The memory of the buffer, if there is one. -/
def BufferWriter.memory (w : BufferWriter) : Option ℕ := w.map fun raw => raw.data.length

theorem copyFrom_memory {w w' : BufferWriter} {dest : MutableSlice} (h : w.copyFrom dest slice = some w') :
    w'.memory = w.memory := by
  unfold BufferWriter.copyFrom at h
  split_ifs at h with hsize hnil
  · obtain rfl := Option.some.inj h
    rfl
  · cases w with
    | none => cases h
    | some raw =>
      dsimp only at h
      split_ifs at h with hmem
      obtain rfl := Option.some.inj h
      exact congrArg some (length_overwrite hmem)

theorem confirmAppend_memory {w w' : BufferWriter} {n : ℕ} (h : w.confirmAppend n = some w') :
    w'.memory = w.memory := by
  cases w with
  | none =>
    change (if n = 0 then some none else none) = some w' at h
    split_ifs at h
    obtain rfl := Option.some.inj h
    rfl
  | some raw =>
    unfold BufferWriter.confirmAppend at h
    dsimp only at h
    split_ifs at h
    obtain rfl := Option.some.inj h
    rfl

theorem confirmPrepend_memory {w w' : BufferWriter} {n : ℕ} (h : w.confirmPrepend n = some w') :
    w'.memory = w.memory := by
  cases w with
  | none =>
    change (if n = 0 then some none else none) = some w' at h
    split_ifs at h
    obtain rfl := Option.some.inj h
    rfl
  | some raw =>
    unfold BufferWriter.confirmPrepend at h
    dsimp only at h
    split_ifs at h
    obtain rfl := Option.some.inj h
    rfl

theorem edit_memory {e : Edit} (h : b.edit e = some b') : b'.bufferWriter.memory = b.bufferWriter.memory := by
  cases e with
  | append piece =>
    obtain ⟨⟨b₁, done⟩, hinplace, hrest⟩ := Option.bind_eq_some_iff.mp h
    rcases appendInplace_inv hinplace with ⟨rfl, rfl⟩ | ⟨rfl, -, w', hcopy, rfl⟩
    · obtain ⟨slice, -, heq⟩ := Option.bind_eq_some_iff.mp hrest
      obtain rfl := Option.some.inj heq
      rfl
    · obtain rfl := Option.some.inj hrest
      obtain ⟨w, hfrom, hconfirm⟩ := Option.bind_eq_some_iff.mp hcopy
      exact (confirmAppend_memory hconfirm).trans (copyFrom_memory hfrom)
  | prepend piece =>
    obtain ⟨⟨b₁, done⟩, hinplace, hrest⟩ := Option.bind_eq_some_iff.mp h
    rcases prependInplace_inv hinplace with ⟨rfl, rfl⟩ | ⟨rfl, -, dest, w', -, -, hcopy, rfl⟩
    · obtain ⟨slice, -, heq⟩ := Option.bind_eq_some_iff.mp hrest
      obtain rfl := Option.some.inj heq
      rfl
    · obtain rfl := Option.some.inj hrest
      obtain ⟨w, hfrom, hconfirm⟩ := Option.bind_eq_some_iff.mp hcopy
      exact (confirmPrepend_memory hconfirm).trans (copyFrom_memory hfrom)

theorem edits_memory : ∀ {es : List Edit} {b b' : BufferBuilder}, b.edits es = some b' →
    b'.bufferWriter.memory = b.bufferWriter.memory
  | [], b, b', h => by
    obtain rfl := Option.some.inj h
    rfl
  | e :: es, b, b', h => by
    rw [edits_cons] at h
    obtain ⟨b₁, hfirst, hrest⟩ := Option.bind_eq_some_iff.mp h
    exact (edits_memory hrest).trans (edit_memory hfirst)

/-! ### Reserves that fit -/

theorem le_length_expected : ∀ (es : List Edit) (initial : List UInt8),
    initial.length ≤ (expected initial es).length ∧ ∀ e ∈ es, e.piece.bytes.length ≤ (expected initial es).length
  | [], initial => by
    rw [expected_nil]
    exact ⟨Nat.le_refl _, fun e he => absurd he List.not_mem_nil⟩
  | .append piece :: es, initial => by
    obtain ⟨hle, hall⟩ := le_length_expected es (initial ++ piece.bytes)
    rw [expected_append]
    rw [List.length_append] at hle
    refine ⟨by omega, List.forall_mem_cons.mpr ⟨?_, hall⟩⟩
    change piece.bytes.length ≤ _
    omega
  | .prepend piece :: es, initial => by
    obtain ⟨hle, hall⟩ := le_length_expected es (piece.bytes ++ initial)
    rw [expected_prepend]
    rw [List.length_append] at hle
    refine ⟨by omega, List.forall_mem_cons.mpr ⟨?_, hall⟩⟩
    change piece.bytes.length ≤ _
    omega

/-- The builder starts with a sound buffer that holds the slice. -/
theorem ofSlice_sound (hfit : ReservesFit slice.length prependSize appendSize) :
    ∃ b raw, ofSlice slice prependSize appendSize = some b ∧ b.bufferWriter = some raw ∧ raw.Sound ∧
      b.contents = slice ∧ raw.data.length ≤ 2 ^ 64 - 40 := by
  obtain ⟨hle, hlt⟩ := hfit
  have hdataSize := dataSize_eq_reservedSize slice.length prependSize appendSize
  have hlength := length_createWriter slice.length prependSize appendSize
  rw [hdataSize, BufferRaw.memory_of_lt hlt] at hlength
  have hdvd := dvd_reservedSize slice.length prependSize appendSize
  have hbegin : (createWriter slice.length prependSize appendSize).begin_ = prependSize :=
    begin_createWriter _ _ (by omega)
  have hend : (createWriter slice.length prependSize appendSize).end_ = prependSize + slice.length :=
    end_createWriter _ (by omega)
  have hwriter : ∃ w, BufferWriter.ofSlice slice prependSize appendSize = some w := by
    unfold BufferWriter.ofSlice
    dsimp only
    rw [hbegin, hend, Word.sub_of_le (Nat.le_add_right _ _) (by omega), Nat.add_sub_cancel_left,
      BufferWriter.copyFrom_eq _ _ (Nat.le_refl _), hlength, if_pos (.inr (by omega))]
    exact ⟨_, rfl⟩
  obtain ⟨w, hw⟩ := hwriter
  obtain ⟨raw, rfl, hraw, hbytes, -, hend', hread, hsize', hlength', -⟩ := ofSlice_inv (by omega) hw
  refine ⟨⟨some raw, [], []⟩, raw, ?_, rfl, ⟨hraw, ?_, ?_, hread⟩, ?_, ?_⟩
  · unfold ofSlice
    rw [hw]
    rfl
  · rw [hend', hsize', hdataSize]
    exact hle
  · rw [hsize', hlength', hdataSize, hlength]
    exact Nat.le_max_right _ _
  · exact (List.append_nil _).trans hbytes
  · rw [hlength', hlength]
    omega

/-- With reserves that fit, exactly the contents that fit into a buffer are delivered. -/
theorem delivers_of_fit {prependSize appendSize : UInt64}
    (hfit : ReservesFit slice.length prependSize.toNat appendSize.toNat) (es : List Edit) :
    Delivers slice prependSize appendSize es ↔ (expected slice es).length ≤ 2 ^ 64 - 40 := by
  obtain ⟨b₀, raw, hb₀, hwriter, hsound, hcontents₀, hmemory⟩ := ofSlice_sound hfit
  have hsound₀ : b₀.bufferWriter.Sound := by
    rw [hwriter]
    exact BufferWriter.sound_some hsound
  constructor
  · rintro ⟨b₁, b, b', slices, hb₁, hedits, -, -, -, hextract⟩
    obtain rfl := Option.some.inj (hb₀.symm.trans hb₁)
    obtain ⟨hreadable, hcontents⟩ := edits_contents hsound₀.readable hedits
    rw [hcontents₀] at hcontents
    rw [← hcontents]
    by_cases hlists : b.toAppend = [] ∧ b.toPrepend = []
    · have hbuffer := edits_memory hedits
      rw [hwriter] at hbuffer
      obtain ⟨raw', hraw', hlength⟩ := Option.map_eq_some_iff.mp hbuffer
      have hbytes : b.contents = raw'.bytes := by
        unfold contents
        rw [hlists.1, hlists.2, hraw', List.reverse_nil, List.flatten_nil, List.nil_append, List.append_nil]
        rfl
      have hle : raw'.bytes.length ≤ raw'.data.length := by
        unfold Raw.bytes part
        rw [List.length_take, List.length_drop]
        omega
      dsimp only at hlength
      rw [hbytes]
      omega
    · have hor : b.toAppend ≠ [] ∨ b.toPrepend ≠ [] := Classical.not_and_iff_not_or_not.mp hlists
      rw [extract_lists hreadable hor] at hextract
      by_contra hlarge
      rw [if_neg hlarge] at hextract
      cases hextract
  · intro htotal
    obtain ⟨b, hedits, -⟩ := edits_sound es hsound₀ fun e he =>
      Nat.le_trans ((le_length_expected es slice).2 e he) htotal
    obtain ⟨hreadable, hcontents⟩ := edits_contents hsound₀.readable hedits
    rw [hcontents₀] at hcontents
    obtain ⟨slices, hslices, hflatten⟩ := forEach_eq hreadable
    have hsize := size_eq hreadable
    rw [hcontents, Nat.mod_eq_of_lt (by omega)] at hsize
    have hextract : ∃ b', b.extract = some (b', b.contents) := by
      by_cases hlists : b.toAppend = [] ∧ b.toPrepend = []
      · have hbuffer := edits_memory hedits
        rw [hwriter] at hbuffer
        obtain ⟨raw', hraw', -⟩ := Option.map_eq_some_iff.mp hbuffer
        rw [extract_no_lists hreadable hlists, hraw']
        exact ⟨_, rfl⟩
      · have hor : b.toAppend ≠ [] ∨ b.toPrepend ≠ [] := Classical.not_and_iff_not_or_not.mp hlists
        rw [extract_lists hreadable hor, if_pos (by rw [hcontents]; exact htotal)]
        exact ⟨_, rfl⟩
    obtain ⟨b', hextract⟩ := hextract
    rw [hcontents] at hflatten hextract
    exact ⟨b₀, b, b', slices, hb₀, hedits, hslices, hflatten, hsize, hextract⟩

/-! ### Reserves that do not fit -/

/-- Where the room is larger than the memory, something is written outside of it. -/
theorem append_outside {raw : Raw} {piece : Piece} (hraw : raw.Readable)
    (hroom : piece.bytes.length ≤ Word.sub 64 raw.dataSize raw.end_) (hmem : ¬raw.HasMemory piece.bytes) :
    (ofWriter (some raw)).append piece = none := by
  have hcopy := BufferWriter.copy_append hraw (Nat.le_refl piece.bytes.length)
  rw [if_neg fun hand => hmem hand.1] at hcopy
  have hdest : (BufferWriter.prepareAppend (some raw)).removeSuffix
      ((BufferWriter.prepareAppend (some raw)).size - piece.bytes.length) = some ⟨raw.end_, piece.bytes.length⟩ :=
    removeSuffix_eq hroom
  have hsize : ¬(BufferWriter.prepareAppend (some raw)).size < piece.bytes.length := Nat.not_lt.mpr hroom
  unfold append appendInplace ofWriter
  simp only [ne_eq, not_true_eq_false, if_false, if_neg hsize, Option.bind_eq_bind, hdest, Option.bind_some]
  rw [← Option.bind_assoc, hcopy, Option.bind_none, Option.bind_none]

theorem prepend_outside {raw : Raw} {piece : Piece} (hread : raw.wasReader = false)
    (hroom : piece.bytes.length ≤ raw.begin_) (hne : piece.bytes ≠ []) (hmem : raw.data.length < raw.begin_) :
    (ofWriter (some raw)).prepend piece = none := by
  have hcopy := BufferWriter.copy_prepend raw hroom (Nat.le_refl piece.bytes.length)
  rw [if_neg (not_or.mpr ⟨hne, Nat.not_le.mpr hmem⟩)] at hcopy
  have hprepare : BufferWriter.preparePrepend (some raw) = some ⟨0, raw.begin_⟩ :=
    if_neg fun heq => Bool.false_ne_true (hread.symm.trans heq)
  have hdest : (⟨0, raw.begin_⟩ : MutableSlice).removePrefix (raw.begin_ - piece.bytes.length) =
      some ⟨0 + (raw.begin_ - piece.bytes.length), piece.bytes.length⟩ := removePrefix_eq hroom
  unfold prepend prependInplace ofWriter
  simp only [ne_eq, not_true_eq_false, if_false, hprepare, Option.bind_eq_bind, Option.bind_some,
    if_neg (Nat.not_lt.mpr hroom), hdest, Nat.zero_add]
  rw [← Option.bind_assoc, hcopy, Option.bind_none, Option.bind_none]

/-- A builder that delivers nothing where a single edit fails. -/
theorem not_delivers_of_edit {w : BufferWriter} {prependSize appendSize : UInt64} {e : Edit}
    (hw : BufferWriter.ofSlice slice prependSize.toNat appendSize.toNat = some w) (he : (ofWriter w).edit e = none) :
    ¬Delivers slice prependSize appendSize [e] := by
  rintro ⟨b₀, b, b', slices, hb₀, hedits, -⟩
  unfold ofSlice at hb₀
  rw [hw] at hb₀
  obtain rfl := Option.some.inj hb₀
  rw [edits_cons] at hedits
  obtain ⟨b₁, hb₁, -⟩ := Option.bind_eq_some_iff.mp hedits
  cases he.symm.trans hb₁

/-- A wrapped size leaves 8 bytes of memory, and much more room than that. -/
theorem room_of_not_fit {begin_ end_ : ℕ} (hend : end_ = begin_ + size)
    (hfit : ¬(end_ ≤ reservedSize size prependSize appendSize ∧
      32 + reservedSize size prependSize appendSize < 2 ^ 64))
    (hmem : end_ ≤ BufferRaw.memory (reservedSize size prependSize appendSize)) :
    BufferRaw.memory (reservedSize size prependSize appendSize) = 8 ∧
      17 ≤ Word.sub 64 (reservedSize size prependSize appendSize) end_ := by
  have hlt := reservedSize_lt size prependSize appendSize
  have hdvd := dvd_reservedSize size prependSize appendSize
  generalize reservedSize size prependSize appendSize = dataSize at hfit hmem hlt hdvd ⊢
  by_cases hwrap : 32 + dataSize < 2 ^ 64
  · rw [BufferRaw.memory_of_lt hwrap] at hmem ⊢
    have hzero : dataSize = 0 := by omega
    refine ⟨by omega, ?_⟩
    rw [hzero]
    unfold Word.sub
    omega
  · have height := BufferRaw.memory_of_wrap (Nat.not_lt.mp hwrap) hlt
    rw [height] at hmem ⊢
    refine ⟨rfl, ?_⟩
    rw [Word.sub_of_le (by omega) hlt]
    omega

/-- The reserves fit if and only if, for all edits, exactly the contents that fit into a buffer are delivered. -/
theorem reservesFit_iff_delivers (slice : List UInt8) (prependSize appendSize : UInt64) :
    (slice.length ≤ 2 ^ 64 - 40 ∧ ∀ es : List Edit,
      (Delivers slice prependSize appendSize es ↔ (expected slice es).length ≤ 2 ^ 64 - 40)) ↔
      ReservesFit slice.length prependSize.toNat appendSize.toNat := by
  constructor
  · rintro ⟨hslice, hall⟩
    have hprepend := prependSize.toNat_lt
    have hnil : (expected slice []).length ≤ 2 ^ 64 - 40 := by
      rw [expected_nil]
      exact hslice
    obtain ⟨b₀, b, b', slices, hb₀, -⟩ := (hall []).mpr hnil
    obtain ⟨w, hw, -⟩ := Option.map_eq_some_iff.mp hb₀
    obtain ⟨raw, rfl, hraw, -, hbegin, hend, hread, hsize, hlength, hroom⟩ := ofSlice_inv hprepend hw
    rw [length_createWriter, dataSize_eq_reservedSize] at hlength
    rw [dataSize_eq_reservedSize] at hsize
    by_contra hfit
    by_cases hfront : raw.data.length < raw.begin_
    · -- the front reserve is outside: one byte in front of an empty slice
      have hempty : slice = [] := hroom.resolve_right (by omega)
      have hpos : 1 ≤ raw.begin_ := by omega
      have hout : (ofWriter (some raw)).prepend (.slice [0]) = none :=
        prepend_outside hread hpos (List.cons_ne_nil _ _) hfront
      refine not_delivers_of_edit (e := .prepend (.slice [0])) hw hout ((hall _).mpr ?_)
      rw [hempty]
      decide
    · -- there are 8 bytes of memory, and the room behind the slice is larger
      have hmem : raw.end_ ≤ BufferRaw.memory (reservedSize slice.length prependSize.toNat appendSize.toNat) := by
        rw [← hlength]
        rcases hroom with hempty | hroom
        · rw [hend, hempty, List.length_nil]
          omega
        · omega
      rw [hend] at hmem
      obtain ⟨height, hlarge⟩ := room_of_not_fit rfl hfit hmem
      rw [← hend, ← hsize] at hlarge
      rw [height] at hlength hmem
      have hbytes : (Piece.slice (List.replicate 17 0)).bytes.length = 17 := List.length_replicate
      have hnone : ¬raw.HasMemory (Piece.slice (List.replicate 17 0)).bytes := by
        rintro (hnil | hle)
        · cases hnil
        · omega
      have hout : (ofWriter (some raw)).append (.slice (List.replicate 17 0)) = none :=
        append_outside hraw (by rw [hbytes]; exact hlarge) hnone
      refine not_delivers_of_edit (e := .append (.slice (List.replicate 17 0))) hw hout ((hall _).mpr ?_)
      rw [expected_append, expected_nil, List.length_append, hbytes]
      omega
  · intro hfit
    refine ⟨?_, delivers_of_fit hfit⟩
    obtain ⟨hle, hlt⟩ := hfit
    have hdvd := dvd_reservedSize slice.length prependSize.toNat appendSize.toNat
    omega

/-- A reserve of `2 ^ 64 - 5` bytes in front of 5 bytes: the sum is 0, and the slice is copied behind the buffer. -/
theorem huge_reserve_outside : ¬∀ (slice : List UInt8) (prependSize appendSize : UInt64) (es : List Edit),
    (expected slice es).length ≤ 2 ^ 64 - 40 → Delivers slice prependSize appendSize es := by
  intro hall
  obtain ⟨b₀, b, b', slices, hb₀, -⟩ := hall [1, 2, 3, 4, 5] 0xfffffffffffffffb 0 [] (by decide)
  obtain ⟨w, hw, -⟩ := Option.map_eq_some_iff.mp hb₀
  obtain ⟨raw, -, hraw, -, -, -, -, -, -, hroom⟩ := ofSlice_inv (UInt64.toNat_lt _) hw
  have hmemory := hraw.memory_lt
  have hvalue : (0xfffffffffffffffb : UInt64).toNat = 0xfffffffffffffffb := rfl
  rw [hvalue] at hroom
  rcases hroom with hnil | hle
  · cases hnil
  · change 0xfffffffffffffffb + 5 ≤ raw.data.length at hle
    omega

end BufferBuilder

end TdUtils
