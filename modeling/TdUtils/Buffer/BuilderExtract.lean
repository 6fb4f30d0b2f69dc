import TdUtils.Buffer.BuilderContents

/-!
# Buffer.BuilderExtract — what `extract` returns and leaves behind

With a piece in a list `extract` copies everything into a new buffer, and the builder is as if made by
`BufferBuilder()`.  With no piece in a list it hands out the buffer itself, if there is one: the bytes stay in the
builder, and nothing can be prepended to it any more.
-/

namespace TdUtils

open Lib

namespace BufferBuilder

variable {b b' : BufferBuilder} {raw : Raw} {slice : List UInt8}

/-! ### Size and slices -/

theorem written_eq (h : b.bufferWriter.Readable) :
    ∃ slices, b.written = some slices ∧ slices.flatten = b.bufferWriter.bytes := by
  unfold written
  cases hw : b.bufferWriter with
  | none => exact ⟨[], rfl, rfl⟩
  | some raw =>
    by_cases hempty : raw.begin_ = raw.end_
    · exact ⟨[], if_pos hempty, (Raw.bytes_eq_nil hempty).symm⟩
    · refine ⟨[raw.bytes], ?_, List.flatten_singleton⟩
      dsimp only
      rw [if_neg hempty, (h raw hw).asSlice, Option.map_some]

/-- The slices that `for_each` visits are the contents. -/
theorem forEach_eq (h : b.bufferWriter.Readable) :
    ∃ slices, b.forEach = some slices ∧ slices.flatten = b.contents := by
  obtain ⟨slices, hwritten, hflatten⟩ := written_eq h
  refine ⟨b.toPrepend.reverse ++ slices ++ b.toAppend, ?_, ?_⟩
  · unfold forEach
    rw [hwritten, Option.map_some]
  · unfold contents
    rw [List.flatten_append, List.flatten_append, hflatten]

theorem foldl_size : ∀ (slices : List (List UInt8)) (total : ℕ),
    slices.foldl (fun total slice => Word.add 64 total slice.length) (total % 2 ^ 64) =
      (total + slices.flatten.length) % 2 ^ 64
  | [], total => rfl
  | slice :: slices, total => by
    have hstep : Word.add 64 (total % 2 ^ 64) slice.length = (total + slice.length) % 2 ^ 64 := by
      unfold Word.add
      rw [Nat.mod_add_mod]
    rw [List.foldl_cons, hstep, foldl_size slices, List.flatten_cons, List.length_append, Nat.add_assoc]

theorem size_eq (h : b.bufferWriter.Readable) : b.size = some (b.contents.length % 2 ^ 64) := by
  obtain ⟨slices, hslices, hflatten⟩ := forEach_eq h
  have hfold := foldl_size slices 0
  rw [Nat.zero_add, hflatten, Nat.zero_mod] at hfold
  unfold size
  rw [hslices, Option.map_some, hfold]

/-! ### Copying into a new buffer -/

/-- A slice is copied if the room is as large as it and in the memory. -/
theorem copySlice_eq (h : raw.Readable) (slice : List UInt8) : copySlice (some raw) slice =
    if slice.length ≤ Word.sub 64 raw.dataSize raw.end_ ∧ raw.HasMemory slice ∧ raw.end_ + slice.length ≤ raw.dataSize
    then some (some (raw.extend slice)) else none := by
  have hcopy := BufferWriter.copy_append h (Nat.le_refl slice.length)
  unfold copySlice BufferWriter.prepareAppend MutableSlice.truncate
  simp only [Option.bind_eq_bind]
  rcases Nat.lt_trichotomy slice.length (Word.sub 64 raw.dataSize raw.end_) with hlt | heq | hgt
  · rw [if_pos hlt, hcopy]
    exact if_congr (and_iff_right (Nat.le_of_lt hlt)).symm rfl rfl
  · rw [← heq, if_neg (Nat.lt_irrefl _), hcopy]
    exact if_congr (and_iff_right (Nat.le_refl _)).symm rfl rfl
  · rw [if_neg (Nat.lt_asymm hgt), if_neg fun hand => Nat.not_le.mpr hgt hand.1]
    unfold BufferWriter.copyFrom
    rw [if_pos hgt, Option.bind_none]

/-- Slices that fit into the room are all copied. -/
theorem copySlices_sound : ∀ {slices : List (List UInt8)} {raw : Raw}, raw.Sound →
    raw.end_ + slices.flatten.length ≤ raw.dataSize →
    ∃ raw', slices.foldlM copySlice (some raw) = some (some raw') ∧ raw'.Readable ∧
      raw'.bytes = raw.bytes ++ slices.flatten
  | [], raw, hraw, _ => ⟨raw, rfl, hraw.readable, (List.append_nil _).symm⟩
  | slice :: slices, raw, hraw, hfits => by
    rw [List.flatten_cons, List.length_append] at hfits
    have hroom := hraw.room_eq
    have hfirst : raw.end_ + slice.length ≤ raw.dataSize := by omega
    obtain ⟨hmem, hsound⟩ := hraw.extend hfirst
    have hbytes := (hraw.readable.extend hmem).2
    have hfits' : (raw.extend slice).end_ + slices.flatten.length ≤ (raw.extend slice).dataSize := by
      change raw.end_ + slice.length + slices.flatten.length ≤ raw.dataSize
      omega
    obtain ⟨raw', hrest, hreadable', hbytes'⟩ := copySlices_sound hsound hfits'
    refine ⟨raw', ?_, hreadable', ?_⟩
    · rw [List.foldlM_cons, copySlice_eq hraw.readable, if_pos ⟨by omega, hmem, by omega⟩]
      exact hrest
    · rw [hbytes', hbytes, List.flatten_cons, List.append_assoc]

/-- What is copied is in the memory. -/
theorem copySlices_memory : ∀ {slices : List (List UInt8)} {raw : Raw} {w : BufferWriter}, raw.Readable →
    slices.foldlM copySlice (some raw) = some w →
    slices.flatten = [] ∨ raw.end_ + slices.flatten.length ≤ raw.data.length
  | [], _, _, _, _ => .inl rfl
  | slice :: slices, raw, w, hraw, h => by
    rw [List.foldlM_cons, copySlice_eq hraw] at h
    obtain ⟨w₁, hfirst, hrest⟩ := Option.bind_eq_some_iff.mp h
    split_ifs at hfirst with hroom
    obtain rfl := Option.some.inj hfirst
    have hmem := hroom.2.1
    have hlength : (raw.extend slice).data.length = raw.data.length := by
      rcases hmem with rfl | hmem
      · rw [Raw.extend_nil]
      · exact length_overwrite hmem
    have hrest' := copySlices_memory (hraw.extend hmem).1 hrest
    rw [hlength] at hrest'
    rw [List.flatten_cons]
    rcases hrest' with hnil | hle
    · rw [hnil, List.append_nil]
      exact hmem
    · refine .inr ?_
      change raw.end_ + slice.length + slices.flatten.length ≤ raw.data.length at hle
      rw [List.length_append]
      omega

/-! ### The memory of a new buffer -/

theorem length_createWriter (size prepend append : ℕ) :
    (createWriter size prepend append).data.length = BufferRaw.memory (createWriter size prepend append).dataSize :=
  List.length_replicate

theorem dataSize_createWriter (total : ℕ) : (createWriter 0 0 total).dataSize =
    BufferRaw.roundUp (if total % 2 ^ 64 < 512 then 512 else total % 2 ^ 64) := by
  have hsum : Word.add 64 (Word.add 64 0 0) total = total % 2 ^ 64 := by
    have hzero : Word.add 64 0 0 = 0 := rfl
    unfold Word.add at hzero ⊢
    rw [hzero, Nat.zero_add]
  unfold createWriter
  dsimp only
  rw [hsum]

/-- A new buffer, before anything is copied into it. -/
theorem createWriter_readable (total : ℕ) : (createWriter 0 0 total).Readable :=
  ⟨Nat.le_refl _, .inl rfl, Nat.two_pow_pos 64, by rw [length_createWriter]; exact BufferRaw.memory_lt _⟩

theorem createWriter_sound {total : ℕ} (h : total ≤ 2 ^ 64 - 40) :
    (createWriter 0 0 total).Sound ∧ total ≤ (createWriter 0 0 total).dataSize := by
  have hsize : total ≤ (createWriter 0 0 total).dataSize ∧ 32 + (createWriter 0 0 total).dataSize < 2 ^ 64 := by
    rw [dataSize_createWriter]
    unfold BufferRaw.roundUp
    split_ifs <;> omega
  refine ⟨⟨createWriter_readable total, Nat.zero_le _, ?_, rfl⟩, hsize.1⟩
  rw [length_createWriter, BufferRaw.memory_of_lt hsize.2]
  exact Nat.le_max_right _ _

/-- A buffer has at most this much memory. -/
theorem le_of_memory {total : ℕ} (h : total ≤ (createWriter 0 0 (total % 2 ^ 64)).data.length) :
    total ≤ 2 ^ 64 - 40 := by
  have hlt := BufferRaw.memory_lt (createWriter 0 0 (total % 2 ^ 64)).dataSize
  have hround : (createWriter 0 0 (total % 2 ^ 64)).dataSize < 2 ^ 64 := by
    rw [dataSize_createWriter]
    unfold BufferRaw.roundUp
    omega
  rw [length_createWriter] at h
  by_cases hfits : 32 + (createWriter 0 0 (total % 2 ^ 64)).dataSize < 2 ^ 64
  · rw [BufferRaw.memory_of_lt hfits] at h
    have hdvd : 8 ∣ (createWriter 0 0 (total % 2 ^ 64)).dataSize := Nat.dvd_mul_left 8 _
    omega
  · rw [BufferRaw.memory_of_wrap (Nat.not_lt.mp hfits) hround] at h
    omega

/-! ### `extract` -/

/-- With a piece in a list the contents are copied, if they fit into a new buffer. -/
theorem extract_lists (hb : b.bufferWriter.Readable) (hlists : b.toAppend ≠ [] ∨ b.toPrepend ≠ []) :
    b.extract = if b.contents.length ≤ 2 ^ 64 - 40 then some (empty, b.contents) else none := by
  obtain ⟨slices, hslices, hflatten⟩ := forEach_eq hb
  have hand : ¬(b.toAppend = [] ∧ b.toPrepend = []) := fun hand => hlists.elim (fun h => h hand.1) fun h => h hand.2
  unfold extract
  rw [if_neg hand, size_eq hb, hslices]
  simp only [Option.bind_eq_bind, Option.bind_some]
  split_ifs with hfits
  · have hmod : b.contents.length % 2 ^ 64 = b.contents.length := Nat.mod_eq_of_lt (by omega)
    obtain ⟨hsound, hle⟩ := createWriter_sound hfits
    rw [hmod]
    obtain ⟨raw', hcopy, hreadable, hbytes⟩ := @copySlices_sound slices _ hsound (by
      rw [hflatten]
      exact Nat.le_trans (Nat.le_of_eq (Nat.zero_add _)) hle)
    have hempty : (createWriter 0 0 b.contents.length).bytes = [] := Raw.bytes_eq_nil rfl
    rw [hempty, List.nil_append, hflatten] at hbytes
    rw [hcopy, Option.bind_some]
    unfold BufferWriter.asBufferSlice
    dsimp only
    rw [hreadable.asSlice, hbytes]
    rfl
  · rw [Option.bind_eq_none_iff]
    intro w hcopy
    refine absurd ?_ hfits
    rcases copySlices_memory (createWriter_readable _) hcopy with hnil | hle
    · rw [← hflatten, hnil]
      exact Nat.zero_le _
    · rw [hflatten] at hle
      exact le_of_memory (Nat.le_trans (Nat.le_of_eq (Nat.zero_add _).symm) hle)

/-- With no piece in a list the buffer is handed out, and keeps its bytes. -/
theorem extract_no_lists (hb : b.bufferWriter.Readable) (hlists : b.toAppend = [] ∧ b.toPrepend = []) :
    b.extract = b.bufferWriter.map fun raw => (⟨some { raw with wasReader := true }, [], []⟩, b.contents) := by
  have hcontents : b.contents = b.bufferWriter.bytes := by
    unfold contents
    rw [hlists.1, hlists.2, List.reverse_nil, List.flatten_nil, List.nil_append, List.append_nil]
  unfold extract
  rw [if_pos hlists, hcontents]
  cases hw : b.bufferWriter with
  | none => rfl
  | some raw =>
    unfold BufferWriter.asBufferSlice
    dsimp only
    rw [(hb raw hw).asSlice, hlists.1, hlists.2]
    rfl

/-- Whatever `extract` returns, what it leaves can be read. -/
theorem extract_readable {bytes : List UInt8} (hb : b.bufferWriter.Readable) (h : b.extract = some (b', bytes)) :
    b'.bufferWriter.Readable := by
  by_cases hlists : b.toAppend = [] ∧ b.toPrepend = []
  · rw [extract_no_lists hb hlists] at h
    obtain ⟨raw, hraw, heq⟩ := Option.map_eq_some_iff.mp h
    cases heq
    have hreadable := hb raw hraw
    exact BufferWriter.readable_some ⟨hreadable.le, hreadable.inside, hreadable.end_lt, hreadable.memory_lt⟩
  · rw [extract_lists hb (by simpa only [Classical.not_and_iff_not_or_not] using hlists)] at h
    split_ifs at h
    cases h
    exact BufferWriter.readable_none

/-! ### What `BufferBuilder(slice, prepend_size, append_size)` makes -/

theorem begin_createWriter (size : ℕ) {prepend : ℕ} (append : ℕ) (h : prepend < 2 ^ 64) :
    (createWriter size prepend append).begin_ = prepend :=
  (Word.add_of_lt (by omega)).trans (Nat.zero_add _)

theorem end_createWriter {size prepend : ℕ} (append : ℕ) (h : prepend + size < 2 ^ 64) :
    (createWriter size prepend append).end_ = prepend + size := by
  unfold createWriter
  dsimp only
  rw [Word.add_of_lt h, Word.add_of_lt (by omega), Nat.zero_add]

/-- The initial slice, behind its reserve. -/
theorem ofSlice_inv {prepend append : ℕ} {w : BufferWriter} (hprepend : prepend < 2 ^ 64)
    (h : BufferWriter.ofSlice slice prepend append = some w) :
    ∃ raw, w = some raw ∧ raw.Readable ∧ raw.bytes = slice ∧ raw.begin_ = prepend ∧
      raw.end_ = prepend + slice.length ∧ raw.wasReader = false ∧
      raw.dataSize = (createWriter slice.length prepend append).dataSize ∧
      raw.data.length = (createWriter slice.length prepend append).data.length ∧
      (slice = [] ∨ prepend + slice.length ≤ raw.data.length) := by
  have hmemory := BufferRaw.memory_lt (createWriter slice.length prepend append).dataSize
  rw [← length_createWriter] at hmemory
  have hbegin := begin_createWriter slice.length append hprepend
  unfold BufferWriter.ofSlice at h
  dsimp only at h
  by_cases hn : slice.length ≤ Word.sub 64 (createWriter slice.length prepend append).end_
      (createWriter slice.length prepend append).begin_
  · rw [BufferWriter.copyFrom_eq _ _ hn, hbegin] at h
    split_ifs at h with hroom
    obtain rfl := Option.some.inj h
    have hlt : prepend + slice.length < 2 ^ 64 := by
      rcases hroom with rfl | hroom
      · exact hprepend
      · omega
    have hend := end_createWriter append hlt
    have hlength : (overwrite (createWriter slice.length prepend append).data prepend slice).length =
        (createWriter slice.length prepend append).data.length := by
      rcases hroom with hnil | hroom
      · rw [hnil, overwrite_nil]
      · exact length_overwrite hroom
    have hbytes : part (overwrite (createWriter slice.length prepend append).data prepend slice) prepend
        (prepend + slice.length) = slice := by
      rcases hroom with hnil | hroom
      · rw [hnil, List.length_nil, Nat.add_zero, part_self]
      · rw [part_overwrite_behind (Nat.le_refl _) hroom, part_self, List.nil_append]
    refine ⟨_, rfl, ⟨?_, ?_, ?_, ?_⟩, ?_, rfl, hend, rfl, rfl, hlength, ?_⟩
    · dsimp only
      rw [hend]
      exact Nat.le_add_right _ _
    · dsimp only
      rw [hend, hlength]
      exact hroom.imp_left fun hnil => by rw [hnil]; rfl
    · dsimp only
      rw [hend]
      exact hlt
    · dsimp only
      rw [hlength]
      exact hmemory
    · unfold Raw.bytes
      dsimp only
      rw [hend]
      exact hbytes
    · dsimp only
      rw [hlength]
      exact hroom
  · unfold BufferWriter.copyFrom at h
    rw [if_pos (Nat.not_le.mp hn)] at h
    cases h

theorem ofSlice_readable {prepend append : ℕ} (hprepend : prepend < 2 ^ 64)
    (h : ofSlice slice prepend append = some b) : b.bufferWriter.Readable := by
  obtain ⟨w, hw, rfl⟩ := Option.map_eq_some_iff.mp h
  obtain ⟨raw, rfl, hraw, -⟩ := ofSlice_inv hprepend hw
  exact BufferWriter.readable_some hraw

/-! ### Runs -/

/-- How a builder is made; a writer that is moved into it has its bytes in its memory. -/
inductive Start where
  | default
  | ofSlice (slice : List UInt8) (prependSize appendSize : UInt64)
  | ofWriter (bufferWriter : { w : BufferWriter // w.Readable })

def Start.build : Start → Option BufferBuilder
  | default => some BufferBuilder.empty
  | ofSlice slice prependSize appendSize => BufferBuilder.ofSlice slice prependSize.toNat appendSize.toNat
  | ofWriter bufferWriter => some (BufferBuilder.ofWriter bufferWriter.1)

/-- `extract` returns the contents, and leaves a builder that is empty and takes whatever comes. -/
def ExtractsContents (b : BufferBuilder) : Prop :=
  ∃ b', b.extract = some (b', b.contents) ∧ b'.contents = [] ∧
    ∀ es : List Edit, (∀ e ∈ es, e.piece.bytes.length ≤ 2 ^ 64 - 40) →
      ∃ b'', b'.edits es = some b'' ∧ b''.contents = expected [] es

theorem start_readable {start : Start} (h : start.build = some b) : b.bufferWriter.Readable := by
  cases start with
  | default =>
    obtain rfl := Option.some.inj h
    exact BufferWriter.readable_none
  | ofSlice slice prependSize appendSize => exact ofSlice_readable prependSize.toNat_lt h
  | ofWriter bufferWriter =>
    obtain rfl := Option.some.inj h
    exact bufferWriter.2

theorem step_readable {op : Op} {answer : Option (List UInt8)} (hb : b.bufferWriter.Readable)
    (h : machine.step b op = some (b', answer)) : b'.bufferWriter.Readable := by
  cases op with
  | edit e =>
    obtain ⟨b₁, hedit, heq⟩ := Option.map_eq_some_iff.mp h
    obtain ⟨rfl, -⟩ := Prod.mk.inj heq
    cases e with
    | append piece => exact (append_contents hb hedit).1
    | prepend piece => exact (prepend_contents hb hedit).1
  | extract =>
    obtain ⟨⟨b₁, bytes⟩, hextract, heq⟩ := Option.map_eq_some_iff.mp h
    obtain ⟨rfl, -⟩ := Prod.mk.inj heq
    exact extract_readable hb hextract

theorem empty_takes {es : List Edit} (hes : ∀ e ∈ es, e.piece.bytes.length ≤ 2 ^ 64 - 40) :
    ∃ b, empty.edits es = some b ∧ b.contents = expected [] es := by
  obtain ⟨b, hedits, -⟩ := edits_sound es (b := empty) (fun raw hraw => by cases hraw) hes
  exact ⟨b, hedits, (edits_contents BufferWriter.readable_none hedits).2⟩

/-- A buffer that a reader has seen takes nothing in front of it. -/
theorem prepend_read (raw : Raw) (hread : raw.wasReader = true) (piece : Piece) :
    (⟨some raw, [], []⟩ : BufferBuilder).prepend piece = none := by
  have hprepare : BufferWriter.preparePrepend (some raw) = none := if_pos hread
  unfold prepend prependInplace
  simp only [ne_eq, not_true_eq_false, if_false, hprepare, Option.bind_eq_bind, Option.bind_none]

/-- In every state that is reached `extract` does what is asked of it if and only if a piece is in a list and the
contents fit into a new buffer. -/
theorem extractsContents_iff (start : Start) (ops : List Op) {b₀ b : BufferBuilder}
    {answers : List (Option (List UInt8))} (hbuild : start.build = some b₀) (hrun : machine.run b₀ ops = some (b, answers)) :
    ExtractsContents b ↔ (b.toAppend ≠ [] ∨ b.toPrepend ≠ []) ∧ b.contents.length ≤ 2 ^ 64 - 40 := by
  have hb : b.bufferWriter.Readable :=
    Machine.run_inv (P := fun b => b.bufferWriter.Readable) (fun _ _ _ _ hs hstep => step_readable hs hstep) ops
      (start_readable hbuild) hrun
  by_cases hlists : b.toAppend ≠ [] ∨ b.toPrepend ≠ []
  · rw [and_iff_right hlists]
    unfold ExtractsContents
    rw [extract_lists hb hlists]
    constructor
    · rintro ⟨b', hextract, -⟩
      by_contra hlarge
      rw [if_neg hlarge] at hextract
      cases hextract
    · intro hfits
      rw [if_pos hfits]
      exact ⟨empty, rfl, rfl, fun es hes => empty_takes hes⟩
  · refine iff_of_false ?_ fun hand => hlists hand.1
    rintro ⟨b', hextract, -, hall⟩
    have hempty : b.toAppend = [] ∧ b.toPrepend = [] := by
      rwa [not_or, not_not, not_not] at hlists
    rw [extract_no_lists hb hempty] at hextract
    obtain ⟨raw, -, heq⟩ := Option.map_eq_some_iff.mp hextract
    obtain ⟨rfl, -⟩ := Prod.mk.inj heq
    obtain ⟨b'', hedits, -⟩ := hall [.prepend (.slice [0])] (by decide)
    rw [edits_cons] at hedits
    obtain ⟨b₁, hprepend, -⟩ := Option.bind_eq_some_iff.mp hedits
    have hnone := prepend_read { raw with wasReader := true } rfl (.slice [0])
    change BufferBuilder.prepend _ _ = some b₁ at hprepend
    rw [hnone] at hprepend
    cases hprepend

/-- One byte on each side of no buffer at all. -/
theorem extractsContents_iff_two :
    ExtractsContents ⟨none, [[98]], [[97]]⟩ ↔
      (([[98]] : List (List UInt8)) ≠ [] ∨ ([[97]] : List (List UInt8)) ≠ []) ∧
        (⟨none, [[98]], [[97]]⟩ : BufferBuilder).contents.length ≤ 2 ^ 64 - 40 :=
  extractsContents_iff .default [.edit (.append (.slice [98])), .edit (.prepend (.bufferSlice [97]))] rfl rfl

/-- `extract` of a builder made by `BufferBuilder()` follows a null pointer. -/
theorem extract_default_fails : ¬∀ (start : Start) (ops : List Op) (b₀ b : BufferBuilder)
    (answers : List (Option (List UInt8))), start.build = some b₀ → machine.run b₀ ops = some (b, answers) →
      ExtractsContents b := by
  intro hall
  obtain ⟨b', hextract, -⟩ := hall .default [] empty empty [] rfl rfl
  cases hextract

end BufferBuilder

end TdUtils
