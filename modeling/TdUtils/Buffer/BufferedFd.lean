import TdUtils.Buffer.Chain

/-!
# Buffer.BufferedFd — what is appended is written to the descriptor in pieces

The descriptor takes as many of the bytes it is offered as it has room for, or it fails.
-/

namespace TdUtils

open ChainBuffer

/-- `written` is what the descriptor has accepted. -/
structure BufferedFd where
  outputWriter : ChainBuffer
  outputReader : ChainBufferReader
  written : List UInt8
deriving DecidableEq

namespace BufferedFd

inductive Op where
  | append (slice : List UInt8) (hint : UInt64)
  | appendBuffer (bytes : List UInt8)
  | appendReader (slices : List (List UInt8))
  | prepareAppend (hint : UInt64)
  | prepareAppendAtLeast (size : UInt64)
  | prepareAppendAlloc (hint : UInt64)
  | confirmAppend (bytes : List UInt8)
  | readyForFlushWrite
  | flushWrite (rooms : List (Option ℕ))
deriving DecidableEq

inductive Answer where
  | none
  | size (n : ℕ)
  | flushed (result : Option ℕ)
deriving DecidableEq

/-- `BufferedFd()`. -/
def start : Option BufferedFd := ChainBuffer.init.extractReader.map fun (c, reader) => ⟨c, reader, []⟩

def bufSize : ℕ := 20

/-- The loop that fills `buf` from a clone of the reader. -/
def gather (c : ChainBuffer) : ℕ → ChainBufferReader → Option (List BufferSlice)
  | 0, _ => some []
  | n + 1, it =>
    (it.prepareRead c).bind fun (it, slice) =>
      if slice.size = 0 then some []
      else (it.confirmRead slice.size).bind fun it => (gather c n it).map fun buf => slice :: buf

/-- What a descriptor with this room does, `none` being an error. -/
def writev (s : BufferedFd) (buf : List BufferSlice) (room : Option ℕ) : Option (BufferedFd × ℕ) :=
  room.map fun room =>
    let bytes := buf.flatMap fun slice => slice.asSlice s.outputWriter.raws
    ({ s with written := s.written ++ bytes.take room }, min room bytes.length)

/-- The loop of `flush_write`; when there are no more rooms, the descriptor can no longer be written to. -/
def flushLoop : List (Option ℕ) → BufferedFd → ℕ → Option (BufferedFd × Option ℕ)
  | [], s, result => some (s, some result)
  | room :: rooms, s, result =>
    if s.outputReader.size = 0 then some (s, some result)
    else
      (gather s.outputWriter bufSize s.outputReader).bind fun buf =>
        match s.writev buf room with
        | none => some (s, none)
        | some (s, x) =>
          (s.outputReader.advance s.outputWriter x 0).bind fun (reader, _) =>
            flushLoop rooms { s with outputReader := reader } (result + x)

def syncWithWriter (s : BufferedFd) : Option BufferedFd :=
  (s.outputReader.syncWithWriter s.outputWriter).map fun reader => { s with outputReader := reader }

def flushWrite (s : BufferedFd) (rooms : List (Option ℕ)) : Option (BufferedFd × Option ℕ) :=
  s.syncWithWriter.bind fun s => flushLoop rooms s 0

/-- A slice of another buffer is appended. -/
def appendBytes (c : ChainBuffer) (bytes : List UInt8) : Option ChainBuffer :=
  (c.newSlice bytes).1.appendBuffer (c.newSlice bytes).2

/-- The slices of a reader of another chain are appended one by one. -/
def appendSlices (c : ChainBuffer) (slices : List (List UInt8)) : Option ChainBuffer := slices.foldlM appendBytes c

def put (s : BufferedFd) (c : ChainBuffer) : BufferedFd × Answer := ({ s with outputWriter := c }, .none)

def step (s : BufferedFd) : Op → Option (BufferedFd × Answer)
  | .append slice hint => (s.outputWriter.append slice hint.toNat).map s.put
  | .appendBuffer bytes => (appendBytes s.outputWriter bytes).map s.put
  | .appendReader slices => (appendSlices s.outputWriter slices).map s.put
  | .prepareAppend hint => some (s.put (s.outputWriter.prepareAppend hint.toNat))
  | .prepareAppendAtLeast size => some (s.put (s.outputWriter.prepareAppendAtLeast size.toNat))
  | .prepareAppendAlloc hint => some (s.put (s.outputWriter.prepareAppendAlloc hint.toNat))
  | .confirmAppend bytes => (s.outputWriter.confirmAppend bytes).map s.put
  | .readyForFlushWrite => s.syncWithWriter.map fun s => (s, .size s.outputReader.size)
  | .flushWrite rooms => (s.flushWrite rooms).map fun (s, result) => (s, .flushed result)

def machine : Lib.Machine BufferedFd Op Answer := ⟨step⟩

/-- The bytes that the output reader still holds. -/
def held (s : BufferedFd) : Option (List UInt8) :=
  s.syncWithWriter.bind fun s => (s.outputReader.moveAsBufferSlice s.outputWriter).map fun (_, bytes) => bytes

/-- What a call appends to the stream. -/
def Op.appended : Op → List UInt8
  | .append slice _ => slice
  | .appendBuffer bytes => bytes
  | .appendReader slices => slices.flatten
  | .confirmAppend bytes => bytes
  | _ => []

/-- No object is larger than the greatest `ptrdiff_t`, and not more is confirmed than was prepared. -/
def Allowed (s : BufferedFd) : Op → Prop
  | .append slice _ => slice.length < 2 ^ 63
  | .confirmAppend bytes => bytes.length ≤ s.outputWriter.prepareAppendInplace
  | _ => True

/-- The size of a buffer does not wrap when it is rounded up and the header is added, or no new buffer is needed. -/
def Fits (s : BufferedFd) : Op → Prop
  | .append slice hint => hint.toNat ≤ 2 ^ 64 - 40 ∨ slice.length ≤ s.outputWriter.prepareAppendInplace
  | .prepareAppend hint => hint.toNat ≤ 2 ^ 64 - 40 ∨ 0 < s.outputWriter.prepareAppendInplace
  | .prepareAppendAtLeast size => size.toNat ≤ 2 ^ 64 - 40 ∨ size.toNat ≤ s.outputWriter.prepareAppendInplace
  | .prepareAppendAlloc hint => hint.toNat ≤ 2 ^ 64 - 40
  | _ => True

/-- What the descriptor has accepted and what the reader holds are the appended stream. -/
def WrittenHeld (s : BufferedFd) (ops : List Op) : Prop :=
  ∃ rest, s.held = some rest ∧ s.written ++ rest = ops.flatMap Op.appended

/-! ### Appending -/

variable {c : ChainBuffer} {s : BufferedFd} {stream : List UInt8}

theorem appendBytes_spec (hok : Ok c) (hroomy : Roomy c) (bytes : List UInt8) :
    ∃ c', appendBytes c bytes = some c' ∧ Appends c c' bytes ∧ Roomy c' := by
  obtain ⟨hnew, hvalid, hslice, -⟩ := appends_newSlice hok bytes
  obtain ⟨c', hrun, hc, hroomy'⟩ := appendBuffer_spec hnew.ok (hroomy.newSlice hok bytes) (.inl hvalid)
  rw [hslice] at hc
  exact ⟨c', hrun, hnew.trans hc, hroomy'⟩

theorem appendSlices_spec (slices : List (List UInt8)) : ∀ {c : ChainBuffer}, Ok c → Roomy c →
    ∃ c', appendSlices c slices = some c' ∧ Appends c c' slices.flatten ∧ Roomy c' := by
  induction slices with
  | nil => exact fun hok hroomy => ⟨_, rfl, Appends.refl hok, hroomy⟩
  | cons bytes slices ih =>
    intro c hok hroomy
    obtain ⟨c₁, hrun, hc, hroomy₁⟩ := appendBytes_spec hok hroomy bytes
    obtain ⟨c', hrest, hc', hroomy'⟩ := ih hc.ok hroomy₁
    refine ⟨c', ?_, hc.trans hc', hroomy'⟩
    unfold appendSlices
    rw [List.foldlM_cons, hrun]
    exact hrest

/-! ### The invariant -/

/-- The reader stands behind the bytes that were written. -/
structure Inv (s : BufferedFd) (stream : List UInt8) : Prop where
  ok : Ok s.outputWriter
  roomy : Roomy s.outputWriter
  contents : s.outputWriter.contents = stream
  reads : ∃ limit, Reads s.outputWriter s.outputReader ⟨s.written.length, limit, true⟩
  written : s.written = stream.take s.written.length
  le : s.written.length ≤ stream.length

theorem Inv.append (hinv : Inv s stream) {bytes : List UInt8} (hc : Appends s.outputWriter c bytes)
    (hroomy : Roomy c) : Inv (s.put c).1 (stream ++ bytes) := by
  obtain ⟨limit, hreads⟩ := hinv.reads
  refine ⟨hc.ok, hroomy, ?_, ⟨limit, hreads.of_extends hinv.ok hc.extends⟩, ?_, ?_⟩
  · rw [← hinv.contents]
    exact hc.contents
  · show s.written = (stream ++ bytes).take s.written.length
    rw [List.take_append_of_le_length hinv.le]
    exact hinv.written
  · rw [List.length_append]
    exact Nat.le_trans hinv.le (Nat.le_add_right _ _)

/-- With the end of the reader at the end of the stream. -/
theorem Inv.sync (hinv : Inv s stream) : ∃ t, s.syncWithWriter = some t ∧ Inv t stream ∧
    Reads t.outputWriter t.outputReader ⟨t.written.length, stream.length, true⟩ := by
  obtain ⟨limit, hreads⟩ := hinv.reads
  obtain ⟨reader, hrun, hreads⟩ := hreads.sync hinv.ok
  rw [hinv.contents] at hreads
  refine ⟨{ s with outputReader := reader }, ?_, ⟨hinv.ok, hinv.roomy, hinv.contents, ⟨_, hreads⟩, hinv.written, hinv.le⟩, hreads⟩
  unfold BufferedFd.syncWithWriter
  rw [hrun]
  rfl

theorem Inv.held (hinv : Inv s stream) : s.held = some (stream.drop s.written.length) := by
  obtain ⟨t, hsync, ht, hreads⟩ := hinv.sync
  have hmove := hreads.moveAsBufferSlice ht.ok
  have hwritten : t.written = s.written := by
    unfold BufferedFd.syncWithWriter at hsync
    obtain ⟨reader, -, rfl⟩ := Option.map_eq_some_iff.mp hsync
    rfl
  unfold BufferedFd.held
  rw [hsync, Option.bind_some, hmove, Option.map_some, ht.contents]
  unfold Cursor.peek Cursor.size
  dsimp only
  rw [hwritten, ← List.length_drop, List.take_length]

/-! ### `flush_write` -/

/-- What is gathered is what comes next in the stream, as far as the reader goes. -/
theorem gather_spec (hok : Ok c) (n : ℕ) : ∀ {it : ChainBufferReader} {cursor : Cursor}, Reads c it cursor →
    ∃ buf k, gather c n it = some buf ∧ k ≤ cursor.size ∧
      (buf.flatMap fun slice => slice.asSlice c.raws) = cursor.peek c.contents k := by
  induction n with
  | zero =>
    intro it cursor _
    exact ⟨[], 0, rfl, Nat.zero_le _, cursor.peek_zero c.contents⟩
  | succ n ih =>
    intro it cursor hreads
    obtain ⟨it₁, slice, k, hprepare, hreads₁, hk, -, hshown, hsize, hslice⟩ := hreads.prepareRead hok
    rw [gather, hprepare, Option.bind_some]
    dsimp only
    by_cases hzero : slice.size = 0
    · rw [if_pos hzero]
      exact ⟨[], 0, rfl, Nat.zero_le _, cursor.peek_zero c.contents⟩
    · rw [if_neg hzero, hsize]
      obtain ⟨it₂, hconfirm, hreads₂⟩ := hreads₁.confirmRead hok hk hshown
      obtain ⟨buf, k', hgather, hk', hbuf⟩ := ih hreads₂
      have hmoved : (cursor.move k).size = cursor.size - k := Nat.sub_add_eq _ _ _
      refine ⟨slice :: buf, k + k', ?_, by omega, ?_⟩
      · rw [hconfirm, Option.bind_some, hgather]
        rfl
      · rw [List.flatMap_cons, hslice, hbuf]
        unfold Cursor.peek Cursor.move
        dsimp only
        rw [List.take_add, List.drop_drop]

theorem Inv.flushLoop (rooms : List (Option ℕ)) : ∀ {s : BufferedFd} (result : ℕ), Inv s stream →
    ∃ t answer, flushLoop rooms s result = some (t, answer) ∧ Inv t stream := by
  induction rooms with
  | nil => exact fun result hinv => ⟨_, _, rfl, hinv⟩
  | cons room rooms ih =>
    intro s result hinv
    rw [BufferedFd.flushLoop]
    split
    · exact ⟨_, _, rfl, hinv⟩
    · obtain ⟨limit, hreads⟩ := hinv.reads
      obtain ⟨buf, k, hgather, hk, hbuf⟩ := gather_spec hinv.ok bufSize hreads
      rw [hgather, Option.bind_some]
      unfold writev
      cases room with
      | none => exact ⟨_, _, rfl, hinv⟩
      | some room =>
        rw [hbuf, hinv.contents, Option.map_some]
        dsimp only
        -- The descriptor may stop anywhere in the slices; the reader is advanced by as much.
        have hpeek : (Cursor.peek ⟨s.written.length, limit, true⟩ stream k).length ≤ k := List.length_take_le _ _
        obtain ⟨reader, hadvance, hreads'⟩ := hreads.advance hinv.ok 0
          (n := min room (Cursor.peek ⟨s.written.length, limit, true⟩ stream k).length) (by omega)
        rw [hadvance, Option.bind_some]
        refine ih _ ⟨hinv.ok, hinv.roomy, hinv.contents, ⟨limit, ?_⟩, ?_, ?_⟩
        · have hlen : (s.written ++ (Cursor.peek ⟨s.written.length, limit, true⟩ stream k).take room).length =
              s.written.length + min room (Cursor.peek ⟨s.written.length, limit, true⟩ stream k).length := by
            rw [List.length_append, List.length_take]
          dsimp only
          rw [hlen]
          exact hreads'
        · dsimp only
          rw [List.length_append, List.take_add]
          congr 1
          · exact hinv.written
          · unfold Cursor.peek
            dsimp only
            rw [List.take_take, List.length_take, List.take_eq_take_iff]
            omega
        · dsimp only
          have hdrop : (stream.drop s.written.length).length = stream.length - s.written.length := List.length_drop
          have hle := hinv.le
          unfold Cursor.peek
          dsimp only
          rw [List.length_append, List.take_take, List.length_take]
          omega

theorem Inv.flushWrite (hinv : Inv s stream) (rooms : List (Option ℕ)) :
    ∃ t answer, s.flushWrite rooms = some (t, answer) ∧ Inv t stream := by
  obtain ⟨t, hsync, ht, -⟩ := hinv.sync
  unfold BufferedFd.flushWrite
  rw [hsync, Option.bind_some]
  exact ht.flushLoop rooms 0

/-! ### Runs -/

/-- Every call is answered. -/
theorem Inv.step (hinv : Inv s stream) {op : Op} (hallowed : Allowed s op) (hfits : Fits s op) :
    ∃ t answer, s.step op = some (t, answer) ∧ Inv t (stream ++ op.appended) := by
  cases op with
  | append slice hint =>
    have hlen : slice.length < 2 ^ 63 := hallowed
    have hhint : hint.toNat ≤ 2 ^ 64 - 40 ∨ slice.length ≤ s.outputWriter.prepareAppendInplace := hfits
    obtain ⟨c, hrun, hc, hroomy⟩ := append_spec hinv.ok hinv.roomy slice hint.toNat (by omega)
    exact ⟨_, _, congrArg (Option.map s.put) hrun, hinv.append hc hroomy⟩
  | appendBuffer bytes =>
    obtain ⟨c, hrun, hc, hroomy⟩ := appendBytes_spec hinv.ok hinv.roomy bytes
    exact ⟨_, _, congrArg (Option.map s.put) hrun, hinv.append hc hroomy⟩
  | appendReader slices =>
    obtain ⟨c, hrun, hc, hroomy⟩ := appendSlices_spec slices hinv.ok hinv.roomy
    exact ⟨_, _, congrArg (Option.map s.put) hrun, hinv.append hc hroomy⟩
  | prepareAppend hint =>
    exact ⟨_, _, rfl, hinv.append (appends_prepare hinv.ok hint.toNat) (hinv.roomy.prepare hfits)⟩
  | prepareAppendAtLeast size =>
    exact ⟨_, _, rfl, hinv.append (appends_prepareAtLeast hinv.ok size.toNat) (hinv.roomy.prepareAtLeast hfits)⟩
  | prepareAppendAlloc hint =>
    exact ⟨_, _, rfl, hinv.append (appends_alloc hinv.ok hint.toNat) (roomy_alloc _ hfits)⟩
  | confirmAppend bytes =>
    obtain ⟨c, hrun⟩ := hinv.roomy.exists_confirm hallowed
    exact ⟨_, _, congrArg (Option.map s.put) hrun,
      hinv.append (appends_confirm hinv.ok hrun) (hinv.roomy.confirm hrun)⟩
  | readyForFlushWrite =>
    obtain ⟨t, hsync, ht, -⟩ := hinv.sync
    exact ⟨_, _, congrArg (Option.map fun s : BufferedFd => (s, Answer.size s.outputReader.size)) hsync,
      (List.append_nil stream).symm ▸ ht⟩
  | flushWrite rooms =>
    obtain ⟨t, answer, hflush, ht⟩ := hinv.flushWrite rooms
    exact ⟨_, _, congrArg (Option.map fun r : BufferedFd × Option ℕ => (r.1, Answer.flushed r.2)) hflush,
      (List.append_nil stream).symm ▸ ht⟩

theorem exists_start : ∃ s, start = some s ∧ Inv s [] := by
  obtain ⟨reader, hextract, hreads⟩ := Chain.extractReader_spec ok_init rfl
  have hhead := appends_head ok_init
  refine ⟨⟨{ ChainBuffer.init with head := false }, reader, []⟩, ?_, hhead.ok, roomy_init, rfl,
    ⟨0, hreads.of_extends ok_init hhead.extends⟩, rfl, Nat.le_refl _⟩
  unfold start
  rw [hextract]
  rfl

theorem Inv.writtenHeld {ops : List Op} (hinv : Inv s (ops.flatMap Op.appended)) : WrittenHeld s ops := by
  refine ⟨_, hinv.held, ?_⟩
  calc s.written ++ (ops.flatMap Op.appended).drop s.written.length
      = (ops.flatMap Op.appended).take s.written.length ++ (ops.flatMap Op.appended).drop s.written.length := by
        rw [← hinv.written]
    _ = ops.flatMap Op.appended := List.take_append_drop _ _

/-- Every run of appends and flushes goes through, and whatever room the descriptor has had, what it has accepted and
what the output reader still holds are the appended stream. -/
theorem written_held {s₀ : BufferedFd} (hstart : start = some s₀) (ops : List Op)
    (hops : machine.Along (fun s op => Allowed s op ∧ Fits s op) s₀ ops) :
    ∃ s answers, machine.run s₀ ops = some (s, answers) ∧ WrittenHeld s ops := by
  obtain ⟨s₁, hstart₁, hs₀⟩ := exists_start
  obtain rfl := Option.some.inj (hstart.symm.trans hstart₁)
  have hstep : ∀ (ops : List Op) (answers : List Answer) s op, True → (Allowed s op ∧ Fits s op) →
      Inv s (ops.flatMap Op.appended) →
      ∃ t answer, machine.step s op = some (t, answer) ∧ Inv t ((ops ++ [op]).flatMap Op.appended) := by
    rintro ops - s op - ⟨hallowed, hfits⟩ hinv
    rw [List.flatMap_append, List.flatMap_singleton]
    exact hinv.step hallowed hfits
  obtain ⟨s, answers, hrun, hinv⟩ := Lib.Machine.run_history machine s₀ (fun s op => Allowed s op ∧ Fits s op)
    (fun _ => True) (fun ops _ s => Inv s (ops.flatMap Op.appended)) (fun _ _ _ => trivial) hs₀ hstep ops trivial hops
  exact ⟨s, answers, hrun, hinv.writtenHeld⟩

instance (s : BufferedFd) (op : Op) : Decidable (Allowed s op) := by
  cases op <;> unfold Allowed <;> infer_instance

instance (s : BufferedFd) (op : Op) : Decidable (Fits s op) := by
  cases op <;> unfold Fits <;> infer_instance

/-- The descriptor takes two bytes and fails, and later takes what is left, which stands in two buffers. -/
theorem written_held_failed : ∃ s answers, machine.run
      ⟨{ ChainBuffer.init with head := false }, ⟨.ofHead ChainBuffer.init 0, .ofHead ChainBuffer.init 0, true⟩, []⟩
      [.append [1, 2, 3] 0, .flushWrite [some 2, none], .prepareAppendAlloc 0, .append [4] 0,
        .flushWrite [some 0, some 9]] = some (s, answers) ∧
    WrittenHeld s [.append [1, 2, 3] 0, .flushWrite [some 2, none], .prepareAppendAlloc 0, .append [4] 0,
      .flushWrite [some 0, some 9]] :=
  written_held (by decide) _ (by decide)

/-- A buffer of `2 ^ 64 - 8` bytes gets a block of 40, and the ninth byte is written behind it. -/
theorem append_overruns : ¬∀ s₀ ops, start = some s₀ → machine.Along Allowed s₀ ops →
    ∃ s answers, machine.run s₀ ops = some (s, answers) ∧ WrittenHeld s ops := by
  intro hall
  obtain ⟨s, answers, hrun, -⟩ := hall
    ⟨{ ChainBuffer.init with head := false }, ⟨.ofHead ChainBuffer.init 0, .ofHead ChainBuffer.init 0, true⟩, []⟩
    [.prepareAppendAlloc 0xfffffffffffffff8, .append [1, 2, 3, 4, 5, 6, 7, 8, 9] 0] (by decide) (by decide)
  have hnone : (machine.run
      ⟨{ ChainBuffer.init with head := false }, ⟨.ofHead ChainBuffer.init 0, .ofHead ChainBuffer.init 0, true⟩, []⟩
      [.prepareAppendAlloc 0xfffffffffffffff8, .append [1, 2, 3, 4, 5, 6, 7, 8, 9] 0]).isNone := by decide
  rw [hrun] at hnone
  cases hnone

end BufferedFd

end TdUtils
