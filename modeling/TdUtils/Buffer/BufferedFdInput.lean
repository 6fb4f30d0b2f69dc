import TdUtils.Buffer.BufferedFd

/-!
# Buffer.BufferedFdInput — what is read from the descriptor is shown to the caller

`flush_read` puts what it reads behind the stream, read by read, and only when the whole call has succeeded moves
the end of the input reader there.  A call that fails after a read that gave bytes returns with the reader where
it was.
-/

namespace TdUtils

open Lib ChainBuffer

/-- The input side; `received` is what was read from the descriptor, `taken` what the caller has taken of it. -/
structure BufferedFdInput where
  inputWriter : ChainBuffer
  inputReader : ChainBufferReader
  received : List UInt8
  taken : List UInt8
deriving DecidableEq

namespace BufferedFdInput

/-- `flush_read` is given the results of the reads, one of which may fail behind those that do not; when there are
no more of them, `can_read_local` is false. -/
inductive Op where
  | flushRead (maxRead : ℕ) (reads : List (List UInt8)) (fails : Bool)
  | advance (offset : ℕ)
  | syncWithWriter
deriving DecidableEq

inductive Answer where
  | none
  | taken (bytes : List UInt8)
  | flushed (result : Option ℕ)
deriving DecidableEq

/-- `BufferedFd()`. -/
def start : Option BufferedFdInput :=
  ChainBuffer.init.extractReader.map fun (c, reader) => ⟨c, reader, [], []⟩

/-- The loop of `BufferedFdBase::flush_read`; `none` is a read that gives more than there is room for. -/
def readLoop : List (List UInt8) → Bool → ℕ → BufferedFdInput → ℕ → Option (BufferedFdInput × Option ℕ)
  | [], fails, maxRead, s, result =>
    if fails ∧ maxRead ≠ 0 then some ({ s with inputWriter := s.inputWriter.prepareAppend 0 }, none)
    else some (s, some result)
  | bytes :: reads, fails, maxRead, s, result =>
    if maxRead = 0 then some (s, some result)
    else
      let c := s.inputWriter.prepareAppend 0
      if bytes.length ≤ min c.prepareAppendInplace maxRead then
        (c.confirmAppend bytes).bind fun c =>
          readLoop reads fails (maxRead - bytes.length)
            { s with inputWriter := c, received := s.received ++ bytes } (result + bytes.length)
      else none

def syncWithWriter (s : BufferedFdInput) : Option BufferedFdInput :=
  (s.inputReader.syncWithWriter s.inputWriter).map fun reader => { s with inputReader := reader }

/-- `BufferedFd::flush_read`. -/
def flushRead (s : BufferedFdInput) (maxRead : ℕ) (reads : List (List UInt8)) (fails : Bool) :
    Option (BufferedFdInput × Option ℕ) :=
  (readLoop reads fails maxRead s 0).bind fun (s, result) =>
    match result with
    | none => some (s, none)
    | some result =>
      if result ≠ 0 then s.syncWithWriter.map fun s => (s, some result)
      else some (s, some result)

def step (s : BufferedFdInput) : Op → Option (BufferedFdInput × Answer)
  | .flushRead maxRead reads fails => (s.flushRead maxRead reads fails).map fun (s, result) => (s, .flushed result)
  | .advance offset =>
    (s.inputReader.advance s.inputWriter offset offset).map fun (reader, _, bytes) =>
      ({ s with inputReader := reader, taken := s.taken ++ bytes }, .taken bytes)
  | .syncWithWriter => s.syncWithWriter.map fun s => (s, .none)

def machine : Machine BufferedFdInput Op Answer := ⟨step⟩

/-- The bytes that `input_buffer()` shows. -/
def shown (s : BufferedFdInput) : Option (List UInt8) :=
  (s.inputReader.moveAsBufferSlice s.inputWriter).map fun (_, bytes) => bytes

/-- Every byte that was read is shown, unless it was taken. -/
def ShowsAll (s : BufferedFdInput) : Prop := ∃ bytes, s.shown = some bytes ∧ s.taken ++ bytes = s.received

/-- In a run, `input_buffer()` shows everything whenever `flush_read` has returned. -/
def ShowsAlways (s₀ : BufferedFdInput) (ops : List Op) : Prop :=
  ∀ before maxRead reads fails after, ops = before ++ .flushRead maxRead reads fails :: after →
    ∀ s answers, machine.run s₀ (before ++ [.flushRead maxRead reads fails]) = some (s, answers) → s.ShowsAll

/-- No read fails behind a read of the same call that gave bytes.  A call reads no further than `max_read`. -/
def Op.Spares : Op → Prop
  | .flushRead maxRead reads fails => ¬ (fails = true ∧ 0 < reads.flatten.length ∧ reads.flatten.length < maxRead)
  | _ => True

instance : DecidablePred Op.Spares := fun op => by
  cases op <;> unfold Op.Spares <;> infer_instance

/-! ### The invariant -/

variable {s t : BufferedFdInput} {limit : ℕ}

/-- The reader sees the stream up to `limit`, from behind what was taken. -/
structure Inv (s : BufferedFdInput) (limit : ℕ) : Prop where
  ok : Ok s.inputWriter
  contents : s.inputWriter.contents = s.received
  reads : Reads s.inputWriter s.inputReader ⟨s.taken.length, limit, true⟩
  taken : s.taken = s.received.take s.taken.length
  le : s.taken.length ≤ limit
  limit_le : limit ≤ s.received.length

theorem Inv.showsAll_iff (hinv : Inv s limit) : s.ShowsAll ↔ limit = s.received.length := by
  have hmove := hinv.reads.moveAsBufferSlice hinv.ok
  rw [hinv.contents] at hmove
  have hle := hinv.le
  have hlimit := hinv.limit_le
  have hshown : s.shown = some ((s.received.drop s.taken.length).take (limit - s.taken.length)) := by
    unfold shown
    rw [hmove]
    rfl
  have hsplit : s.taken ++ s.received.drop s.taken.length = s.received := by
    calc s.taken ++ s.received.drop s.taken.length
        = s.received.take s.taken.length ++ s.received.drop s.taken.length := by rw [← hinv.taken]
      _ = s.received := List.take_append_drop _ _
  unfold ShowsAll
  rw [hshown]
  constructor
  · rintro ⟨bytes, hbytes, heq⟩
    obtain rfl := Option.some.inj hbytes
    have hlen := congrArg List.length heq
    simp only [List.length_append, List.length_take, List.length_drop] at hlen
    omega
  · intro heq
    refine ⟨_, rfl, ?_⟩
    rw [List.take_of_length_le (by rw [List.length_drop]; omega)]
    exact hsplit

theorem Inv.sync (hinv : Inv s limit) : ∃ t, s.syncWithWriter = some t ∧ Inv t t.received.length ∧
    t.received = s.received := by
  obtain ⟨reader, hrun, hreads⟩ := hinv.reads.sync hinv.ok
  refine ⟨{ s with inputReader := reader }, ?_, ⟨hinv.ok, hinv.contents, ?_, hinv.taken, ?_, Nat.le_refl _⟩, rfl⟩
  · unfold syncWithWriter
    rw [hrun]
    rfl
  · rw [hinv.contents] at hreads
    exact hreads
  · exact Nat.le_trans hinv.le hinv.limit_le

theorem Inv.append (hinv : Inv s limit) {c : ChainBuffer} {bytes : List UInt8} (hc : Appends s.inputWriter c bytes) :
    Inv { s with inputWriter := c, received := s.received ++ bytes } limit := by
  have hle : s.taken.length ≤ s.received.length := Nat.le_trans hinv.le hinv.limit_le
  refine ⟨hc.ok, ?_, hinv.reads.of_extends hinv.ok hc.extends, ?_, hinv.le, ?_⟩
  · rw [← hinv.contents]
    exact hc.contents
  · change s.taken = (s.received ++ bytes).take s.taken.length
    rw [List.take_append_of_le_length hle]
    exact hinv.taken
  · change limit ≤ (s.received ++ bytes).length
    rw [List.length_append]
    exact Nat.le_trans hinv.limit_le (Nat.le_add_right _ _)

/-! ### `flush_read` -/

/-- What the loop does: it puts bytes behind the stream, and returns their number, unless a read fails, which is
one behind all that were given. -/
theorem Inv.readLoop {fails : Bool} : ∀ {reads : List (List UInt8)} {maxRead : ℕ} {s : BufferedFdInput} {result : ℕ}
    {answer : Option ℕ}, Inv s limit → readLoop reads fails maxRead s result = some (t, answer) →
    ∃ added, Inv t limit ∧ t.received = s.received ++ added ∧
      (answer = some (result + added.length) ∧ (fails = true → maxRead ≤ reads.flatten.length) ∨
        answer = none ∧ fails = true ∧ added = reads.flatten ∧ reads.flatten.length < maxRead)
  | [], maxRead, s, result, answer, hinv, h => by
    unfold BufferedFdInput.readLoop at h
    split_ifs at h with hfails
    · obtain ⟨rfl, rfl⟩ := Prod.mk.inj (Option.some.inj h)
      have hprepared := hinv.append (appends_prepare hinv.ok 0)
      rw [List.append_nil] at hprepared
      exact ⟨[], hprepared, (List.append_nil _).symm, .inr ⟨rfl, hfails.1, rfl, Nat.pos_of_ne_zero hfails.2⟩⟩
    · obtain ⟨rfl, rfl⟩ := Prod.mk.inj (Option.some.inj h)
      refine ⟨[], hinv, (List.append_nil _).symm, .inl ⟨rfl, fun htrue => ?_⟩⟩
      by_contra hpos
      exact hfails ⟨htrue, fun hzero => hpos (hzero ▸ Nat.zero_le _)⟩
  | bytes :: reads, maxRead, s, result, answer, hinv, h => by
    unfold BufferedFdInput.readLoop at h
    split_ifs at h with hzero
    · obtain ⟨rfl, rfl⟩ := Prod.mk.inj (Option.some.inj h)
      exact ⟨[], hinv, (List.append_nil _).symm, .inl ⟨rfl, fun _ => hzero ▸ Nat.zero_le _⟩⟩
    · dsimp only at h
      split_ifs at h with hfits
      obtain ⟨c, hconfirm, hrest⟩ := Option.bind_eq_some_iff.mp h
      have hprepare := appends_prepare hinv.ok 0
      have hadded := hprepare.trans (appends_confirm hprepare.ok hconfirm)
      rw [List.nil_append] at hadded
      obtain ⟨added, hinv', hreceived, hanswer⟩ := (hinv.append hadded).readLoop hrest
      refine ⟨bytes ++ added, hinv', by rw [hreceived, List.append_assoc], ?_⟩
      rw [List.flatten_cons, List.length_append, List.length_append]
      rcases hanswer with ⟨rfl, hread⟩ | ⟨rfl, hfails, rfl, hlt⟩
      · refine .inl ⟨by rw [Nat.add_assoc], fun hfails => ?_⟩
        have := hread hfails
        omega
      · exact .inr ⟨rfl, hfails, rfl, by omega⟩

/-- A call that spares what it has read shows it, and a call that does not leaves it unseen. -/
theorem Inv.flushRead (hinv : Inv s limit) {maxRead : ℕ} {reads : List (List UInt8)} {fails : Bool}
    {answer : Option ℕ} (h : s.flushRead maxRead reads fails = some (t, answer)) :
    ∃ limit', Inv t limit' ∧ (Op.Spares (.flushRead maxRead reads fails) → limit = s.received.length →
        limit' = t.received.length) ∧
      (¬ Op.Spares (.flushRead maxRead reads fails) → limit' < t.received.length) := by
  unfold BufferedFdInput.flushRead at h
  obtain ⟨⟨u, result⟩, hloop, h⟩ := Option.bind_eq_some_iff.mp h
  obtain ⟨added, hinv', hreceived, ⟨rfl, hread⟩ | ⟨rfl, hfails, rfl, hlt⟩⟩ := hinv.readLoop hloop
  · have hspares : Op.Spares (.flushRead maxRead reads fails) := fun hlost => by
      have := hread hlost.1
      omega
    dsimp only at h
    rw [Nat.zero_add] at h
    split_ifs at h with hzero
    · obtain ⟨v, hsync, heq⟩ := Option.map_eq_some_iff.mp h
      obtain ⟨rfl, -⟩ := Prod.mk.inj heq
      obtain ⟨w, hsync', hw, -⟩ := hinv'.sync
      obtain rfl := Option.some.inj (hsync.symm.trans hsync')
      exact ⟨_, hw, fun _ _ => rfl, fun hnot => absurd hspares hnot⟩
    · obtain ⟨rfl, -⟩ := Prod.mk.inj (Option.some.inj h)
      obtain rfl : added = [] := List.eq_nil_of_length_eq_zero (not_not.mp hzero)
      refine ⟨limit, hinv', fun _ hall => ?_, fun hnot => absurd hspares hnot⟩
      rw [hreceived, List.append_nil, hall]
  · obtain ⟨rfl, -⟩ := Prod.mk.inj (Option.some.inj h)
    have hlimit := hinv.limit_le
    refine ⟨limit, hinv', fun hspares hall => ?_, fun hlost => ?_⟩
    · have hnil : reads.flatten = [] := by
        by_contra hne
        exact hspares ⟨hfails, List.length_pos_iff.mpr hne, hlt⟩
      rw [hreceived, hnil, List.append_nil, hall]
    · obtain ⟨-, hpos, -⟩ := not_not.mp hlost
      rw [hreceived, List.length_append]
      omega

/-! ### Runs -/

theorem Inv.step (hinv : Inv s limit) {op : Op} {answer : Answer} (h : s.step op = some (t, answer)) :
    ∃ limit', Inv t limit' ∧ (op.Spares → limit = s.received.length → limit' = t.received.length) ∧
      (¬ op.Spares → limit' < t.received.length) := by
  cases op with
  | flushRead maxRead reads fails =>
    obtain ⟨⟨u, result⟩, hflush, heq⟩ := Option.map_eq_some_iff.mp h
    cases heq
    exact hinv.flushRead hflush
  | advance offset =>
    obtain ⟨⟨reader, skipped, bytes⟩, hadvance, heq⟩ := Option.map_eq_some_iff.mp h
    cases heq
    have hsize : offset ≤ limit - s.taken.length := by
      have hsize := hinv.reads.size_eq
      unfold ChainBufferReader.advance at hadvance
      split_ifs at hadvance with hle
      rw [hsize] at hle
      exact hle
    have hle := hinv.le
    have hlimit := hinv.limit_le
    obtain ⟨reader', hadvance', hreads⟩ := hinv.reads.advance hinv.ok offset hsize
    obtain ⟨rfl, hrest⟩ := Prod.mk.inj (Option.some.inj (hadvance.symm.trans hadvance'))
    obtain ⟨-, rfl⟩ := Prod.mk.inj hrest
    have hbytes : s.taken ++ Cursor.peek ⟨s.taken.length, limit, true⟩ s.inputWriter.contents (min offset offset) =
        s.received.take (s.taken.length + offset) := by
      rw [Nat.min_self, hinv.contents, List.take_add, ← hinv.taken]
      rfl
    have hlen : (s.received.take (s.taken.length + offset)).length = s.taken.length + offset := by
      rw [List.length_take]
      omega
    refine ⟨limit, ⟨hinv.ok, hinv.contents, ?_, ?_, ?_, hlimit⟩, fun _ hall => hall, fun hnot => absurd trivial hnot⟩
    · dsimp only
      rw [hbytes, hlen]
      exact hreads
    · dsimp only
      rw [hbytes, hlen]
    · dsimp only
      rw [hbytes, hlen]
      omega
  | syncWithWriter =>
    obtain ⟨u, hsync, heq⟩ := Option.map_eq_some_iff.mp h
    cases heq
    obtain ⟨v, hsync', hv, -⟩ := hinv.sync
    obtain rfl := Option.some.inj (hsync.symm.trans hsync')
    exact ⟨_, hv, fun _ _ => rfl, fun hnot => absurd trivial hnot⟩

theorem exists_start : ∃ s, start = some s ∧ Inv s s.received.length := by
  obtain ⟨reader, hextract, hreads⟩ := Chain.extractReader_spec ok_init rfl
  have hhead := appends_head ok_init
  refine ⟨⟨{ ChainBuffer.init with head := false }, reader, [], []⟩, ?_, hhead.ok, rfl,
    hreads.of_extends ok_init hhead.extends, rfl, Nat.le_refl _, Nat.le_refl _⟩
  unfold start
  rw [hextract]
  rfl

/-- What a run keeps, and what it keeps if all its calls spare what they have read. -/
theorem run_inv (ops : List Op) : ∀ {s t : BufferedFdInput} {limit : ℕ} {answers : List Answer}, Inv s limit →
    machine.run s ops = some (t, answers) → ∃ limit', Inv t limit' ∧
      ((∀ op ∈ ops, op.Spares) → limit = s.received.length → limit' = t.received.length) := by
  induction ops with
  | nil =>
    intro s t limit answers hinv h
    cases h
    exact ⟨limit, hinv, fun _ hall => hall⟩
  | cons op ops ih =>
    intro s t limit answers hinv h
    obtain ⟨u, answer, rest, hstep, hrun, -⟩ := Machine.run_cons_inv h
    obtain ⟨limit₁, hinv₁, hspares, -⟩ := hinv.step hstep
    obtain ⟨limit₂, hinv₂, hrest⟩ := ih hinv₁ hrun
    refine ⟨limit₂, hinv₂, fun hall hlimit => ?_⟩
    obtain ⟨hop, hops⟩ := List.forall_mem_cons.mp hall
    exact hrest hops (hspares hop hlimit)

/-- In every run, everything that was read is shown whenever `flush_read` has returned, if and only if no read ever
fails behind a read of the same call that gave bytes. -/
theorem showsAlways_iff (ops : List Op) : ∃ s₀, start = some s₀ ∧
    ∀ s answers, machine.run s₀ ops = some (s, answers) → (ShowsAlways s₀ ops ↔ ∀ op ∈ ops, op.Spares) := by
  obtain ⟨s₀, hstart, hs₀⟩ := exists_start
  refine ⟨s₀, hstart, fun s answers hrun => ⟨fun hshows op hop => ?_, fun hspares => ?_⟩⟩
  · by_contra hlost
    cases op with
    | flushRead maxRead reads fails =>
      obtain ⟨before, after, rfl⟩ := List.append_of_mem hop
      obtain ⟨t, os, ps, hbefore, hrest, -⟩ := Machine.run_append_inv hrun
      obtain ⟨u, answer, rest, hstep, -, -⟩ := Machine.run_cons_inv hrest
      obtain ⟨limit, hinv, -⟩ := run_inv before hs₀ hbefore
      have hflush : t.step (.flushRead maxRead reads fails) = some (u, answer) := hstep
      obtain ⟨limit', hinv', -, hunseen⟩ := hinv.step hflush
      have hall := hshows before maxRead reads fails after rfl u _ (Machine.run_concat_of hbefore hstep)
      have hseen := hinv'.showsAll_iff.mp hall
      have := hunseen hlost
      omega
    | advance offset => exact hlost trivial
    | syncWithWriter => exact hlost trivial
  · rintro before maxRead reads fails after rfl t answers' hrun'
    obtain ⟨limit, hinv, hkept⟩ := run_inv _ hs₀ hrun'
    refine hinv.showsAll_iff.mpr (hkept (fun op hop => hspares op ?_) rfl)
    rcases List.mem_append.mp hop with hop | hop
    · exact List.mem_append_left _ hop
    · rw [List.mem_singleton.mp hop]
      exact List.mem_append_right _ List.mem_cons_self

/-- Two calls, the second of which fails at once, and a byte that is taken between them. -/
theorem showsAlways_iff_failed : ∃ s₀ s answers, start = some s₀ ∧
    machine.run s₀ [.flushRead 5 [[1, 2], [3]] false, .advance 1, .flushRead 9 [] true] = some (s, answers) ∧
    (ShowsAlways s₀ [.flushRead 5 [[1, 2], [3]] false, .advance 1, .flushRead 9 [] true] ↔
      ∀ op ∈ [Op.flushRead 5 [[1, 2], [3]] false, .advance 1, .flushRead 9 [] true], op.Spares) := by
  obtain ⟨s₀, hstart, hiff⟩ := showsAlways_iff [.flushRead 5 [[1, 2], [3]] false, .advance 1, .flushRead 9 [] true]
  have hsome : (start.bind fun s₀ =>
      machine.run s₀ [.flushRead 5 [[1, 2], [3]] false, .advance 1, .flushRead 9 [] true]).isSome = true := by decide
  obtain ⟨⟨s, answers⟩, hrun⟩ := Option.isSome_iff_exists.mp hsome
  rw [hstart, Option.bind_some] at hrun
  exact ⟨s₀, s, answers, hstart, hrun, hiff s answers hrun⟩

/-- A read that fails behind one that gave three bytes leaves them unseen. -/
theorem failed_flush_hides : ∃ s₀ s answers, start = some s₀ ∧
    machine.run s₀ [.flushRead 9 [[1, 2, 3]] true] = some (s, answers) ∧ ¬ s.ShowsAll := by
  obtain ⟨s₀, hstart, -⟩ := exists_start
  have hsome : ((start.bind fun s₀ => machine.run s₀ [.flushRead 9 [[1, 2, 3]] true]).map fun r =>
      (r.1.shown, r.1.taken, r.1.received)) = some (some [], [], [1, 2, 3]) := by decide
  obtain ⟨⟨s, answers⟩, hrun, heq⟩ := Option.map_eq_some_iff.mp hsome
  rw [hstart, Option.bind_some] at hrun
  obtain ⟨hshown, hrest⟩ := Prod.mk.inj heq
  obtain ⟨htaken, hreceived⟩ := Prod.mk.inj hrest
  refine ⟨s₀, s, answers, hstart, hrun, ?_⟩
  rintro ⟨bytes, hbytes, hall⟩
  obtain rfl := Option.some.inj (hshown.symm.trans hbytes)
  rw [htaken, hreceived] at hall
  cases hall

end BufferedFdInput

end TdUtils
