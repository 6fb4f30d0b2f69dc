import TdUtils.Buffer.Writer
import TdUtils.Lib.Machine

/-!
# Buffer.Chain — one writer and its readers: every reader reads one stream

`Chain` is the machine of the calls, `Fifo` what they are for: one stream of bytes and cursors on it.
-/

namespace TdUtils

open ChainBuffer

/-- The readers are named by their numbers. -/
structure Chain where
  buffer : ChainBuffer
  readers : List ChainBufferReader
deriving DecidableEq

namespace Chain

inductive Op where
  | append (slice : List UInt8) (hint : UInt64)
  | appendBuffer (bytes : List UInt8)
  | appendReader (r : ℕ)
  | prepareAppend (hint : UInt64)
  | prepareAppendAtLeast (size : UInt64)
  | prepareAppendAlloc (hint : UInt64)
  | confirmAppend (bytes : List UInt8)
  | extractReader
  | clone (r : ℕ)
  | cutHead (r offset : ℕ)
  | syncWithWriter (r : ℕ)
  | size (r : ℕ)
  | prepareRead (r : ℕ)
  | confirmRead (r size : ℕ)
  | advance (r offset dest : ℕ)
  | readAsBufferSlice (r limit : ℕ)
  | moveAsBufferSlice (r : ℕ)
deriving DecidableEq

inductive Answer where
  | none
  | size (n : ℕ)
  | bytes (bytes : List UInt8)
  | advanced (n : ℕ) (copied : List UInt8)
deriving DecidableEq

/-- Put a reader that has been used back. -/
def setReader (s : Chain) (r : ℕ) (reader : ChainBufferReader) : Chain :=
  { s with readers := s.readers.set r reader }

def step (s : Chain) : Op → Option (Chain × Answer)
  | .append slice hint => (s.buffer.append slice hint.toNat).map fun c => ({ s with buffer := c }, .none)
  | .appendBuffer bytes =>
    let (c, slice) := s.buffer.newSlice bytes
    (c.appendBuffer slice).map fun c => ({ s with buffer := c }, .none)
  | .appendReader r =>
    s.readers[r]?.bind fun reader => (s.buffer.appendReader reader).map fun (c, reader) =>
      (setReader { s with buffer := c } r reader, .none)
  | .prepareAppend hint =>
    let c := s.buffer.prepareAppend hint.toNat
    some ({ s with buffer := c }, .size c.prepareAppendInplace)
  | .prepareAppendAtLeast size =>
    let c := s.buffer.prepareAppendAtLeast size.toNat
    some ({ s with buffer := c }, .size c.prepareAppendInplace)
  | .prepareAppendAlloc hint =>
    let c := s.buffer.prepareAppendAlloc hint.toNat
    some ({ s with buffer := c }, .size c.prepareAppendInplace)
  | .confirmAppend bytes => (s.buffer.confirmAppend bytes).map fun c => ({ s with buffer := c }, .none)
  | .extractReader =>
    s.buffer.extractReader.map fun (c, reader) => (⟨c, s.readers ++ [reader]⟩, .none)
  | .clone r => s.readers[r]?.map fun reader => ({ s with readers := s.readers ++ [reader] }, .none)
  | .cutHead r offset =>
    s.readers[r]?.bind fun reader => (reader.cutHead s.buffer offset).map fun (reader, head) =>
      (⟨s.buffer, s.readers.set r reader ++ [head]⟩, .none)
  | .syncWithWriter r =>
    s.readers[r]?.bind fun reader => (reader.syncWithWriter s.buffer).map fun reader =>
      (s.setReader r reader, .none)
  | .size r => s.readers[r]?.map fun reader => (s, .size reader.size)
  | .prepareRead r =>
    s.readers[r]?.bind fun reader => (reader.prepareRead s.buffer).map fun (reader, slice) =>
      (s.setReader r reader, .bytes (slice.asSlice s.buffer.raws))
  | .confirmRead r size =>
    s.readers[r]?.bind fun reader => (reader.confirmRead size).map fun reader =>
      (s.setReader r reader, .none)
  | .advance r offset dest =>
    s.readers[r]?.bind fun reader => (reader.advance s.buffer offset dest).map
      fun (reader, skipped, copied) => (s.setReader r reader, .advanced skipped copied)
  | .readAsBufferSlice r limit =>
    s.readers[r]?.bind fun reader => (reader.readAsBufferSlice s.buffer limit).map
      fun (reader, slice) => (s.setReader r reader, .bytes (slice.asSlice s.buffer.raws))
  | .moveAsBufferSlice r =>
    s.readers[r]?.bind fun reader => (reader.moveAsBufferSlice s.buffer).map fun (reader, bytes) =>
      (s.setReader r reader, .bytes bytes)

def machine : Lib.Machine Chain Op Answer := ⟨step⟩

def start : Chain := ⟨.init, []⟩

/-- No object is larger than the greatest `ptrdiff_t`, not more is confirmed than was prepared, and not
more is read than is there. -/
def Allowed (s : Chain) : Op → Prop
  | .append slice _ => slice.length < 2 ^ 63
  | .confirmAppend bytes => bytes.length ≤ s.buffer.prepareAppendInplace
  | .extractReader => s.buffer.head = true
  | .cutHead r offset | .advance r offset _ => ∃ reader, s.readers[r]? = some reader ∧ offset ≤ reader.size
  | .confirmRead r size => ∃ reader, s.readers[r]? = some reader ∧ size ≤ reader.size ∧
      size ≤ reader.begin_.reader.size
  | .appendReader r | .clone r | .syncWithWriter r | .size r | .prepareRead r | .readAsBufferSlice r _ |
    .moveAsBufferSlice r => r < s.readers.length
  | .appendBuffer _ | .prepareAppend _ | .prepareAppendAtLeast _ | .prepareAppendAlloc _ => True

/-- The size of a buffer does not wrap when it is rounded up and the header is added, or no new buffer is needed. -/
def Fits (s : Chain) : Op → Prop
  | .append slice hint => hint.toNat ≤ 2 ^ 64 - 40 ∨ slice.length ≤ s.buffer.prepareAppendInplace
  | .prepareAppend hint => hint.toNat ≤ 2 ^ 64 - 40 ∨ 0 < s.buffer.prepareAppendInplace
  | .prepareAppendAtLeast size => size.toNat ≤ 2 ^ 64 - 40 ∨ size.toNat ≤ s.buffer.prepareAppendInplace
  | .prepareAppendAlloc hint => hint.toNat ≤ 2 ^ 64 - 40
  | _ => True

/-! ### The abstract chain -/

structure Fifo where
  stream : List UInt8
  cursors : List Cursor
deriving DecidableEq

/-- What the calls do to the stream and to the cursors, and what they answer. -/
inductive Change : Fifo → Op → Answer → Fifo → Prop
  | append (f : Fifo) (slice : List UInt8) (hint : UInt64) :
    Change f (.append slice hint) .none { f with stream := f.stream ++ slice }
  | appendBuffer (f : Fifo) (bytes : List UInt8) :
    Change f (.appendBuffer bytes) .none { f with stream := f.stream ++ bytes }
  | appendReader {f : Fifo} {r : ℕ} {cursor : Cursor} (h : f.cursors[r]? = some cursor) :
    Change f (.appendReader r) .none
      ⟨f.stream ++ cursor.peek f.stream cursor.size, f.cursors.set r (cursor.move cursor.size)⟩
  | prepareAppend (f : Fifo) (hint : UInt64) (n : ℕ) : Change f (.prepareAppend hint) (.size n) f
  | prepareAppendAtLeast (f : Fifo) (size : UInt64) (n : ℕ) :
    Change f (.prepareAppendAtLeast size) (.size n) f
  | prepareAppendAlloc (f : Fifo) (hint : UInt64) (n : ℕ) :
    Change f (.prepareAppendAlloc hint) (.size n) f
  | confirmAppend (f : Fifo) (bytes : List UInt8) :
    Change f (.confirmAppend bytes) .none { f with stream := f.stream ++ bytes }
  | extractReader (f : Fifo) :
    Change f .extractReader .none { f with cursors := f.cursors ++ [⟨0, f.stream.length, true⟩] }
  | clone {f : Fifo} {r : ℕ} {cursor : Cursor} (h : f.cursors[r]? = some cursor) :
    Change f (.clone r) .none { f with cursors := f.cursors ++ [cursor] }
  | cutHead {f : Fifo} {r offset : ℕ} {cursor : Cursor} (h : f.cursors[r]? = some cursor)
    (hoffset : offset ≤ cursor.size) :
    Change f (.cutHead r offset) .none { f with
      cursors := f.cursors.set r (cursor.move offset) ++ [⟨cursor.pos, cursor.pos + offset, false⟩] }
  | syncWithWriter {f : Fifo} {r : ℕ} {cursor : Cursor} (h : f.cursors[r]? = some cursor) :
    Change f (.syncWithWriter r) .none { f with cursors := f.cursors.set r (cursor.sync f.stream) }
  | size {f : Fifo} {r : ℕ} {cursor : Cursor} (h : f.cursors[r]? = some cursor) :
    Change f (.size r) (.size (cursor.limit - cursor.pos)) f
  | prepareRead {f : Fifo} {r n : ℕ} {cursor : Cursor} (h : f.cursors[r]? = some cursor)
    (hn : n ≤ cursor.size) (hpos : 0 < cursor.size → 0 < n) :
    Change f (.prepareRead r) (.bytes (cursor.peek f.stream n)) f
  | confirmRead {f : Fifo} {r size : ℕ} {cursor : Cursor} (h : f.cursors[r]? = some cursor)
    (hsize : size ≤ cursor.size) :
    Change f (.confirmRead r size) .none { f with cursors := f.cursors.set r (cursor.move size) }
  | advance {f : Fifo} {r offset : ℕ} {cursor : Cursor} (dest : ℕ) (h : f.cursors[r]? = some cursor)
    (hoffset : offset ≤ cursor.size) :
    Change f (.advance r offset dest) (.advanced offset (cursor.peek f.stream (min offset dest)))
      { f with cursors := f.cursors.set r (cursor.move offset) }
  | readAsBufferSlice {f : Fifo} {r limit n : ℕ} {cursor : Cursor} (h : f.cursors[r]? = some cursor)
    (hn : n ≤ min limit cursor.size) (hpos : 0 < min limit cursor.size → 0 < n) :
    Change f (.readAsBufferSlice r limit) (.bytes (cursor.peek f.stream n))
      { f with cursors := f.cursors.set r (cursor.move n) }
  | moveAsBufferSlice {f : Fifo} {r : ℕ} {cursor : Cursor} (h : f.cursors[r]? = some cursor) :
    Change f (.moveAsBufferSlice r) (.bytes (cursor.peek f.stream cursor.size))
      { f with cursors := f.cursors.set r cursor.done }

/-- A whole run of the abstract chain. -/
inductive Follows : List (Op × Answer) → Fifo → Prop
  | nil : Follows [] ⟨[], []⟩
  | concat {events : List (Op × Answer)} {f f' : Fifo} {op : Op} {answer : Answer}
    (h : Follows events f) (hchange : Change f op answer f') : Follows (events ++ [(op, answer)]) f'

/-! ### The refinement -/

structure Refines (s : Chain) (f : Fifo) : Prop where
  ok : Ok s.buffer
  roomy : Roomy s.buffer
  stream : s.buffer.contents = f.stream
  length : s.readers.length = f.cursors.length
  reads : ∀ (r : ℕ) (reader : ChainBufferReader) (cursor : Cursor), s.readers[r]? = some reader →
    f.cursors[r]? = some cursor → Reads s.buffer reader cursor

variable {s : Chain} {f : Fifo} {c : ChainBuffer} {bytes : List UInt8} {r : ℕ}
  {reader : ChainBufferReader} {cursor : Cursor}

theorem Refines.appends (h : Refines s f) (hc : Appends s.buffer c bytes) (hroomy : Roomy c) :
    Refines { s with buffer := c } { f with stream := f.stream ++ bytes } := by
  refine ⟨hc.ok, hroomy, ?_, h.length, ?_⟩
  · rw [← h.stream]
    exact hc.contents
  · intro r reader cursor hreader hcursor
    exact (h.reads r reader cursor hreader hcursor).of_extends h.ok hc.extends

theorem Refines.set (h : Refines s f) (hreads : Reads s.buffer reader cursor) :
    Refines (s.setReader r reader) { f with cursors := f.cursors.set r cursor } := by
  refine ⟨h.ok, h.roomy, h.stream, ?_, ?_⟩
  · unfold setReader
    rw [List.length_set, List.length_set]
    exact h.length
  · intro r' reader' cursor' hreader' hcursor'
    unfold setReader at hreader'
    dsimp only at hreader' hcursor'
    rw [List.getElem?_set] at hreader' hcursor'
    split_ifs at hreader' hcursor' with hr hr₁ hr₂
    · cases hreader'
      cases hcursor'
      exact hreads
    · exact h.reads r' reader' cursor' hreader' hcursor'

theorem Refines.push (h : Refines s f) (hreads : Reads s.buffer reader cursor) :
    Refines { s with readers := s.readers ++ [reader] } { f with cursors := f.cursors ++ [cursor] } := by
  refine ⟨h.ok, h.roomy, h.stream, ?_, ?_⟩
  · rw [List.length_append, List.length_append, h.length]
    rfl
  · intro r reader' cursor' hreader' hcursor'
    by_cases hr : r < s.readers.length
    · rw [List.getElem?_append_left hr] at hreader'
      rw [List.getElem?_append_left (h.length ▸ hr)] at hcursor'
      exact h.reads r reader' cursor' hreader' hcursor'
    · rw [List.getElem?_append_right (Nat.le_of_not_lt hr)] at hreader'
      rw [List.getElem?_append_right (h.length ▸ Nat.le_of_not_lt hr), ← h.length] at hcursor'
      obtain ⟨hzero, rfl⟩ := List.getElem?_eq_some_iff.mp hreader'
      obtain ⟨hzero', rfl⟩ := List.getElem?_eq_some_iff.mp hcursor'
      rw [List.getElem_singleton, List.getElem_singleton]
      exact hreads

theorem Refines.head_taken (h : Refines s f) :
    Refines { s with buffer := { s.buffer with head := false } } f := by
  have happends := appends_head h.ok
  exact ⟨happends.ok, h.roomy, h.stream, h.length, fun r reader cursor hreader hcursor =>
    (h.reads r reader cursor hreader hcursor).of_extends h.ok happends.extends⟩

theorem Refines.exists_reads (h : Refines s f) (hr : r < s.readers.length) :
    ∃ reader cursor, s.readers[r]? = some reader ∧ f.cursors[r]? = some cursor ∧
      Reads s.buffer reader cursor := by
  have hr' : r < f.cursors.length := h.length ▸ hr
  have hreader : s.readers[r]? = some s.readers[r] := List.getElem?_eq_getElem hr
  have hcursor : f.cursors[r]? = some f.cursors[r] := List.getElem?_eq_getElem hr'
  exact ⟨_, _, hreader, hcursor, h.reads r _ _ hreader hcursor⟩

theorem Refines.exists_cursor (h : Refines s f) (hreader : s.readers[r]? = some reader) :
    ∃ cursor, f.cursors[r]? = some cursor ∧ Reads s.buffer reader cursor := by
  obtain ⟨hr, -⟩ := List.getElem?_eq_some_iff.mp hreader
  obtain ⟨reader', cursor, hreader', hcursor, hreads⟩ := h.exists_reads hr
  obtain rfl := Option.some.inj (hreader.symm.trans hreader')
  exact ⟨cursor, hcursor, hreads⟩

/-! ### Steps -/

/-- The step is answered as the abstract chain answers it. -/
def Answered (s : Chain) (f : Fifo) (op : Op) : Prop :=
  ∃ s' answer f', step s op = some (s', answer) ∧ Refines s' f' ∧ Change f op answer f'

theorem extractReader_spec (hok : Ok c) (hhead : c.head = true) :
    ∃ reader, c.extractReader = some ({ c with head := false }, reader) ∧
      Reads c reader ⟨0, c.contents.length, true⟩ := by
  obtain ⟨init, tail, hnodes, -⟩ := hok.tail
  have hpos : 0 < c.nodes.length := by
    rw [hnodes, List.length_append, List.length_singleton]
    omega
  have hnode : c.nodes[0]? = some c.nodes[0] := List.getElem?_eq_getElem hpos
  obtain ⟨hle, hlast⟩ := hok.slice _ (List.getElem_mem hpos)
  have hat : At c (.ofHead c 0) 0 c.nodes[0] := by
    unfold ChainBufferIterator.ofHead ChainBufferIterator.loadHead
    rw [Option.bind_some, hnode]
    refine ⟨rfl, hnode, rfl, rfl, Nat.le_refl _, hle, hlast, fun _ => rfl, ?_⟩
    dsimp only
    rw [Nat.sub_self]
    rfl
  have hoffset : (ChainBufferIterator.ofHead c 0).offset = 0 := by
    have hat' := hat.offset
    unfold ChainBufferIterator.ofHead ChainBufferIterator.loadHead
    rw [Option.bind_some, hnode]
    rfl
  obtain ⟨it, hrun, hplaced, hend⟩ := advanceTillEnd_spec hok ⟨0, _, hat⟩
  refine ⟨⟨.ofHead c 0, it, true⟩, ?_, Or.inl ⟨⟨0, _, hat⟩, hplaced, hoffset, hend, Nat.zero_le _, rfl⟩⟩
  unfold extractReader ChainBufferReader.ofHead
  rw [if_pos hhead, hrun]
  rfl

theorem Refines.append (h : Refines s f) {slice : List UInt8} {hint : UInt64}
    (hlen : slice.length < 2 ^ 63)
    (hfits : hint.toNat ≤ 2 ^ 64 - 40 ∨ slice.length ≤ s.buffer.prepareAppendInplace) :
    Answered s f (.append slice hint) := by
  obtain ⟨c, hrun, hc, hroomy⟩ := append_spec h.ok h.roomy slice hint.toNat (by omega)
  exact ⟨{ s with buffer := c }, .none, _, congrArg (Option.map _) hrun, h.appends hc hroomy,
    .append f slice hint⟩

theorem Refines.appendBuffer (h : Refines s f) (bytes : List UInt8) :
    Answered s f (.appendBuffer bytes) := by
  obtain ⟨hnew, hvalid, hslice, -⟩ := appends_newSlice h.ok bytes
  obtain ⟨c, hrun, hc, hroomy⟩ := appendBuffer_spec hnew.ok (h.roomy.newSlice h.ok bytes) (Or.inl hvalid)
  rw [hslice] at hc
  exact ⟨{ s with buffer := c }, .none, _, congrArg (Option.map _) hrun, h.appends (hnew.trans hc) hroomy,
    .appendBuffer f bytes⟩

theorem Refines.appendReader (h : Refines s f) (hr : r < s.readers.length) :
    Answered s f (.appendReader r) := by
  obtain ⟨reader, cursor, hreader, hcursor, hreads⟩ := h.exists_reads hr
  obtain ⟨c, reader', hrun, hc, hreads', hroomy⟩ := appendReader_spec h.ok h.roomy hreads
  rw [h.stream] at hc
  refine ⟨setReader { s with buffer := c } r reader', .none, _, ?_,
    (h.appends hc hroomy).set hreads', .appendReader hcursor⟩
  show (s.readers[r]?.bind _) = _
  rw [hreader, Option.bind_some, hrun]
  rfl

/-- A call that only uses one reader. -/
theorem Refines.use (h : Refines s f) {op : Op} (answer : Answer) (hreads : Reads s.buffer reader cursor)
    (hstep : step s op = some (s.setReader r reader, answer))
    (hchange : Change f op answer { f with cursors := f.cursors.set r cursor }) :
    Answered s f op :=
  ⟨_, answer, _, hstep, h.set hreads, hchange⟩

theorem Refines.cutHead (h : Refines s f) {offset : ℕ} (hreader : s.readers[r]? = some reader)
    (hoffset : offset ≤ reader.size) : Answered s f (.cutHead r offset) := by
  obtain ⟨cursor, hcursor, hreads⟩ := h.exists_cursor hreader
  rw [hreads.size_eq] at hoffset
  obtain ⟨reader', head, hrun, htail, hhead⟩ := hreads.cutHead h.ok hoffset
  refine ⟨_, .none, _, ?_, (h.set (r := r) htail).push hhead, .cutHead hcursor hoffset⟩
  show (s.readers[r]?.bind _) = _
  rw [hreader, Option.bind_some, hrun]
  rfl

theorem set_same {cursors : List Cursor} (hcursor : cursors[r]? = some cursor) :
    cursors.set r cursor = cursors := by
  obtain ⟨hr, rfl⟩ := List.getElem?_eq_some_iff.mp hcursor
  exact List.set_getElem_self hr

theorem Refines.prepareRead (h : Refines s f) (hr : r < s.readers.length) :
    Answered s f (.prepareRead r) := by
  obtain ⟨reader, cursor, hreader, hcursor, hreads⟩ := h.exists_reads hr
  obtain ⟨reader', slice, n, hrun, hreads', hn, hpos, -, -, hslice⟩ := hreads.prepareRead h.ok
  rw [h.stream] at hslice
  refine h.use (r := r) (.bytes (cursor.peek f.stream n)) hreads' ?_ ?_
  · show (s.readers[r]?.bind _) = _
    rw [hreader, Option.bind_some, hrun, ← hslice]
    rfl
  · rw [set_same hcursor]
    exact .prepareRead hcursor hn hpos

theorem Refines.readAsBufferSlice (h : Refines s f) (hr : r < s.readers.length) (limit : ℕ) :
    Answered s f (.readAsBufferSlice r limit) := by
  obtain ⟨reader, cursor, hreader, hcursor, hreads⟩ := h.exists_reads hr
  obtain ⟨reader', slice, hrun, hreads', -, hmax, hmin, hslice⟩ := hreads.readAsBufferSlice h.ok limit
  rw [h.stream] at hslice
  refine h.use (.bytes (cursor.peek f.stream slice.size)) hreads' ?_
    (.readAsBufferSlice hcursor hmax hmin)
  show (s.readers[r]?.bind _) = _
  rw [hreader, Option.bind_some, hrun, ← hslice]
  rfl

theorem Refines.step (h : Refines s f) {op : Op} (hallowed : Allowed s op) (hfits : Fits s op) :
    Answered s f op := by
  cases op with
  | append slice hint => exact h.append hallowed hfits
  | appendBuffer bytes => exact h.appendBuffer bytes
  | appendReader r => exact h.appendReader hallowed
  | prepareAppend hint =>
    have hc := h.appends (appends_prepare h.ok hint.toNat) (h.roomy.prepare hfits)
    rw [List.append_nil] at hc
    exact ⟨_, _, _, rfl, hc, .prepareAppend f hint _⟩
  | prepareAppendAtLeast size =>
    have hc := h.appends (appends_prepareAtLeast h.ok size.toNat) (h.roomy.prepareAtLeast hfits)
    rw [List.append_nil] at hc
    exact ⟨_, _, _, rfl, hc, .prepareAppendAtLeast f size _⟩
  | prepareAppendAlloc hint =>
    have hc := h.appends (appends_alloc h.ok hint.toNat) (roomy_alloc _ hfits)
    rw [List.append_nil] at hc
    exact ⟨_, _, _, rfl, hc, .prepareAppendAlloc f hint _⟩
  | confirmAppend bytes =>
    obtain ⟨c, hrun⟩ := h.roomy.exists_confirm hallowed
    have hc := h.appends (appends_confirm h.ok hrun) (h.roomy.confirm hrun)
    exact ⟨{ s with buffer := c }, .none, _, congrArg (Option.map _) hrun, hc,
      .confirmAppend f bytes⟩
  | extractReader =>
    obtain ⟨reader, hrun, hreads⟩ := extractReader_spec h.ok hallowed
    rw [h.stream] at hreads
    exact ⟨_, .none, _, congrArg (Option.map _) hrun, (h.push hreads).head_taken, .extractReader f⟩
  | clone r =>
    obtain ⟨reader, cursor, hreader, hcursor, hreads⟩ := h.exists_reads hallowed
    exact ⟨_, .none, _, congrArg (Option.map _) hreader, h.push hreads, .clone hcursor⟩
  | cutHead r offset =>
    obtain ⟨reader, hreader, hoffset⟩ := hallowed
    exact h.cutHead hreader hoffset
  | syncWithWriter r =>
    obtain ⟨reader, cursor, hreader, hcursor, hreads⟩ := h.exists_reads hallowed
    obtain ⟨reader', hrun, hreads'⟩ := hreads.sync h.ok
    rw [h.stream] at hreads'
    refine h.use .none hreads' ?_ (.syncWithWriter hcursor)
    show (s.readers[r]?.bind _) = _
    rw [hreader, Option.bind_some, hrun]
    rfl
  | size r =>
    obtain ⟨reader, cursor, hreader, hcursor, hreads⟩ := h.exists_reads hallowed
    refine ⟨s, .size (cursor.limit - cursor.pos), f, ?_, h, .size hcursor⟩
    have hsize : cursor.limit - cursor.pos = reader.size := hreads.size_eq.symm
    rw [hsize]
    exact congrArg (Option.map _) hreader
  | prepareRead r => exact h.prepareRead hallowed
  | confirmRead r size =>
    obtain ⟨reader, hreader, hsize, hshown⟩ := hallowed
    obtain ⟨cursor, hcursor, hreads⟩ := h.exists_cursor hreader
    rw [hreads.size_eq] at hsize
    obtain ⟨reader', hrun, hreads'⟩ := hreads.confirmRead h.ok hsize hshown
    refine h.use .none hreads' ?_ (.confirmRead hcursor hsize)
    show (s.readers[r]?.bind _) = _
    rw [hreader, Option.bind_some, hrun]
    rfl
  | advance r offset dest =>
    obtain ⟨reader, hreader, hoffset⟩ := hallowed
    obtain ⟨cursor, hcursor, hreads⟩ := h.exists_cursor hreader
    rw [hreads.size_eq] at hoffset
    obtain ⟨reader', hrun, hreads'⟩ := hreads.advance h.ok dest hoffset
    rw [h.stream] at hrun
    refine h.use _ hreads' ?_ (.advance dest hcursor hoffset)
    show (s.readers[r]?.bind _) = _
    rw [hreader, Option.bind_some, hrun]
    rfl
  | readAsBufferSlice r limit => exact h.readAsBufferSlice hallowed limit
  | moveAsBufferSlice r =>
    obtain ⟨reader, cursor, hreader, hcursor, hreads⟩ := h.exists_reads hallowed
    have hrun := hreads.moveAsBufferSlice h.ok
    rw [h.stream] at hrun
    refine h.use _ (reads_null cursor) ?_ (.moveAsBufferSlice hcursor)
    show (s.readers[r]?.bind _) = _
    rw [hreader, Option.bind_some, hrun]
    rfl

/-! ### Runs -/

theorem refines_start : Refines start ⟨[], []⟩ :=
  ⟨ok_init, roomy_init, rfl, rfl, fun r reader cursor hreader => by cases hreader⟩

theorem Refines.sizes (h : Refines s f) :
    s.readers.map ChainBufferReader.size = f.cursors.map fun cursor => cursor.limit - cursor.pos := by
  apply List.ext_getElem
  · rw [List.length_map, List.length_map, h.length]
  · intro r hr hr'
    rw [List.getElem_map, List.getElem_map]
    rw [List.length_map] at hr hr'
    exact (h.reads r _ _ (List.getElem?_eq_getElem hr) (List.getElem?_eq_getElem hr')).size_eq

/-- Every run of calls goes through, and answers as cursors on one stream do. -/
theorem fifo_ok (ops : List Op) (hops : machine.Along (fun s op => Allowed s op ∧ Fits s op) start ops) :
    ∃ s answers f, machine.run start ops = some (s, answers) ∧ Follows (ops.zip answers) f ∧
      s.buffer.contents = f.stream ∧
      s.readers.map ChainBufferReader.size = f.cursors.map fun cursor => cursor.limit - cursor.pos := by
  let P := fun (ops : List Op) (answers : List Answer) s =>
    ∃ f, Refines s f ∧ Follows (ops.zip answers) f ∧ ops.length = answers.length
  have hstep : ∀ ops answers s op, True → (Allowed s op ∧ Fits s op) → P ops answers s →
      ∃ s' answer, machine.step s op = some (s', answer) ∧ P (ops ++ [op]) (answers ++ [answer]) s' := by
    rintro ops answers s op - ⟨hallowed, hfits⟩ ⟨f, hrefines, hfollows, hlen⟩
    obtain ⟨s', answer, f', hs, hrefines', hchange⟩ := hrefines.step hallowed hfits
    refine ⟨s', answer, hs, f', hrefines', ?_, by simp [hlen]⟩
    rw [List.zip_append hlen]
    exact .concat hfollows hchange
  obtain ⟨s, answers, hrun, f, hrefines, hfollows, -⟩ := Lib.Machine.run_history machine start
    (fun s op => Allowed s op ∧ Fits s op) (fun _ => True) P (fun _ _ _ => trivial)
    ⟨_, refines_start, .nil, rfl⟩ hstep ops trivial hops
  exact ⟨s, answers, f, hrun, hfollows, hrefines.stream, hrefines.sizes⟩

instance (s : Chain) (op : Op) : Decidable (Allowed s op) := by
  cases op <;> unfold Allowed <;> infer_instance

instance (s : Chain) (op : Op) : Decidable (Fits s op) := by
  cases op <;> unfold Fits <;> infer_instance

/-- A reader in front of the writer, a cut, a copy of the chain into itself. -/
theorem fifo_ok_mixed : ∃ s answers f, machine.run start [.extractReader, .append [1, 2, 3] 0,
      .syncWithWriter 0, .prepareRead 0, .append [4] 5, .confirmRead 0 1, .cutHead 0 1, .clone 0,
      .syncWithWriter 0, .appendReader 0, .advance 2 1 4, .readAsBufferSlice 1 9,
      .moveAsBufferSlice 0, .size 0] = some (s, answers) ∧
    Follows ([.extractReader, .append [1, 2, 3] 0, .syncWithWriter 0, .prepareRead 0, .append [4] 5,
      .confirmRead 0 1, .cutHead 0 1, .clone 0, .syncWithWriter 0, .appendReader 0, .advance 2 1 4,
      .readAsBufferSlice 1 9, .moveAsBufferSlice 0, .size 0].zip answers) f ∧
    s.buffer.contents = f.stream ∧
    s.readers.map ChainBufferReader.size = f.cursors.map fun cursor => cursor.limit - cursor.pos :=
  fifo_ok _ (by decide)

/-! ### A hint that is too large -/

theorem room_alloc_zero {hint : ℕ} (hhint : 2 ^ 64 - 8 < hint) (hlt : hint < 2 ^ 64) :
    (c.prepareAppendAlloc hint).prepareAppendInplace = 0 := by
  rw [room_alloc_eq]
  unfold BufferRaw.roundUp
  split_ifs <;> omega

theorem confirmAppend_nil (hroom : c.prepareAppendInplace = 0) :
    ∃ c', c.confirmAppend [] = some c' ∧ c'.prepareAppendInplace = 0 := by
  unfold confirmAppend
  cases hw : c.writer with
  | none => exact ⟨c, rfl, hroom⟩
  | some a =>
    refine ⟨_, if_pos ⟨Nat.zero_le _, Nat.zero_le _⟩, ?_⟩
    unfold prepareAppendInplace at hroom ⊢
    rw [hw, Option.bind_some] at hroom
    dsimp only
    rw [Option.bind_some, List.getElem?_modify_eq]
    cases hraw : c.raws[a]? with
    | none => rfl
    | some raw =>
      rw [hraw] at hroom
      simpa using hroom

/-- With such a hint the loop of `append` asks for empty buffers for ever. -/
theorem appendLoop_stuck {hint : ℕ} (hhint : 2 ^ 64 - 8 < hint) (hlt : hint < 2 ^ 64) (fuel : ℕ) :
    ∀ {c : ChainBuffer} {slice : List UInt8}, slice ≠ [] → slice.length < 2 ^ 63 →
      c.prepareAppendInplace = 0 → appendLoop hint fuel c slice = none := by
  induction fuel with
  | zero => exact fun _ _ _ => rfl
  | succ fuel ih =>
    intro c slice hne hlen hroom
    have hmax : max slice.length hint = hint := Nat.max_eq_right (by omega)
    have hprepare : c.prepareAppend (max slice.length hint) = c.prepareAppendAlloc hint := by
      rw [hmax]
      exact if_pos hroom
    have hroom' := room_alloc_zero (c := c) hhint hlt
    obtain ⟨c', hconfirm, hc'⟩ := confirmAppend_nil hroom'
    rw [appendLoop, if_neg hne]
    dsimp only
    rw [hprepare, hroom', Nat.zero_min, List.take_zero, List.drop_zero, hconfirm, Option.bind_some]
    exact ih hne hlen hc'

/-- The second `append` does not return. -/
theorem append_stuck : ¬∀ ops : List Op, machine.Along Allowed start ops →
    ∃ s answers f, machine.run start ops = some (s, answers) ∧ Follows (ops.zip answers) f ∧
      s.buffer.contents = f.stream ∧
      s.readers.map ChainBufferReader.size = f.cursors.map fun cursor => cursor.limit - cursor.pos := by
  intro hall
  obtain ⟨s, answers, f, hrun, -⟩ := hall
    [.append (List.replicate 512 0) 0, .append [0] 0xffffffffffffffff] (by decide +kernel)
  have hnone : (machine.run start
      [.append (List.replicate 512 0) 0, .append [0] 0xffffffffffffffff]).isNone := by
    decide +kernel
  rw [hrun] at hnone
  cases hnone

end Chain

end TdUtils
