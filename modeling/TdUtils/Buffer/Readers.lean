import TdUtils.Buffer.Iterators

/-!
# Buffer.Readers — a reader is a cursor on the stream

A reader delivers what lies between its two iterators, and so does every reader made of it.
-/

namespace TdUtils.ChainBuffer

variable {c : ChainBuffer} {it : ChainBufferIterator}

/-- What a reader stands for: it has consumed `pos` bytes, and sees those before `limit`. -/
structure Cursor where
  pos : ℕ
  limit : ℕ
  syncing : Bool
deriving DecidableEq

namespace Cursor

def size (cursor : Cursor) : ℕ := cursor.limit - cursor.pos

/-- The next bytes. -/
def peek (cursor : Cursor) (stream : List UInt8) (n : ℕ) : List UInt8 :=
  (stream.drop cursor.pos).take n

def move (cursor : Cursor) (n : ℕ) : Cursor := { cursor with pos := cursor.pos + n }

/-- With the end at the end of the stream. -/
def sync (cursor : Cursor) (stream : List UInt8) : Cursor :=
  if cursor.syncing then { cursor with limit := stream.length } else cursor

/-- The cursor of a reader that is null. -/
def done (cursor : Cursor) : Cursor := ⟨cursor.limit, cursor.limit, false⟩

end Cursor

structure Live (c : ChainBuffer) (r : ChainBufferReader) (cursor : Cursor) : Prop where
  begin_ : Placed c r.begin_
  end_ : Placed c r.end_
  pos : r.begin_.offset = cursor.pos
  limit : r.end_.offset = cursor.limit
  le : cursor.pos ≤ cursor.limit
  syncing : r.syncFlag = cursor.syncing

/-- A reader that was moved from reads nothing. -/
structure Null (r : ChainBufferReader) (cursor : Cursor) : Prop where
  begin_ : r.begin_ = .null
  end_ : r.end_ = .null
  pos : cursor.pos = cursor.limit
  syncing : cursor.syncing = false

def Reads (c : ChainBuffer) (r : ChainBufferReader) (cursor : Cursor) : Prop :=
  Live c r cursor ∨ Null r cursor

variable {r : ChainBufferReader} {cursor : Cursor}

theorem reads_null (cursor : Cursor) : Reads c .null cursor.done := Or.inr ⟨rfl, rfl, rfl, rfl⟩

theorem Reads.size_eq (h : Reads c r cursor) : r.size = cursor.size := by
  unfold ChainBufferReader.size Cursor.size
  rcases h with h | h
  · rw [h.pos, h.limit]
  · rw [h.begin_, h.end_, h.pos, Nat.sub_self, Nat.sub_self]

theorem Null.size_eq (h : Null r cursor) : r.size = 0 := by
  unfold ChainBufferReader.size
  rw [h.begin_, h.end_]
  rfl

theorem Live.size_eq (h : Live c r cursor) : r.size = cursor.limit - cursor.pos := by
  unfold ChainBufferReader.size
  rw [h.pos, h.limit]

theorem Live.limit_le (hok : Ok c) (h : Live c r cursor) : cursor.limit ≤ c.contents.length := by
  have hle := placed_offset_le hok h.end_
  have hlimit := h.limit
  omega

theorem Live.move (h : Live c r cursor) {n : ℕ} (hplaced : Placed c it) (hle : n ≤ r.size)
    (hoffset : it.offset = r.begin_.offset + n) :
    Reads c { r with begin_ := it } (cursor.move n) := by
  have hsize := h.size_eq
  have hle' := h.le
  refine Or.inl ⟨hplaced, h.end_, ?_, h.limit, ?_, h.syncing⟩
  · rw [hoffset, h.pos]
    rfl
  · show cursor.pos + n ≤ cursor.limit
    omega

/-! ### The null iterator -/

theorem null_prepareRead (c : ChainBuffer) :
    ChainBufferIterator.prepareRead c .null = some (.null, .null) := rfl

theorem null_advance (c : ChainBuffer) (dest : ℕ) :
    ChainBufferIterator.advance c .null 0 dest = some (.null, 0, []) := rfl

theorem null_readAsBufferSlice (c : ChainBuffer) (limit : ℕ) :
    ChainBufferIterator.readAsBufferSlice c .null limit = some (.null, .null) := by
  unfold ChainBufferIterator.readAsBufferSlice
  rw [null_prepareRead, Option.bind_some]
  dsimp only
  have hnull : ChainBufferIterator.null.reader.truncate limit = .null :=
    BufferSlice.truncate_of_le (Nat.zero_le _)
  rw [hnull]
  rfl

theorem null_advanceTillEnd (c : ChainBuffer) :
    ChainBufferIterator.advanceTillEnd c .null = some .null := rfl

theorem Null.eq (h : Null r cursor) : ∃ syncFlag, r = ⟨.null, .null, syncFlag⟩ := by
  obtain ⟨begin_, end_, syncFlag⟩ := r
  obtain rfl : begin_ = .null := h.begin_
  obtain rfl : end_ = .null := h.end_
  exact ⟨syncFlag, rfl⟩

theorem Null.cursor_size (h : Null r cursor) : cursor.size = 0 := by
  unfold Cursor.size
  rw [h.pos, Nat.sub_self]

theorem Cursor.peek_zero (cursor : Cursor) (stream : List UInt8) : cursor.peek stream 0 = [] :=
  List.take_zero

/-! ### The operations -/

theorem Reads.prepareRead (hok : Ok c) (h : Reads c r cursor) :
    ∃ r' s n, r.prepareRead c = some (r', s) ∧ Reads c r' cursor ∧ n ≤ cursor.size ∧
      (0 < cursor.size → 0 < n) ∧ n ≤ r'.begin_.reader.size ∧ s.size = n ∧
      s.asSlice c.raws = cursor.peek c.contents n := by
  have hsize := h.size_eq
  rcases h with h | h
  · obtain ⟨it, s, hprepare, hp⟩ := prepareRead_spec hok h.begin_
    have hlimit := h.limit_le hok
    have hpos := h.pos
    have hle := h.le
    have hstart : cursor.size = cursor.limit - cursor.pos := rfl
    have hatEnd := hp.atEnd
    have htruncate := s.size_truncate r.size
    have hsizes := hp.size
    refine ⟨{ r with begin_ := it }, s.truncate r.size, (s.truncate r.size).size, ?_,
      Or.inl ⟨hp.placed, h.end_, hp.offset.trans h.pos, h.limit, h.le, h.syncing⟩, by omega, by omega,
      ?_, rfl, ?_⟩
    · unfold ChainBufferReader.prepareRead
      rw [hprepare, Option.map_some]
    · dsimp only
      omega
    · by_cases hzero : s.size = 0
      · rw [hp.null hzero, BufferSlice.truncate_of_le (Nat.zero_le _)]
        rfl
      · obtain ⟨i, node, hat⟩ := hp.placed
        obtain ⟨b, hbuffer, -⟩ := (hat.valid_reader hok).buffer
        rw [← hp.reader hzero] at hbuffer
        rw [BufferSlice.asSlice_truncate hbuffer, hp.asSlice hok, List.take_take, hpos,
          ← htruncate]
        rfl
  · obtain ⟨syncFlag, rfl⟩ := h.eq
    refine ⟨_, .null, 0, rfl, Or.inr h, Nat.zero_le _, ?_, Nat.zero_le _, rfl, rfl⟩
    rw [h.cursor_size]
    exact id

theorem Reads.confirmRead (hok : Ok c) (h : Reads c r cursor) {n : ℕ} (hn : n ≤ cursor.size)
    (hreader : n ≤ r.begin_.reader.size) :
    ∃ r', r.confirmRead n = some r' ∧ Reads c r' (cursor.move n) := by
  have hsize := h.size_eq
  have hle : n ≤ r.size := by omega
  unfold ChainBufferReader.confirmRead
  rw [if_pos hle]
  rcases h with h | h
  · obtain ⟨it, hconfirm, hplaced, hoffset, -⟩ := confirmRead_spec hok h.begin_ hreader
    rw [hconfirm, Option.map_some]
    exact ⟨_, rfl, h.move hplaced hle hoffset⟩
  · obtain ⟨syncFlag, rfl⟩ := h.eq
    obtain rfl : n = 0 := Nat.le_zero.mp hle
    exact ⟨_, rfl, Or.inr h⟩

theorem Reads.advance (hok : Ok c) (h : Reads c r cursor) {n : ℕ} (dest : ℕ) (hn : n ≤ cursor.size) :
    ∃ r', r.advance c n dest = some (r', n, cursor.peek c.contents (min n dest)) ∧
      Reads c r' (cursor.move n) := by
  have hsize := h.size_eq
  have hle : n ≤ r.size := by omega
  unfold ChainBufferReader.advance
  rw [if_pos hle]
  rcases h with h | h
  · have hlimit := h.limit_le hok
    have hpos := h.pos
    have hle' := h.le
    have hlive := h.size_eq
    obtain ⟨it, hadvance, hplaced, hoffset⟩ := advance_spec hok h.begin_ (n := n) dest (by omega)
    rw [hadvance, Option.map_some, hpos]
    exact ⟨_, rfl, h.move hplaced hle hoffset⟩
  · obtain ⟨syncFlag, rfl⟩ := h.eq
    obtain rfl : n = 0 := Nat.le_zero.mp hle
    refine ⟨_, ?_, Or.inr h⟩
    rw [null_advance, Nat.zero_min, Cursor.peek_zero]
    rfl

theorem Reads.sync (hok : Ok c) (h : Reads c r cursor) :
    ∃ r', r.syncWithWriter c = some r' ∧ Reads c r' (cursor.sync c.contents) := by
  unfold ChainBufferReader.syncWithWriter
  rcases h with h | h
  · have hsyncing := h.syncing
    unfold Cursor.sync
    split_ifs with hflag hcursor hcursor
    · have hlimit := h.limit_le hok
      have hle := h.le
      obtain ⟨it, hrun, hplaced, hoffset⟩ := advanceTillEnd_spec hok h.end_
      rw [hrun, Option.map_some]
      exact ⟨_, rfl, Or.inl ⟨h.begin_, hplaced, h.pos, hoffset, Nat.le_trans hle hlimit, hsyncing⟩⟩
    · exact absurd (hsyncing.symm.trans hflag) hcursor
    · exact absurd (hsyncing.trans hcursor) hflag
    · exact ⟨_, rfl, Or.inl h⟩
  · obtain ⟨syncFlag, rfl⟩ := h.eq
    have hcursor : cursor.sync c.contents = cursor := if_neg (by simp [h.syncing])
    refine ⟨⟨.null, .null, syncFlag⟩, ?_, hcursor.symm ▸ Or.inr h⟩
    rw [null_advanceTillEnd]
    cases syncFlag <;> rfl

theorem Reads.cutHead (hok : Ok c) (h : Reads c r cursor) {n : ℕ} (hn : n ≤ cursor.size) :
    ∃ r' head, r.cutHead c n = some (r', head) ∧ Reads c r' (cursor.move n) ∧
      Reads c head ⟨cursor.pos, cursor.pos + n, false⟩ := by
  have hsize := h.size_eq
  have hle : n ≤ r.size := by omega
  unfold ChainBufferReader.cutHead
  rw [if_pos hle]
  rcases h with h | h
  · have hlimit := h.limit_le hok
    have hpos := h.pos
    have hle' := h.le
    have hlive := h.size_eq
    obtain ⟨it, hadvance, hplaced, hoffset⟩ := advance_spec hok h.begin_ (n := n) 0 (by omega)
    rw [hadvance, Option.map_some]
    exact ⟨_, _, rfl, h.move hplaced hle hoffset,
      Or.inl ⟨h.begin_, hplaced, hpos, by dsimp only; omega, Nat.le_add_right _ _, rfl⟩⟩
  · obtain ⟨syncFlag, rfl⟩ := h.eq
    obtain rfl : n = 0 := Nat.le_zero.mp hle
    exact ⟨_, _, rfl, Or.inr h, Or.inr ⟨rfl, rfl, rfl, rfl⟩⟩

/-- The slice that was read may be put into a chain. -/
theorem Reads.readAsBufferSlice (hok : Ok c) (h : Reads c r cursor) (limit : ℕ) :
    ∃ r' s, r.readAsBufferSlice c limit = some (r', s) ∧ Reads c r' (cursor.move s.size) ∧
      (c.Valid s ∨ s = .null) ∧ s.size ≤ min limit cursor.size ∧
      (0 < min limit cursor.size → 0 < s.size) ∧
      s.asSlice c.raws = cursor.peek c.contents s.size := by
  have hsize := h.size_eq
  unfold ChainBufferReader.readAsBufferSlice
  rcases h with h | h
  · have hlimit := h.limit_le hok
    have hpos := h.pos
    have hle := h.le
    have hlive := h.size_eq
    obtain ⟨it, s, hread, hplaced, hoffset, hvalid, hmax, hmin, -, hslice⟩ :=
      readAsBufferSlice_spec hok h.begin_ (n := min limit r.size) (by omega)
    rw [hread, Option.map_some]
    rw [hsize] at hmax hmin
    refine ⟨_, s, rfl, h.move hplaced (by omega) hoffset, Or.inl hvalid, hmax, hmin, ?_⟩
    rw [hslice, hpos]
    rfl
  · obtain ⟨syncFlag, rfl⟩ := h.eq
    rw [null_readAsBufferSlice, h.cursor_size]
    exact ⟨_, .null, rfl, Or.inr h, Or.inr rfl, Nat.zero_le _, fun h0 => absurd h0 (by simp), rfl⟩

/-- All bytes, from one node or copied together. -/
theorem Reads.moveAsBufferSlice (hok : Ok c) (h : Reads c r cursor) :
    r.moveAsBufferSlice c = some (.null, cursor.peek c.contents cursor.size) := by
  have hsize := h.size_eq
  unfold ChainBufferReader.moveAsBufferSlice
  split_ifs with hhead
  · rcases h with h | h
    · have hlimit := h.limit_le hok
      have hpos := h.pos
      have hle := h.le
      have hlive := h.size_eq
      obtain ⟨it, s, hread, -, -, -, hmax, -, hmin, hslice⟩ :=
        readAsBufferSlice_spec hok h.begin_ (n := r.size) (by omega)
      have hs : s.size = cursor.size := by omega
      rw [hread, Option.map_some]
      dsimp only
      rw [hslice, hpos, hs]
      rfl
    · obtain ⟨syncFlag, rfl⟩ := h.eq
      rw [null_readAsBufferSlice, h.cursor_size]
      rfl
  · obtain ⟨r', hadvance, -⟩ := h.advance hok r.size (n := r.size) (Nat.le_of_eq hsize)
    rw [hadvance, Option.map_some, Nat.min_self, hsize]

end TdUtils.ChainBuffer
