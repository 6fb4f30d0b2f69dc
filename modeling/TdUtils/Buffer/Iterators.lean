import TdUtils.Buffer.Stream

/-!
# Buffer.Iterators — an iterator delivers the stream from its offset on
-/

namespace TdUtils.ChainBuffer

open ChainBufferIterator

variable {c : ChainBuffer} {it it' : ChainBufferIterator} {i : ℕ} {node : ChainBufferNode}
  {s : BufferSlice}

/-! ### `prepare_read` -/

theorem At.synced (hok : Ok c) (h : At c it i node) :
    ∃ reader, (if it.needSync then it.reader.syncWithWriter c.raws else some it.reader) = some reader ∧
      At c { it with reader := reader } i node ∧ reader.end_ = (node.current c.raws).end_ := by
  cases hsync : node.syncFlag with
  | false =>
    refine ⟨it.reader, if_neg (by simp [h.needSync, hsync]), h, ?_⟩
    rw [h.fixed hsync]
    unfold ChainBufferNode.current
    rw [if_neg (by simp [hsync])]
  | true =>
    obtain ⟨a, ha, -⟩ := (hok.valid node h.mem).buffer
    rw [ChainBufferNode.current_buffer] at ha
    have hbuffer := h.buffer.trans ha
    have hlast := h.last
    have hle := h.le
    have hend : (it.reader.written c.raws).length = (node.current c.raws).end_ := by
      unfold ChainBufferNode.current
      rw [if_pos hsync, BufferSlice.written_congr h.buffer]
    refine ⟨{ it.reader with end_ := (it.reader.written c.raws).length }, ?_, ?_, hend⟩
    · rw [if_pos (h.needSync.trans hsync)]
      unfold BufferSlice.syncWithWriter
      rw [if_neg (by simp [hbuffer])]
    · refine ⟨h.head, h.standsOn, h.buffer, h.needSync, h.first, ?_, Nat.le_of_eq hend, ?_, h.offset⟩
      · dsimp only
        omega
      · intro hfixed
        rw [hsync] at hfixed
        cases hfixed

/-- The slice is what the iterator has at hand, and it is empty at the end of the stream only. -/
structure Prepared (c : ChainBuffer) (it it' : ChainBufferIterator) (s : BufferSlice) : Prop where
  placed : Placed c it'
  offset : it'.offset = it.offset
  size : s.size = it'.reader.size
  reader : s.size ≠ 0 → s = it'.reader
  null : s.size = 0 → s = .null
  keeps : it.reader.size ≤ it'.reader.size
  atEnd : s.size = 0 → it.offset = c.contents.length

theorem prepareReadLoop_spec (hok : Ok c) (fuel : ℕ) :
    ∀ {it i node}, At c it i node → c.nodes.length < fuel + i →
      ∃ it' s, prepareReadLoop c fuel it = some (it', s) ∧ Prepared c it it' s := by
  induction fuel with
  | zero =>
    intro it i node h hfuel
    obtain ⟨hlt, -⟩ := List.getElem?_eq_some_iff.mp h.standsOn
    omega
  | succ fuel ih =>
    intro it i node h hfuel
    obtain ⟨head, reader₀, needSync, offset⟩ := it
    obtain rfl : head = some i := h.head
    rw [prepareReadLoop]
    dsimp only
    by_cases hsize : reader₀.size ≠ 0
    · rw [if_pos hsize]
      exact ⟨_, reader₀, rfl, ⟨i, node, h⟩, rfl, rfl, fun _ => rfl, fun h0 => absurd h0 hsize,
        Nat.le_refl _, fun h0 => absurd h0 hsize⟩
    · have hkeeps : ∀ n, reader₀.size ≤ n := fun n => by omega
      obtain ⟨reader, hreader, hat, hend⟩ := h.synced hok
      dsimp only at hreader hat
      rw [if_neg hsize, hreader, Option.bind_some]
      by_cases hsize' : reader.size ≠ 0
      · rw [if_pos hsize']
        exact ⟨_, reader, rfl, ⟨i, node, hat⟩, rfl, rfl, fun _ => rfl, fun h0 => absurd h0 hsize',
          hkeeps _, fun h0 => absurd h0 hsize'⟩
      · rw [if_neg hsize']
        have hzero : reader.size = 0 := not_not.mp hsize'
        have hatEnd : reader.begin_ = (node.current c.raws).end_ := by
          have hle := hat.le
          have hreaderSize := hat.size_reader hok
          dsimp only at hle hreaderSize
          omega
        obtain ⟨hlt, -⟩ := List.getElem?_eq_some_iff.mp h.standsOn
        by_cases hi : i + 1 = c.nodes.length
        · have hwriter : c.hasWriter i = true := beq_iff_eq.mpr hi
          rw [if_pos hwriter]
          have hoffset : offset = c.contents.length := hat.offset_eq hok hi hatEnd
          exact ⟨_, .null, rfl, ⟨i, node, hat⟩, rfl, hzero.symm, fun h0 => absurd rfl h0,
            fun _ => rfl, hkeeps _, fun _ => hoffset⟩
        · have hwriter : ¬c.hasWriter i = true := fun hw => hi (beq_iff_eq.mp hw)
          rw [if_neg hwriter]
          obtain ⟨node', hnext, hoffset⟩ := hat.next hok (by omega) hatEnd
          obtain ⟨it', s, hrun, hprepared⟩ := ih hnext (by omega)
          refine ⟨it', s, hrun, hprepared.placed, ?_, hprepared.size, hprepared.reader,
            hprepared.null, hkeeps _, ?_⟩
          · exact hprepared.offset.trans hoffset
          · exact fun h0 => hoffset.symm.trans (hprepared.atEnd h0)

theorem prepareRead_spec (hok : Ok c) (h : Placed c it) :
    ∃ it' s, it.prepareRead c = some (it', s) ∧ Prepared c it it' s := by
  obtain ⟨i, node, h⟩ := h
  exact prepareReadLoop_spec hok _ h (by omega)

/-- The slice is a piece of the stream. -/
theorem Prepared.asSlice (hok : Ok c) (h : Prepared c it it' s) :
    s.asSlice c.raws = (c.contents.drop it.offset).take s.size := by
  obtain ⟨i, node, hat⟩ := h.placed
  by_cases hsize : s.size = 0
  · rw [hsize, h.null hsize, List.take_zero, BufferSlice.asSlice_null]
  · rw [h.reader hsize, hat.asSlice_reader hok, h.offset]

/-! ### `confirm_read`, `advance` -/

theorem confirmRead_spec (hok : Ok c) (h : Placed c it) {n : ℕ} (hn : n ≤ it.reader.size) :
    ∃ it', it.confirmRead n = some it' ∧ Placed c it' ∧ it'.offset = it.offset + n ∧
      it'.reader.size = it.reader.size - n := by
  obtain ⟨i, node, h⟩ := h
  have hsize := h.size_reader hok
  have hfirst := h.first
  have hle := h.le
  have hoffset := h.offset
  have hread : it.reader.confirmRead n = some { it.reader with begin_ := it.reader.begin_ + n } :=
    if_pos (by omega)
  have hat : At c { it with
      reader := { it.reader with begin_ := it.reader.begin_ + n }, offset := it.offset + n } i node := by
    refine ⟨h.head, h.standsOn, h.buffer, h.needSync, ?_, ?_, h.last, h.fixed, ?_⟩ <;> dsimp only <;>
      omega
  refine ⟨_, ?_, ⟨i, node, hat⟩, rfl, ?_⟩
  · unfold ChainBufferIterator.confirmRead
    rw [hread, Option.map_some]
  · rw [hat.size_reader hok, hsize]
    dsimp only
    omega

theorem placed_offset_le (hok : Ok c) (h : Placed c it) :
    it.offset + it.reader.size ≤ c.contents.length := by
  obtain ⟨i, node, h⟩ := h
  exact h.offset_le hok

theorem advanceTillEndLoop_spec (hok : Ok c) (fuel : ℕ) :
    ∀ {it}, Placed c it → c.contents.length < it.offset + fuel →
      ∃ it', advanceTillEndLoop c fuel it = some it' ∧ Placed c it' ∧
        it'.offset = c.contents.length := by
  induction fuel with
  | zero =>
    intro it h hfuel
    have hle := placed_offset_le hok h
    omega
  | succ fuel ih =>
    intro it h hfuel
    obtain ⟨it₁, s, hprepare, hp⟩ := prepareRead_spec hok h
    rw [advanceTillEndLoop, hprepare, Option.bind_some]
    dsimp only
    by_cases hsize : s.size = 0
    · rw [if_pos hsize]
      exact ⟨it₁, rfl, hp.placed, hp.offset.trans (hp.atEnd hsize)⟩
    · obtain ⟨it₂, hconfirm, hplaced, hoffset, -⟩ :=
        confirmRead_spec hok hp.placed (Nat.le_of_eq hp.size)
      have hoffset₁ := hp.offset
      rw [if_neg hsize, hconfirm, Option.bind_some]
      exact ih hplaced (by omega)

theorem advanceTillEnd_spec (hok : Ok c) (h : Placed c it) :
    ∃ it', it.advanceTillEnd c = some it' ∧ Placed c it' ∧ it'.offset = c.contents.length :=
  advanceTillEndLoop_spec hok _ h (by omega)

/-- What goes to a destination in two pieces, of which the first may fill it. -/
theorem take_min_append (l : List UInt8) {t n : ℕ} (room : ℕ) (h : t ≤ n) :
    l.take (min t room) ++ (l.drop t).take (min (n - t) (room - min t room)) = l.take (min n room) := by
  by_cases hroom : t ≤ room
  · have hmin : min n room = t + min (n - t) (room - t) := by omega
    rw [Nat.min_eq_left hroom, hmin, List.take_add]
  · have hzero : min (n - t) (room - min t room) = 0 := by omega
    have hmin : min t room = min n room := by omega
    rw [hzero, List.take_zero, List.append_nil, hmin]

theorem advanceLoop_spec (hok : Ok c) (fuel : ℕ) :
    ∀ {it} (a : Advance), Placed c it → it.offset + a.offset ≤ c.contents.length → a.offset < fuel →
      ∃ it', advanceLoop c fuel it a = some (it', ⟨0, a.skipped + a.offset,
          a.room - min a.offset a.room,
          a.copied ++ (c.contents.drop it.offset).take (min a.offset a.room)⟩) ∧
        Placed c it' ∧ it'.offset = it.offset + a.offset := by
  induction fuel with
  | zero => exact fun a _ _ hfuel => absurd hfuel (Nat.not_lt_zero _)
  | succ fuel ih =>
    intro it a h hle hfuel
    rw [advanceLoop]
    by_cases hzero : a.offset = 0
    · obtain ⟨offset, skipped, room, copied⟩ := a
      obtain rfl : offset = 0 := hzero
      refine ⟨it, ?_, h, rfl⟩
      simp
    · obtain ⟨it₁, s, hprepare, hp⟩ := prepareRead_spec hok h
      have hsize : s.size ≠ 0 := by
        intro h0
        have hend := hp.atEnd h0
        omega
      have htruncate := s.size_truncate a.offset
      obtain ⟨it₂, hconfirm, hplaced, hoffset, -⟩ :=
        confirmRead_spec hok hp.placed (n := (s.truncate a.offset).size) (by
          rw [← hp.size]
          omega)
      have hoffset₁ := hp.offset
      rw [if_neg hzero, hprepare, Option.bind_some]
      dsimp only
      rw [if_neg hsize, hconfirm, Option.bind_some]
      obtain ⟨it', hrun, hplaced', hoffset'⟩ := ih
        ⟨a.offset - (s.truncate a.offset).size, a.skipped + (s.truncate a.offset).size,
          a.room - min (s.truncate a.offset).size a.room, a.copied ++
            ((s.truncate a.offset).asSlice c.raws).take (min (s.truncate a.offset).size a.room)⟩
        hplaced (by dsimp only; omega) (by dsimp only; omega)
      dsimp only at hrun hoffset'
      refine ⟨it', ?_, hplaced', by omega⟩
      have hpiece : ((s.truncate a.offset).asSlice c.raws).take
          (min (s.truncate a.offset).size a.room) =
          (c.contents.drop it.offset).take (min (s.truncate a.offset).size a.room) := by
        obtain ⟨i, node, hat⟩ := hp.placed
        obtain ⟨b, hbuffer, -⟩ := (hat.valid_reader hok).buffer
        rw [← hp.reader hsize] at hbuffer
        rw [BufferSlice.asSlice_truncate hbuffer, hp.asSlice hok, List.take_take, List.take_take]
        congr 1
        omega
      generalize (s.truncate a.offset).size = t at *
      have hskipped : a.skipped + t + (a.offset - t) = a.skipped + a.offset := by omega
      have hroom : a.room - min t a.room - min (a.offset - t) (a.room - min t a.room) =
          a.room - min a.offset a.room := by omega
      rw [hrun, hpiece, hoffset, hoffset₁, List.append_assoc, ← List.drop_drop,
        take_min_append _ _ (by omega), hskipped, hroom]

theorem advance_spec (hok : Ok c) (h : Placed c it) {n : ℕ} (dest : ℕ)
    (hle : it.offset + n ≤ c.contents.length) :
    ∃ it', it.advance c n dest = some (it', n, (c.contents.drop it.offset).take (min n dest)) ∧
      Placed c it' ∧ it'.offset = it.offset + n := by
  obtain ⟨it', hrun, hplaced, hoffset⟩ := advanceLoop_spec hok (n + 1) ⟨n, 0, dest, []⟩ h hle
    (Nat.lt_succ_self n)
  refine ⟨it', ?_, hplaced, hoffset⟩
  unfold ChainBufferIterator.advance
  rw [hrun, Option.map_some]
  dsimp only
  rw [Nat.zero_add, List.nil_append]

/-- A slice read is a piece of the stream, and it is empty only where nothing may be read. -/
theorem readAsBufferSlice_spec (hok : Ok c) (h : Placed c it) {n : ℕ}
    (hle : it.offset + n ≤ c.contents.length) :
    ∃ it' s, it.readAsBufferSlice c n = some (it', s) ∧ Placed c it' ∧
      it'.offset = it.offset + s.size ∧ c.Valid s ∧ s.size ≤ n ∧ (0 < n → 0 < s.size) ∧
      min n it.reader.size ≤ s.size ∧
      s.asSlice c.raws = (c.contents.drop it.offset).take s.size := by
  obtain ⟨it₁, s, hprepare, hp⟩ := prepareRead_spec hok h
  obtain ⟨i, node, hat⟩ := hp.placed
  have hvalid := hat.valid_reader hok
  obtain ⟨a, hbuffer, ha⟩ := hvalid.buffer
  have hsize := it₁.reader.size_truncate n
  have hoffset₁ := hp.offset
  obtain ⟨it', hconfirm, hplaced, hoffset, -⟩ :=
    confirmRead_spec hok hp.placed (n := (it₁.reader.truncate n).size) (by omega)
  have hkeeps := hp.keeps
  refine ⟨it', it₁.reader.truncate n, ?_, hplaced, by omega, ?_, by omega, ?_, by omega, ?_⟩
  · unfold ChainBufferIterator.readAsBufferSlice
    rw [hprepare, Option.bind_some]
    dsimp only
    rw [hconfirm, Option.map_some]
  · exact hvalid.truncate n
  · intro hpos
    have hatEnd := hp.atEnd
    have hsizes := hp.size
    omega
  · rw [BufferSlice.asSlice_truncate hbuffer, hat.asSlice_reader hok, List.take_take, hoffset₁, hsize]

end TdUtils.ChainBuffer
