import TdUtils.Flow.AesCtrByteFlow

/-!
# Flow.AesCtrDelivery — what the sink gets when the input is closed

Between calls the flow has encrypted everything before its place in the chain (`Settled`), and a wakeup takes
it to the end.  The last wakeup, in `close_input`, takes it to the end of one node only.
-/

namespace TdUtils.AesCtrByteFlow

open ChainBuffer AesCtrState

variable {E : AesBlock → AesBlock} {iv : AesBlock} {plain : List UInt8} {s t : AesCtrByteFlow}

/-- How much has been encrypted. -/
def done (s : AesCtrByteFlow) : ℕ := s.input.begin_.offset

structure Settled (E : AesBlock → AesBlock) (iv : AesBlock) (plain : List UInt8) (s : AesCtrByteFlow) :
    Prop where
  ok : Ok s.chain
  priv : Private s.chain
  roomy : Roomy s.chain
  input : Live s.chain s.input ⟨s.done, s.input.end_.offset, true⟩
  shown : s.input.begin_.reader.size = 0
  output : Live s.chain s.output ⟨0, s.done, false⟩
  streamed : Streamed E iv s.state s.done
  contents : s.chain.contents = ctr E iv 0 (plain.take s.done) ++ plain.drop s.done
  le : s.done ≤ plain.length

/-- The flow has not finished. -/
structure Open (s : AesCtrByteFlow) : Prop where
  waiting : s.base.waitingFlag = false
  options : s.base.options = {}
  parent : s.base.parent = true
  stop : s.base.stopFlag = false
  sink : s.sink.active = true
  source : s.source = true

theorem Settled.length (h : Settled E iv plain s) : s.chain.contents.length = plain.length := by
  have hle := h.le
  rw [h.contents, List.length_append, length_ctr, List.length_take, List.length_drop]
  omega

theorem Settled.rest (h : Settled E iv plain s) (n : ℕ) :
    (s.chain.contents.drop s.done).take n = (plain.drop s.done).take n := by
  have hle := h.le
  have hlen : (ctr E iv 0 (plain.take s.done)).length = s.done := by
    rw [length_ctr, List.length_take]
    omega
  rw [h.contents]
  congr 1
  exact List.drop_left' hlen

/-- Encrypting the next bytes in place. -/
theorem Settled.splice (h : Settled E iv plain s) {n : ℕ} (hn : s.done + n ≤ plain.length) :
    splice s.chain.contents s.done (ctr E iv s.done ((plain.drop s.done).take n)) =
      ctr E iv 0 (plain.take (s.done + n)) ++ plain.drop (s.done + n) := by
  have hle := h.le
  have hlen : (ctr E iv 0 (plain.take s.done)).length = s.done := by
    rw [length_ctr, List.length_take]
    omega
  have htake : (plain.take s.done).length = s.done := by
    rw [List.length_take]
    omega
  have hpiece : ((plain.drop s.done).take n).length = n := by
    rw [List.length_take, List.length_drop]
    omega
  have hctr := ctr_append E iv 0 (plain.take s.done) ((plain.drop s.done).take n)
  rw [← List.take_add, htake, Nat.zero_add] at hctr
  unfold ChainBuffer.splice
  rw [h.contents, List.take_left' hlen, length_ctr, hpiece, hctr]
  congr 1
  rw [← List.drop_drop, List.drop_left' hlen, List.drop_drop]

/-- What one round of the flow leaves: `n` more bytes are encrypted, and nothing else has changed. -/
structure Moved (s s₁ : AesCtrByteFlow) (n : ℕ) : Prop where
  base : s₁.base = s.base
  sink : s₁.sink = s.sink
  source : s₁.source = s.source
  done : s₁.done = s.done + n
  synced : s₁.input.end_.offset = s.input.end_.offset
  atEnd : n = 0 → s.done = s.chain.contents.length
  whole : ∃ j < s.chain.nodes.length, s.chain.start j ≤ s.done ∧ s.done + n = s.chain.start (j + 1)

theorem loop_spec (h : Settled E iv plain s) (hsync : s.input.end_.offset = s.chain.contents.length) :
    ∃ s₁ n, Settled E iv plain s₁ ∧ Moved s s₁ n ∧
      loop E s = if s.base.isInputActive then some (s₁, decide (n ≠ 0))
        else (s₁.finish .ok).map fun t => (t, decide (n ≠ 0)) := by
  obtain ⟨it, slice, hprepare, hp⟩ := prepareRead_spec h.ok h.input.begin_
  have hwhole := prepareRead_whole h.ok h.priv h.input.begin_ h.shown hprepare
  have hle := placed_offset_le h.ok hp.placed
  have hoffset : it.offset = s.done := hp.offset
  have hsize : s.input.size = s.chain.contents.length - s.done := by
    unfold ChainBufferReader.size
    rw [hsync]
    rfl
  have hslice := hp.size
  have hready : slice.truncate s.input.size = slice := BufferSlice.truncate_of_le (by omega)
  have hread : s.input.prepareRead s.chain = some ({ s.input with begin_ := it }, slice) := by
    unfold ChainBufferReader.prepareRead
    rw [hprepare, Option.map_some]
    dsimp only
    rw [hready]
  unfold loop
  rw [hread, Option.bind_some]
  dsimp only
  by_cases hzero : slice.size = 0
  · refine ⟨{ s with input := { s.input with begin_ := it } }, 0, ⟨h.ok, h.priv, h.roomy, ?_, ?_, ?_, ?_, ?_, ?_⟩,
      ⟨rfl, rfl, rfl, hoffset, rfl, fun _ => hp.atEnd hzero, ?_⟩, ?_⟩
    · exact ⟨hp.placed, h.input.end_, rfl, rfl, Nat.le_trans (Nat.le_of_eq hoffset) h.input.le,
        h.input.syncing⟩
    · exact hslice.symm.trans hzero
    · show Live s.chain s.output ⟨0, it.offset, false⟩
      rw [hoffset]
      exact h.output
    · show Streamed E iv s.state it.offset
      rw [hoffset]
      exact h.streamed
    · show s.chain.contents = ctr E iv 0 (plain.take it.offset) ++ plain.drop it.offset
      rw [hoffset]
      exact h.contents
    · show it.offset ≤ plain.length
      rw [hoffset]
      exact h.le
    · rw [hzero] at hwhole
      exact hwhole
    · rw [if_pos hzero, Option.bind_some]
      rfl
  · have hreader := hp.reader hzero
    obtain ⟨i, node, hat⟩ := hp.placed
    have hvalid := hat.valid_reader h.ok
    rw [← hreader] at hvalid
    have hlen := h.length
    have hbytes : slice.asSlice s.chain.raws = (plain.drop s.done).take slice.size := by
      rw [hp.asSlice h.ok]
      exact h.rest slice.size
    have hcount : ((plain.drop s.done).take slice.size).length = slice.size := by
      rw [List.length_take, List.length_drop]
      omega
    obtain ⟨state, hencrypt, hstate⟩ := encrypt_spec h.streamed ((plain.drop s.done).take slice.size)
    generalize hdata : ctr E iv s.done ((plain.drop s.done).take slice.size) = bytes at hencrypt
    have hbytesLen : bytes.length = slice.size := by
      rw [← hdata, length_ctr, hcount]
    have hr := rewritten_overwrite hvalid hbytesLen
    have hok := hr.ok h.ok
    have hcontents : (s.chain.overwrite slice bytes).contents =
        ctr E iv 0 (plain.take (s.done + slice.size)) ++ plain.drop (s.done + slice.size) := by
      rw [contents_overwrite h.ok h.priv hat (congrArg _ hreader) (congrArg _ hreader) hvalid.le
        (Nat.le_of_eq (congrArg _ hreader)) hbytesLen, hoffset, ← hdata, h.splice (by omega)]
    have hcontentsLen : (s.chain.overwrite slice bytes).contents.length = plain.length := by
      rw [hcontents, List.length_append, length_ctr, List.length_take, List.length_drop]
      omega
    obtain ⟨it', hconfirm, hplaced', hoffset', hsize'⟩ :=
      confirmRead_spec hok (hr.placed h.ok hp.placed) (Nat.le_of_eq hslice)
    have houtput := h.output
    have hend : s.output.end_.offset = s.done := houtput.limit
    obtain ⟨out, hadvance, houtPlaced, houtOffset⟩ := advance_spec hok (hr.placed h.ok houtput.end_)
      (n := slice.size) 0 (by omega)
    refine ⟨⟨s.chain.overwrite slice bytes, { s.input with begin_ := it' }, s.source, s.base, state,
      { s.output with end_ := out }, s.sink⟩, slice.size,
      ⟨hok, h.priv.of_nodes hr.nodes, hr.roomy h.roomy, ?_, ?_, ?_, ?_, ?_, ?_⟩,
      ⟨rfl, rfl, rfl, ?_, rfl, fun h0 => absurd h0 hzero, hwhole⟩, ?_⟩
    · refine ⟨hplaced', hr.placed h.ok h.input.end_, rfl, rfl, ?_, h.input.syncing⟩
      show it'.offset ≤ s.input.end_.offset
      omega
    · show it'.reader.size = 0
      omega
    · refine ⟨hr.placed h.ok houtput.begin_, houtPlaced, houtput.pos, ?_, Nat.zero_le _,
        houtput.syncing⟩
      show out.offset = it'.offset
      omega
    · show Streamed E iv state it'.offset
      rw [hoffset', hoffset, ← hcount]
      exact hstate
    · show _ = ctr E iv 0 (plain.take it'.offset) ++ plain.drop it'.offset
      rw [hoffset', hoffset]
      exact hcontents
    · show it'.offset ≤ plain.length
      omega
    · show it'.offset = s.done + slice.size
      omega
    · have hsizeOk : slice.size ≤ ({ s.input with begin_ := it } : ChainBufferReader).size := by
        show slice.size ≤ s.input.end_.offset - it.offset
        omega
      have hconfirmReader : ({ s.input with begin_ := it } : ChainBufferReader).confirmRead slice.size =
          some { s.input with begin_ := it' } := by
        unfold ChainBufferReader.confirmRead
        rw [if_pos hsizeOk, hconfirm]
        rfl
      have hadvanceEnd : s.output.advanceEnd (s.chain.overwrite slice bytes) slice.size =
          some { s.output with end_ := out } := by
        unfold ChainBufferReader.advanceEnd
        rw [hadvance]
        rfl
      rw [if_neg hzero, hbytes, hencrypt, Option.bind_some]
      dsimp only
      rw [hconfirmReader, Option.bind_some, hadvanceEnd, Option.map_some, Option.bind_some]
      have htrue : decide (slice.size ≠ 0) = true := decide_eq_true hzero
      rw [htrue]

/-! ### Between the calls -/

theorem Settled.of_base (h : Settled E iv plain s) (base : ByteFlow.Base) :
    Settled E iv plain { s with base := base } :=
  ⟨h.ok, h.priv, h.roomy, h.input, h.shown, h.output, h.streamed, h.contents, h.le⟩

/-- `get_read_size` takes the end of the input to the end of the chain. -/
theorem getReadSize_spec (h : Settled E iv plain s) :
    ∃ input, s.getReadSize = some ({ s with input := input }, plain.length - s.done) ∧
      Settled E iv plain { s with input := input } ∧
      ({ s with input := input } : AesCtrByteFlow).done = s.done ∧
      input.end_.offset = s.chain.contents.length := by
  have hlen := h.length
  have hle := h.le
  have hlive := h.input
  obtain ⟨it, hrun, hplaced, hoffset⟩ := advanceTillEnd_spec h.ok hlive.end_
  have hsync : s.input.syncWithWriter s.chain = some { s.input with end_ := it } := by
    unfold ChainBufferReader.syncWithWriter
    rw [if_pos hlive.syncing, hrun]
    rfl
  refine ⟨{ s.input with end_ := it }, ?_, ⟨h.ok, h.priv, h.roomy, ?_, h.shown, h.output, h.streamed, h.contents,
    h.le⟩, rfl, hoffset⟩
  · unfold getReadSize
    rw [hsync, Option.map_some]
    unfold ChainBufferReader.size
    dsimp only
    rw [hoffset, hlen]
    rfl
  · refine ⟨hlive.begin_, hplaced, rfl, rfl, ?_, hlive.syncing⟩
    show s.done ≤ it.offset
    omega

/-- The output is not synced with anything. -/
theorem Settled.output_sync (h : Settled E iv plain s) :
    s.output.syncWithWriter s.chain = some s.output := by
  unfold ChainBufferReader.syncWithWriter
  rw [h.output.syncing, if_neg Bool.false_ne_true]

theorem getWriteSize_spec (h : Settled E iv plain s) (hparent : s.base.parent = true) :
    s.getWriteSize = some (s, s.done) := by
  have hsize := h.output.size_eq
  unfold getWriteSize
  rw [if_pos hparent, h.output_sync, Option.map_some, hsize]
  rfl

theorem updateCanRead_active {b : ByteFlow.Base} (hoptions : b.options = {})
    (hactive : b.isInputActive = true) (hneed : b.needSize ≤ 1) (readSize : ℕ) :
    b.updateCanRead readSize = { b with canRead := decide (b.needSize ≤ readSize) } := by
  obtain ⟨waitingFlag, isInputActive, needSize, canRead, canWrite, options, parent, stopFlag⟩ := b
  obtain rfl : options = {} := hoptions
  obtain rfl : isInputActive = true := hactive
  dsimp only at hneed ⊢
  unfold ByteFlow.Base.updateCanRead
  rw [if_pos rfl]
  dsimp only
  by_cases hread : needSize ≤ readSize
  · have hlow : ¬readSize < min needSize (2 ^ 64 - 1) := by omega
    have hhigh : max needSize 0 ≤ readSize := by omega
    rw [if_neg hlow, if_pos hhigh, decide_eq_true hread]
  · have hlow : readSize < min needSize (2 ^ 64 - 1) := by omega
    have hhigh : ¬max needSize 0 ≤ readSize := by omega
    rw [if_pos hlow, if_neg hhigh, decide_eq_false hread]

theorem updateCanRead_inactive {b : ByteFlow.Base} (hactive : b.isInputActive = false) (readSize : ℕ) :
    b.updateCanRead readSize = { b with canRead := true } := by
  unfold ByteFlow.Base.updateCanRead
  rw [hactive, if_neg Bool.false_ne_true]

/-- Nothing keeps the flow from writing. -/
theorem updateCanWrite_open {b : ByteFlow.Base} (hoptions : b.options = {}) {n : ℕ}
    (hsize : n < 2 ^ 64) : b.updateCanWrite n = { b with canWrite := true } := by
  obtain ⟨waitingFlag, isInputActive, needSize, canRead, canWrite, options, parent, stopFlag⟩ := b
  obtain rfl : options = {} := hoptions
  have hlow : n ≤ 2 ^ 64 - 1 := by omega
  unfold ByteFlow.Base.updateCanWrite
  dsimp only
  split_ifs with hhigh
  · rfl
  · rfl

/-- The input is still open, and the flow asks for one more byte at most. -/
structure Active (s : AesCtrByteFlow) : Prop extends Open s where
  active : s.base.isInputActive = true
  need : s.base.needSize ≤ 1

theorem Moved.open {s₁ : AesCtrByteFlow} {n : ℕ} (h : Moved s s₁ n) (ho : Open s) : Open s₁ :=
  ⟨h.base ▸ ho.waiting, h.base ▸ ho.options, h.base ▸ ho.parent, h.base ▸ ho.stop, h.sink ▸ ho.sink,
    h.source.trans ho.source⟩

/-- The two updates at the head of the loop; the flow may go on when its input is closed, or has as much
as it asks for. -/
theorem updates_spec (h : Settled E iv plain s) (ho : Open s) (hneed : s.base.needSize ≤ 1)
    (hlen : plain.length < 2 ^ 64) (hsync : s.input.end_.offset = s.chain.contents.length) :
    ∃ input, s.updateCanRead.bind updateCanWrite =
        some { s with
          input := input
          base := { s.base with
            canRead := !s.base.isInputActive || decide (s.base.needSize ≤ plain.length - s.done)
            canWrite := true } } ∧
      Settled E iv plain { s with input := input } ∧ input.begin_.offset = s.done ∧
      input.end_.offset = s.chain.contents.length := by
  have hle := h.le
  cases hactive : s.base.isInputActive with
  | false =>
    have hwriteSize := getWriteSize_spec
      (h.of_base { s.base with canRead := true }) ho.parent
    refine ⟨s.input, ?_, h, rfl, hsync⟩
    unfold updateCanRead
    rw [hactive, if_neg Bool.false_ne_true, updateCanRead_inactive hactive, Option.bind_some]
    unfold updateCanWrite
    rw [hwriteSize, Option.map_some]
    have hbase := updateCanWrite_open (b := { s.base with canRead := true }) ho.options (Nat.lt_of_le_of_lt hle hlen)
    dsimp only at hbase ⊢
    rw [Bool.not_false, Bool.true_or]
    exact congrArg (fun base => some { s with base := base }) hbase
  | true =>
    obtain ⟨input, hread, h₁, hdone, hend⟩ := getReadSize_spec h
    have hcanRead := updateCanRead_active ho.options hactive hneed (plain.length - s.done)
    have hwriteSize := getWriteSize_spec (h₁.of_base (s.base.updateCanRead (plain.length - s.done))) (by
      dsimp only
      rw [hcanRead]
      exact ho.parent)
    refine ⟨input, ?_, h₁, hdone, hend⟩
    unfold updateCanRead
    rw [hactive, if_pos rfl, hread, Option.map_some, Option.bind_some]
    unfold updateCanWrite
    have hbase : (s.base.updateCanRead (plain.length - s.done)).updateCanWrite s.done =
        { s.base with
          canRead := !true || decide (s.base.needSize ≤ plain.length - s.done), canWrite := true } := by
      rw [hcanRead]
      exact updateCanWrite_open (b := { s.base with
        canRead := decide (s.base.needSize ≤ plain.length - s.done) }) ho.options
        (Nat.lt_of_le_of_lt hle hlen)
    rw [hwriteSize, Option.map_some]
    dsimp only [done] at hdone hbase ⊢
    rw [hdone]
    exact congrArg (fun base => some { s with input := input, base := base }) hbase

/-- One round of the loop of `wakeup`, up to the end of `loop`. -/
theorem wakeupLoop_round (h : Settled E iv plain s) (ho : Open s) (hneed : s.base.needSize ≤ 1)
    (hlen : plain.length < 2 ^ 64) (hsync : s.input.end_.offset = s.chain.contents.length)
    (hread : s.base.isInputActive = false ∨ s.base.needSize ≤ plain.length - s.done) (fuel : ℕ) :
    ∃ s₁ n, Settled E iv plain s₁ ∧ Open s₁ ∧ s₁.base.isInputActive = s.base.isInputActive ∧
      s₁.base.needSize = 0 ∧ s₁.done = s.done + n ∧ s₁.input.end_.offset = s₁.chain.contents.length ∧
      (n = 0 → s.done = s.chain.contents.length) ∧
      (∃ j < s.chain.nodes.length, s.chain.start j ≤ s.done ∧ s.done + n = s.chain.start (j + 1)) ∧
      wakeupLoop E (fuel + 1) s =
        (if s.base.isInputActive then some (s₁, decide (n ≠ 0))
          else (s₁.finish .ok).map fun t => (t, decide (n ≠ 0))).bind fun (s, result) =>
          if result then wakeupLoop E fuel s
          else
            s.getReadSize.bind fun (s, readSize) =>
              wakeupLoop E fuel (if s.base.needSize ≤ readSize
                then { s with base := { s.base with needSize := readSize + 1 } } else s) := by
  obtain ⟨input, hupdates, h₁, hdone, hend⟩ := updates_spec h ho hneed hlen hsync
  have hcanRead : (!s.base.isInputActive || decide (s.base.needSize ≤ plain.length - s.done)) = true := by
    rcases hread with hread | hread
    · rw [hread]
      rfl
    · rw [decide_eq_true hread, Bool.or_true]
  rw [hcanRead] at hupdates
  have hrunning := h₁.of_base { s.base with canRead := true, canWrite := true, needSize := 0 }
  obtain ⟨s₁, n, hs₁, hmoved, hloop⟩ := loop_spec hrunning hend
  have hlength := h.length
  have hdone₁ := hmoved.done
  refine ⟨s₁, n, hs₁, hmoved.open ⟨ho.waiting, ho.options, ho.parent, ho.stop, ho.sink, ho.source⟩, ?_, ?_, ?_, ?_, ?_, ?_, ?_⟩
  · rw [hmoved.base]
  · rw [hmoved.base]
  · rw [hdone₁]
    exact congrArg (· + n) hdone
  · rw [hmoved.synced, hs₁.length, ← hlength]
    exact hend
  · exact fun hn => hdone.symm.trans (hmoved.atEnd hn)
  · rw [← hdone]
    exact hmoved.whole
  · rw [wakeupLoop, ho.stop, if_neg Bool.false_ne_true, hupdates, Option.bind_some]
    dsimp only
    rw [Bool.not_true, Bool.or_false, if_neg Bool.false_ne_true, hloop]

/-- While the input is open, the loop of `wakeup` encrypts all that is there. -/
theorem wakeupLoop_active (hlen : plain.length < 2 ^ 64) (fuel : ℕ) :
    ∀ {s : AesCtrByteFlow}, Settled E iv plain s → Active s →
      s.input.end_.offset = s.chain.contents.length →
      plain.length + 2 ≤ s.done + fuel ∨ s.base.needSize = 1 ∧ s.done = plain.length ∧ 1 ≤ fuel →
      ∃ t, wakeupLoop E fuel s = some t ∧ Settled E iv plain t ∧ Active t := by
  induction fuel with
  | zero =>
    intro s h ha _ hfuel
    have hle := h.le
    have hneed := ha.need
    omega
  | succ fuel ih =>
    intro s h ha hsync hfuel
    have hle := h.le
    have hneed := ha.need
    by_cases hread : s.base.needSize ≤ plain.length - s.done
    · obtain ⟨s₁, n, h₁, ho₁, hactive₁, hneed₁, hdone₁, hsync₁, hatEnd, -, hround⟩ :=
        wakeupLoop_round h ha.toOpen ha.need hlen hsync (Or.inr hread) fuel
      rw [ha.active] at hactive₁
      rw [hround, if_pos ha.active, Option.bind_some]
      dsimp only
      have hlength := h.length
      have hlength₁ := h₁.length
      by_cases hn : n = 0
      · have hfalse : decide (n ≠ 0) = false := decide_eq_false (not_not.mpr hn)
        obtain ⟨input, hreadSize, h₂, hdone₂, hend₂⟩ := getReadSize_spec h₁
        have hzero := hatEnd hn
        have hlast : plain.length - s₁.done = 0 := by omega
        rw [hfalse, if_neg Bool.false_ne_true, hreadSize, Option.bind_some]
        dsimp only
        rw [hneed₁, hlast, if_pos (Nat.le_refl 0)]
        refine ih (h₂.of_base _) ⟨⟨ho₁.waiting, ho₁.options, ho₁.parent, ho₁.stop, ho₁.sink, ho₁.source⟩, hactive₁, Nat.le_refl _⟩ hend₂
          (Or.inr ⟨rfl, ?_, by omega⟩)
        rw [← hlength, ← hzero]
        exact hdone₂.trans (by omega)
      · have htrue : decide (n ≠ 0) = true := decide_eq_true hn
        rw [htrue, if_pos rfl]
        exact ih h₁ ⟨ho₁, hactive₁, by omega⟩ hsync₁ (by omega)
    · obtain ⟨input, hupdates, h₁, -, -⟩ := updates_spec h ha.toOpen ha.need hlen hsync
      rw [wakeupLoop, ha.stop, if_neg Bool.false_ne_true, hupdates, Option.bind_some]
      dsimp only
      have hactive := ha.active
      have hstop : (!(!s.base.isInputActive || decide (s.base.needSize ≤ plain.length - s.done)) || !true) =
          true := by
        rw [hactive, decide_eq_false hread]
        rfl
      rw [hstop, if_pos rfl]
      exact ⟨_, rfl, h₁.of_base _, ⟨⟨ha.waiting, ha.options, ha.parent, ha.stop, ha.sink, ha.source⟩, hactive, ha.need⟩⟩

/-- A wakeup that gets as far as its loop. -/
theorem wakeupFlow_of_loop {s₁ : AesCtrByteFlow} {n : ℕ} (hstop : s.base.stopFlag = false)
    (hread : s.getReadSize = some (s₁, n)) (hwaiting : s₁.base.waitingFlag = false)
    (hloop : wakeupLoop E (s₁.chain.contents.length + 3) s₁ = some t) :
    wakeupFlow E s = t.onOutputUpdated := by
  unfold wakeupFlow
  rw [hstop, if_neg Bool.false_ne_true, hread, Option.bind_some]
  dsimp only
  rw [hwaiting, if_neg Bool.false_ne_true, hloop, Option.bind_some]

theorem wakeup_spec (hlen : plain.length < 2 ^ 64) (h : Settled E iv plain s) (ha : Active s) :
    ∃ t, wakeup E s = some t ∧ Settled E iv plain t ∧ Active t := by
  obtain ⟨input, hreadSize, h₁, hdone₁, hend₁⟩ := getReadSize_spec h
  have ha₁ : Active { s with input := input } :=
    ⟨⟨ha.waiting, ha.options, ha.parent, ha.stop, ha.sink, ha.source⟩, ha.active, ha.need⟩
  have hlength := h.length
  obtain ⟨t, hrun, ht, hta⟩ := wakeupLoop_active hlen (s.chain.contents.length + 3) h₁ ha₁ hend₁ (by omega)
  refine ⟨t, ?_, ht, hta⟩
  unfold wakeup
  rw [if_pos ha.source, wakeupFlow_of_loop ha.stop hreadSize ha₁.waiting hrun]
  unfold onOutputUpdated
  rw [if_pos hta.parent, ht.output_sync]
  rfl

/-! ### The end of the input -/

/-- What `finish` leaves of a flow. -/
structure Finished (s t : AesCtrByteFlow) : Prop where
  parent : t.base.parent = false
  stop : t.base.stopFlag = true
  sink : t.sink = ⟨false, .ok⟩
  done : t.done = s.done

theorem finish_spec (h : Settled E iv plain s) (ho : Open s) :
    ∃ t, s.finish .ok = some t ∧ Settled E iv plain t ∧ Finished s t := by
  have hsync := h.output_sync
  unfold finish
  dsimp only
  rw [if_pos ho.parent]
  unfold closeSink
  dsimp only
  rw [if_pos ho.sink, hsync, Option.map_some, Option.map_some]
  exact ⟨_, rfl, ⟨h.ok, h.priv, h.roomy, h.input, h.shown, h.output, h.streamed, h.contents, h.le⟩, rfl, rfl, rfl, rfl⟩

theorem wakeupLoop_stopped (fuel : ℕ) (h : s.base.stopFlag = true) : wakeupLoop E (fuel + 1) s = some s := by
  rw [wakeupLoop, if_pos h]

/-- The last wakeup encrypts what is left in one node. -/
theorem close_spec (hlen : plain.length < 2 ^ 64) (h : Settled E iv plain s) (ha : Active s) :
    ∃ t n, closeInput E s .ok = some t ∧ Settled E iv plain t ∧ t.sink = ⟨false, .ok⟩ ∧
      t.done = s.done + n ∧ (n = 0 → s.done = s.chain.contents.length) ∧
      ∃ j < s.chain.nodes.length, s.chain.start j ≤ s.done ∧ s.done + n = s.chain.start (j + 1) := by
  have hclosed := h.of_base { s.base with isInputActive := false }
  obtain ⟨input, hreadSize, h₁, hdone₁, hend₁⟩ := getReadSize_spec hclosed
  have ho₁ : Open { s with base := { s.base with isInputActive := false }, input := input } :=
    ⟨ha.waiting, ha.options, ha.parent, ha.stop, ha.sink, ha.source⟩
  obtain ⟨s₂, n, h₂, ho₂, -, -, hdone₂, -, hatEnd, hwhole, hround⟩ :=
    wakeupLoop_round h₁ ho₁ ha.need hlen hend₁ (Or.inl rfl) (s.chain.contents.length + 2)
  obtain ⟨s₃, hfinish, h₃, hf⟩ := finish_spec h₂ ho₂
  obtain ⟨s₄, hloop, h₄, hf₄⟩ : ∃ s₄, wakeupLoop E (s.chain.contents.length + 2 + 1)
      { s with base := { s.base with isInputActive := false }, input := input } = some s₄ ∧
      Settled E iv plain s₄ ∧ Finished s₂ s₄ := by
    rw [hround, if_neg Bool.false_ne_true, hfinish, Option.map_some, Option.bind_some]
    dsimp only
    by_cases hn : n = 0
    · have hfalse : decide (n ≠ 0) = false := decide_eq_false (not_not.mpr hn)
      obtain ⟨input', hreadSize', h₄, hdone₄, -⟩ := getReadSize_spec h₃
      rw [hfalse, if_neg Bool.false_ne_true, hreadSize', Option.bind_some]
      dsimp only
      split_ifs
      · exact ⟨_, wakeupLoop_stopped _ hf.stop, h₄.of_base _, hf.parent, hf.stop, hf.sink,
          hdone₄.trans hf.done⟩
      · exact ⟨_, wakeupLoop_stopped _ hf.stop, h₄, hf.parent, hf.stop, hf.sink, hdone₄.trans hf.done⟩
    · have htrue : decide (n ≠ 0) = true := decide_eq_true hn
      rw [htrue, if_pos rfl]
      exact ⟨s₃, wakeupLoop_stopped _ hf.stop, h₃, hf⟩
  refine ⟨{ s₄ with source := false }, n, ?_, ⟨h₄.ok, h₄.priv, h₄.roomy, h₄.input, h₄.shown, h₄.output, h₄.streamed,
    h₄.contents, h₄.le⟩, hf₄.sink, ?_, ?_, ?_⟩
  · have hflow : closeFlow E s .ok = s₄.onOutputUpdated :=
      wakeupFlow_of_loop ha.stop hreadSize ha.waiting hloop
    unfold closeInput
    rw [if_pos ha.source, hflow]
    unfold onOutputUpdated
    rw [hf₄.parent, if_neg Bool.false_ne_true]
    rfl
  · exact hf₄.done.trans (hdone₂.trans (congrArg (· + n) hdone₁))
  · exact fun hn => hdone₁.symm.trans (hatEnd hn)
  · have hdone : input.begin_.offset = s.done := hdone₁
    dsimp only [done] at hwhole hdone ⊢
    rw [← hdone]
    exact hwhole

/-! ### Appending -/

theorem Settled.appends {c : ChainBuffer} {bytes : List UInt8} (h : Settled E iv plain s)
    (hc : Appends s.chain c bytes) (hp : Private c) (hroomy : Roomy c) :
    Settled E iv (plain ++ bytes) { s with chain := c } := by
  have hle := h.le
  refine ⟨hc.ok, hp, hroomy, h.input.of_extends h.ok hc.extends, h.shown, h.output.of_extends h.ok hc.extends,
    h.streamed, ?_, ?_⟩
  · show c.contents = ctr E iv 0 ((plain ++ bytes).take s.done) ++ (plain ++ bytes).drop s.done
    rw [hc.contents, h.contents, List.take_append_of_le_length hle, List.drop_append_of_le_length hle,
      List.append_assoc]
  · show s.done ≤ (plain ++ bytes).length
    rw [List.length_append]
    omega

/-- A call that puts bytes into the chain. -/
theorem append_step {op : Op} {c : ChainBuffer} {bytes : List UInt8} (h : Settled E iv plain s)
    (ha : Active s) (hstep : step E s op = some ({ s with chain := c }, ()))
    (hc : Appends s.chain c bytes) (hp : Private c) (hroomy : Roomy c) (hbytes : op.bytes s = bytes) :
    ∃ t, step E s op = some (t, ()) ∧ Settled E iv (plain ++ op.bytes s) t ∧ Active t := by
  refine ⟨_, hstep, ?_, ⟨⟨ha.waiting, ha.options, ha.parent, ha.stop, ha.sink, ha.source⟩, ha.active, ha.need⟩⟩
  rw [hbytes]
  exact h.appends hc hp hroomy

theorem step_spec {op : Op} (h : Settled E iv plain s) (ha : Active s) (hallowed : Allowed s op) (hfits : Fits s op)
    (hlen : (plain ++ op.bytes s).length < 2 ^ 64) :
    ∃ t, step E s op = some (t, ()) ∧ Settled E iv (plain ++ op.bytes s) t ∧ Active t := by
  cases op with
  | append slice hint =>
    have hsmall : slice.length < 2 ^ 63 := hallowed
    have hhint : hint.toNat ≤ 2 ^ 64 - 40 ∨ slice.length ≤ s.chain.prepareAppendInplace := hfits
    obtain ⟨c, hrun, hc, hroomy⟩ := append_spec h.ok h.roomy slice hint.toNat (by omega)
    exact append_step h ha (congrArg (Option.map _) hrun) hc (Private.appendLoop _ h.ok h.priv hrun) hroomy rfl
  | newBuffer bytes =>
    exact append_step h ha rfl (appends_newSlice h.ok bytes).1 (h.priv.of_nodes rfl) (h.roomy.newSlice h.ok bytes) rfl
  | appendBuffer slice =>
    have hholds : slice.holds s.chain.raws = true := hallowed
    have hvalid := valid_of_holds hholds
    obtain ⟨c, hrun, hc, hroomy⟩ := appendBuffer_spec h.ok h.roomy hvalid
    refine append_step h ha ?_ hc (h.priv.appendBuffer h.ok hvalid hfits hrun) hroomy rfl
    unfold step
    dsimp only
    rw [if_pos hholds, hrun]
    rfl
  | prepareAppend hint =>
    exact append_step h ha rfl (appends_prepare h.ok _) (h.priv.prepare h.ok _) (h.roomy.prepare hfits) rfl
  | prepareAppendAtLeast size =>
    exact append_step h ha rfl (appends_prepareAtLeast h.ok _) (h.priv.prepareAtLeast h.ok _)
      (h.roomy.prepareAtLeast hfits) rfl
  | prepareAppendAlloc hint =>
    exact append_step h ha rfl (appends_alloc h.ok _) (h.priv.alloc h.ok _) (roomy_alloc _ hfits) rfl
  | confirmAppend bytes =>
    obtain ⟨c, hrun⟩ := h.roomy.exists_confirm hallowed
    exact append_step h ha (congrArg (Option.map _) hrun) (appends_confirm h.ok hrun) (h.priv.confirm hrun)
      (h.roomy.confirm hrun) rfl
  | wakeup =>
    have hplain : plain ++ Op.wakeup.bytes s = plain := List.append_nil plain
    rw [hplain] at hlen ⊢
    obtain ⟨t, hrun, ht, hta⟩ := wakeup_spec hlen h ha
    exact ⟨t, congrArg (Option.map _) hrun, ht, hta⟩

/-! ### Runs -/

/-- The reader that a new writer hands out is the input of `start`. -/
theorem extractReader_init : ChainBuffer.init.extractReader =
    some ((start E iv).chain, (start E iv).input) := rfl

theorem settled_start : Settled E iv [] (start E iv) := by
  have hok : Ok (start E iv).chain := (appends_head ok_init).ok
  have hplaced : Placed (start E iv).chain (start E iv).input.begin_ :=
    ⟨0, ⟨⟨some 0, 0, 0⟩, true⟩, rfl, rfl, rfl, rfl, Nat.le_refl _, Nat.le_refl _, Nat.le_refl _, fun _ => rfl,
      rfl⟩
  refine ⟨hok, ⟨List.pairwise_singleton _ _, ?_⟩, roomy_init, ⟨hplaced, hplaced, rfl, rfl, Nat.le_refl _, rfl⟩, rfl,
    ⟨hplaced, hplaced, rfl, rfl, Nat.le_refl _, rfl⟩, streamed_init, rfl, Nat.le_refl _⟩
  intro node hnode _
  obtain rfl := List.mem_singleton.mp hnode
  exact ⟨rfl, rfl⟩

theorem active_start : Active (start E iv) :=
  ⟨⟨rfl, rfl, rfl, rfl, rfl, rfl⟩, rfl, Nat.zero_le _⟩

/-- The output is the encryption of what was read. -/
theorem Settled.output_bytes (h : Settled E iv plain s) :
    (s.output.moveAsBufferSlice s.chain).map Prod.snd = some (ctr E iv 0 (plain.take s.done)) := by
  have hle := h.le
  have hlen : (ctr E iv 0 (plain.take s.done)).length = s.done := by
    rw [length_ctr, List.length_take]
    omega
  rw [Reads.moveAsBufferSlice h.ok (Or.inl h.output), Option.map_some, h.contents]
  exact congrArg some (List.take_left' hlen)

/-- The last wakeup reads the one node in which the rest stands, or all of it is read already. -/
theorem oneNode_iff (h : Settled E iv plain s) {n : ℕ} (hatEnd : n = 0 → s.done = s.chain.contents.length)
    (hwhole : ∃ j < s.chain.nodes.length, s.chain.start j ≤ s.done ∧ s.done + n = s.chain.start (j + 1)) :
    s.done + n = plain.length ↔ OneNode s := by
  have hlen := h.length
  obtain ⟨j, hj, hfirst, hlast⟩ := hwhole
  constructor
  · intro hn
    exact ⟨j, hj, hfirst, by omega⟩
  · rintro ⟨i, hi, hstart, hrest⟩
    have hdone : s.chain.start i ≤ s.done := hstart
    have hend : s.chain.start (j + 1) ≤ s.chain.start s.chain.nodes.length := start_le_start hj
    rw [start_length] at hend
    by_cases hn : n = 0
    · have hread := hatEnd hn
      omega
    · -- the two nodes are the same, as bytes are left in each
      have hle : i ≤ j := by
        by_contra hij
        have hmono : s.chain.start (j + 1) ≤ s.chain.start i := start_le_start (Nat.lt_of_not_ge hij)
        omega
      have hge : s.chain.start (i + 1) ≤ s.chain.start (j + 1) := start_le_start (Nat.succ_le_succ hle)
      omega

/-- What a run has given, and what one more call gives. -/
theorem given_concat {op : Op} : ∀ {ops : List Op} {s t : AesCtrByteFlow} {answers : List Unit},
    (machine E).run s ops = some (t, answers) → given E s (ops ++ [op]) = given E s ops ++ op.bytes t
  | [], s, t, answers, h => by
    obtain ⟨rfl, -⟩ := Prod.mk.inj (Option.some.inj h)
    rw [List.nil_append, given, given, List.nil_append]
    cases step E s op <;> exact List.append_nil _
  | op' :: ops, s, t, answers, h => by
    obtain ⟨u, o, rest, hstep, hrun, -⟩ := Lib.Machine.run_cons_inv h
    have hu : step E s op' = some (u, o) := hstep
    rw [List.cons_append, given, given, hu]
    dsimp only
    rw [given_concat hrun, List.append_assoc]

theorem length_given_le {op : Op} : ∀ (ops : List Op) (s : AesCtrByteFlow),
    (given E s ops).length ≤ (given E s (ops ++ [op])).length
  | [], s => Nat.zero_le _
  | op' :: ops, s => by
    rw [List.cons_append, given, given, List.length_append, List.length_append]
    cases step E s op' with
    | none => exact Nat.le_refl _
    | some r => exact Nat.add_le_add_left (length_given_le ops r.1) _

/-- Whatever is appended and however it is woken, as long as no node shares bytes with another and no size wraps,
closing the input delivers the encryption of all of it when at most one node was left to read, and of less otherwise. -/
theorem delivers_iff (E : AesBlock → AesBlock) (iv : AesBlock) (ops : List Op)
    (hlen : (given E (start E iv) ops).length < 2 ^ 64)
    (hops : (machine E).Along (fun s op => Allowed s op ∧ Fits s op) (start E iv) ops) :
    ∃ s t answers, (machine E).run (start E iv) ops = some (s, answers) ∧ closeInput E s .ok = some t ∧
      (Delivers t (ctr E iv 0 (given E (start E iv) ops)) ↔ OneNode s) := by
  have hstep : ∀ ops answers s op, (given E (start E iv) (ops ++ [op])).length < 2 ^ 64 →
      (Allowed s op ∧ Fits s op) →
      ((machine E).run (start E iv) ops = some (s, answers) ∧ Settled E iv (given E (start E iv) ops) s ∧ Active s) →
      ∃ s' answer, (machine E).step s op = some (s', answer) ∧
        ((machine E).run (start E iv) (ops ++ [op]) = some (s', answers ++ [answer]) ∧
          Settled E iv (given E (start E iv) (ops ++ [op])) s' ∧ Active s') := by
    rintro ops answers s op hlen ⟨hallowed, hfits⟩ ⟨hrun, hs, ha⟩
    rw [given_concat hrun] at hlen ⊢
    obtain ⟨t, hstep, ht, hta⟩ := step_spec hs ha hallowed hfits hlen
    exact ⟨t, (), hstep, Lib.Machine.run_concat_of hrun hstep, ht, hta⟩
  obtain ⟨s, answers, hrun, -, hs, ha⟩ := Lib.Machine.run_history (machine E) (start E iv)
    (fun s op => Allowed s op ∧ Fits s op) (fun ops => (given E (start E iv) ops).length < 2 ^ 64)
    (fun ops answers s => (machine E).run (start E iv) ops = some (s, answers) ∧
      Settled E iv (given E (start E iv) ops) s ∧ Active s)
    (fun ops op h => Nat.lt_of_le_of_lt (length_given_le ops _) h) ⟨rfl, settled_start, active_start⟩
    hstep ops hlen hops
  obtain ⟨t, n, hclose, ht, hsink, hdone, hatEnd, hwhole⟩ := close_spec hlen hs ha
  refine ⟨s, t, answers, hrun, hclose, ?_⟩
  have hle := ht.le
  have hbytes := ht.output_bytes
  rw [← oneNode_iff hs hatEnd hwhole, ← hdone]
  unfold Delivers
  rw [hsink, hbytes]
  constructor
  · rintro ⟨-, -, hall⟩
    have hlength := congrArg List.length (Option.some.inj hall)
    rw [length_ctr, length_ctr, List.length_take] at hlength
    omega
  · intro hall
    rw [hall, List.take_length]
    exact ⟨rfl, rfl, rfl⟩

/-- A byte that is copied, and a slice of another buffer that becomes a node and is left to the end of the input. -/
theorem delivers_iff_woken : ∃ s t answers,
    (machine id).run (start id ⟨0, 0⟩) [.append [1] 0, .wakeup, .newBuffer (List.replicate 600 7),
      .appendBuffer ⟨some 1, 0, 600⟩] = some (s, answers) ∧
    closeInput id s .ok = some t ∧ (Delivers t (ctr id ⟨0, 0⟩ 0 (given id (start id ⟨0, 0⟩) [.append [1] 0, .wakeup,
      .newBuffer (List.replicate 600 7), .appendBuffer ⟨some 1, 0, 600⟩])) ↔ OneNode s) :=
  delivers_iff id ⟨0, 0⟩ [.append [1] 0, .wakeup, .newBuffer (List.replicate 600 7), .appendBuffer ⟨some 1, 0, 600⟩]
    (by decide +kernel) (by decide +kernel)

/-- The two bytes stand in two nodes, and nothing has woken the flow before the end of the input. -/
theorem close_two_nodes : ¬∀ (E : AesBlock → AesBlock) (iv : AesBlock) (ops : List Op),
    (given E (start E iv) ops).length < 2 ^ 64 → (machine E).Along Allowed (start E iv) ops →
    ∃ s t answers, (machine E).run (start E iv) ops = some (s, answers) ∧ closeInput E s .ok = some t ∧
      Delivers t (ctr E iv 0 (given E (start E iv) ops)) := by
  intro hall
  obtain ⟨s, t, answers, hrun, hclose, -, -, hbytes⟩ := hall id ⟨0, 0⟩
    [.append [1] 0, .prepareAppendAlloc 0, .append [2] 0] (by decide +kernel) (by decide +kernel)
  have hsent : (((machine id).run (start id ⟨0, 0⟩)
      [.append [1] 0, .prepareAppendAlloc 0, .append [2] 0]).bind fun r =>
        (closeInput id r.1 .ok).bind fun t =>
          (t.output.moveAsBufferSlice t.chain).map fun r => r.2.length) = some 1 := by
    decide +kernel
  have hgiven : (given id (start id ⟨0, 0⟩) [.append [1] 0, .prepareAppendAlloc 0, .append [2] 0]).length = 2 := by
    decide +kernel
  obtain ⟨⟨reader, bytes⟩, hmove, rfl⟩ := Option.map_eq_some_iff.mp hbytes
  rw [hrun, Option.bind_some] at hsent
  dsimp only at hsent
  rw [hclose, Option.bind_some, hmove, Option.map_some] at hsent
  dsimp only at hsent
  rw [length_ctr, hgiven] at hsent
  cases hsent

end TdUtils.AesCtrByteFlow
