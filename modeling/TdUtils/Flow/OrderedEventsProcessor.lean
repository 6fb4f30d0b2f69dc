import Mathlib.Data.List.Nodup
import Mathlib.Data.List.Range
import TdUtils.Lib.Machine
import TdUtils.Lib.Word

/-!
# Flow.OrderedEventsProcessor — delivery in the order of sequence numbers

`add` runs the callback at once for the event that is due and then for every buffered event that
became due; every other event is kept in `dataArray`, addressed by its distance from `offset`.
The invariant `Buffered` ties the slots of the array to the events that were added and are not
delivered yet; `add_spec` keeps it, and `delivers_in_order` is the result for whole runs.
-/

namespace TdUtils.Flow

open Lib

universe u

/-- Sequence numbers are values of `uint64`: their arithmetic wraps around explicitly. -/
structure OrderedEventsProcessor (D : Type u) where
  offset : ℕ
  begin_ : ℕ
  end_ : ℕ
  dataArray : List (D × Bool)

namespace OrderedEventsProcessor

variable {D : Type u}

/-- `OrderedEventsProcessor(SeqNo offset)`. -/
def ofOffset (offset : ℕ) : OrderedEventsProcessor D := ⟨offset, offset, offset, []⟩

/-- The index of a sequence number in `dataArray`. -/
def pos (p : OrderedEventsProcessor D) (seqNo : ℕ) : ℕ := Word.sub 64 seqNo p.offset

/-- The inner loop `while (begin_ < end_)`, started with `end_ - begin_` as its budget.  `none` is
an index out of range. -/
def drain : ℕ → OrderedEventsProcessor D →
    Option (OrderedEventsProcessor D × List (ℕ × D))
  | 0, p => some (p, [])
  | n + 1, p =>
    if p.begin_ < p.end_ then
      match p.dataArray[p.pos p.begin_]? with
      | none => none
      | some (_, false) => some (p, [])
      | some (d, true) =>
        match drain n { p with
          dataArray := p.dataArray.set (p.pos p.begin_) (d, false)
          begin_ := Word.add 64 p.begin_ 1 } with
        | none => none
        | some (q, out) => some (q, (p.begin_, d) :: out)
    else some (p, [])

/-- `end_` and `offset_` catch up with `begin_`. -/
def catchUp (p : OrderedEventsProcessor D) : OrderedEventsProcessor D :=
  let p := if p.end_ < p.begin_ then { p with end_ := p.begin_ } else p
  if p.begin_ = p.end_ then { p with offset := p.begin_ } else p

/-- `try_compactify`; erasing past the end of the array is `none`. -/
def tryCompactify (p : OrderedEventsProcessor D) : Option (OrderedEventsProcessor D) :=
  let beginPos := p.pos p.begin_
  if 5 < beginPos ∧ p.dataArray.length < beginPos * 2 % 2 ^ 64 then
    if beginPos ≤ p.dataArray.length then
      some { p with dataArray := p.dataArray.drop beginPos, offset := p.begin_ }
    else none
  else some p

/-- The `else` branch of `add`: keep the event for later. -/
def keep [Inhabited D] (p : OrderedEventsProcessor D) (seqNo : ℕ) (data : D) :
    Option (OrderedEventsProcessor D) :=
  let pos := p.pos seqNo
  let needSize := Word.add 64 pos 1
  let arr := p.dataArray ++ List.replicate (needSize - p.dataArray.length) (default, false)
  if pos < arr.length then
    some { p with
      dataArray := arr.set pos (data, true)
      end_ := if p.end_ < Word.add 64 seqNo 1 then Word.add 64 seqNo 1 else p.end_ }
  else none

/-- `add`: the new state and the calls of `function`, in order. -/
def add [Inhabited D] (p : OrderedEventsProcessor D) (seqNo : ℕ) (data : D) :
    Option (OrderedEventsProcessor D × List (ℕ × D)) :=
  if seqNo < p.begin_ then none  -- LOG_CHECK(seq_no >= begin_)
  else if seqNo = p.begin_ then
    let p := { p with begin_ := Word.add 64 p.begin_ 1 }
    match drain (p.end_ - p.begin_) p with
    | none => none
    | some (q, out) =>
      match tryCompactify (catchUp q) with
      | none => none
      | some q => some (q, (seqNo, data) :: out)
  else
    match keep p seqNo data with
    | none => none
    | some q => some (q, [])

/-- The processor as a machine that reads events and answers with the callbacks it ran. -/
def machine (D : Type u) [Inhabited D] :
    Machine (OrderedEventsProcessor D) (ℕ × D) (List (ℕ × D)) :=
  ⟨fun p e => p.add e.1 e.2⟩

/-! ### The invariant -/

/-- What holds of the array, whether or not the event due next is in it: the events `out` delivered
so far are consecutive, and a slot is occupied exactly by the pending event it belongs to. -/
structure Buffered (start : ℕ) (evs out : List (ℕ × D)) (p : OrderedEventsProcessor D) :
    Prop where
  start_le : start ≤ p.begin_
  offset_le : p.offset ≤ p.begin_
  begin_lt : p.begin_ < 2 ^ 64
  end_lt : p.end_ < 2 ^ 64
  end_le : p.begin_ < p.end_ → p.end_ ≤ p.offset + p.dataArray.length
  out_seq : out.map Prod.fst = List.range' start (p.begin_ - start)
  out_mem : ∀ e ∈ out, e ∈ evs
  pending : ∀ e ∈ evs, p.begin_ ≤ e.1 →
    e.1 < p.end_ ∧ p.dataArray[e.1 - p.offset]? = some (e.2, true)
  occupied : ∀ i d, p.dataArray[i]? = some (d, true) →
    p.begin_ ≤ p.offset + i ∧ (p.offset + i, d) ∈ evs

/-- Between two calls of `add` the event due next has not been added. -/
structure Settled (start : ℕ) (evs out : List (ℕ × D)) (p : OrderedEventsProcessor D) :
    Prop extends Buffered start evs out p where
  begin_le : p.begin_ ≤ p.end_
  next_free : ∀ e ∈ evs, e.1 ≠ p.begin_

variable {start : ℕ} {evs out : List (ℕ × D)} {p : OrderedEventsProcessor D}

theorem pos_eq {s : ℕ} (h : p.offset ≤ s) (hs : s < 2 ^ 64) : p.pos s = s - p.offset :=
  Word.sub_of_le h hs

theorem settled_ofOffset (h : start < 2 ^ 64) :
    Settled start [] [] (ofOffset start : OrderedEventsProcessor D) where
  start_le := le_rfl
  offset_le := le_rfl
  begin_lt := h
  end_lt := h
  end_le := fun hlt => absurd hlt (lt_irrefl _)
  out_seq := by simp [ofOffset]
  out_mem := by simp
  pending := by simp
  occupied := by simp [ofOffset]
  begin_le := le_rfl
  next_free := by simp

theorem range'_concat {start b : ℕ} (h : start ≤ b) :
    List.range' start (b - start) ++ [b] = List.range' start (b + 1 - start) := by
  have hb : b + 1 - start = (b - start) + 1 := by omega
  rw [hb, List.range'_concat, show start + 1 * (b - start) = b by omega]

/-- Delivering the event in the slot of `begin_`. -/
theorem Buffered.deliver (h : Buffered start evs out p) {d : D} (hlt : p.begin_ < p.end_)
    (hslot : p.dataArray[p.begin_ - p.offset]? = some (d, true)) :
    Buffered start evs (out ++ [(p.begin_, d)])
      { p with
        dataArray := p.dataArray.set (p.begin_ - p.offset) (d, false)
        begin_ := p.begin_ + 1 } where
  start_le := by have := h.start_le; simp only; omega
  offset_le := by have := h.offset_le; simp only; omega
  begin_lt := by have := h.end_lt; simp only; omega
  end_lt := h.end_lt
  end_le := fun _ => by simpa using h.end_le hlt
  out_seq := by simp [h.out_seq, range'_concat h.start_le]
  out_mem := by
    intro e he
    rcases List.mem_append.mp he with he | he
    · exact h.out_mem e he
    · obtain ⟨-, hmem⟩ := h.occupied _ _ hslot
      rw [Nat.add_sub_cancel' h.offset_le] at hmem
      simpa [List.mem_singleton.mp he] using hmem
  pending := by
    intro e he hle
    simp only at hle
    obtain ⟨h1, h2⟩ := h.pending e he (by omega)
    refine ⟨h1, ?_⟩
    have hoff := h.offset_le
    show (p.dataArray.set (p.begin_ - p.offset) (d, false))[e.1 - p.offset]? = _
    rw [List.getElem?_set_ne (by omega), h2]
  occupied := by
    intro i x hx
    by_cases hi : i = p.begin_ - p.offset
    · subst hi
      rw [List.getElem?_set_self' , hslot] at hx
      simp at hx
    · rw [List.getElem?_set_ne (Ne.symm hi)] at hx
      obtain ⟨h1, h2⟩ := h.occupied i x hx
      exact ⟨by simp only; omega, h2⟩

/-- The inner loop delivers events until the next one due has not been added. -/
theorem drain_spec : ∀ (n : ℕ) (p : OrderedEventsProcessor D) (out : List (ℕ × D)),
    Buffered start evs out p → n = p.end_ - p.begin_ →
      ∃ q out', drain n p = some (q, out') ∧ Buffered start evs (out ++ out') q ∧
        ∀ e ∈ evs, e.1 ≠ q.begin_
  | 0, p, out, h, hn => by
    refine ⟨p, [], rfl, by simpa using h, fun e he heq => ?_⟩
    have := (h.pending e he heq.ge).1
    omega
  | n + 1, p, out, h, hn => by
    have hlt : p.begin_ < p.end_ := by omega
    have hpos := pos_eq h.offset_le h.begin_lt
    have hin : p.begin_ - p.offset < p.dataArray.length := by
      have := h.end_le hlt
      have := h.offset_le
      omega
    obtain ⟨⟨d, flag⟩, hslot⟩ : ∃ x, p.dataArray[p.begin_ - p.offset]? = some x :=
      ⟨_, List.getElem?_eq_getElem hin⟩
    cases flag with
    | false =>
      refine ⟨p, [], by simp [drain, hlt, hpos, hslot], by simpa using h, fun e he heq => ?_⟩
      -- a pending event would occupy the slot that was found free
      have h2 := (h.pending e he heq.ge).2
      rw [heq, hslot] at h2
      simp at h2
    | true =>
      have hadd : Word.add 64 p.begin_ 1 = p.begin_ + 1 :=
        Word.add_of_lt (by have := h.end_lt; omega)
      obtain ⟨q, out', hq, hbuf, hnext⟩ :=
        drain_spec n _ _ (h.deliver hlt hslot) (by simp only; omega)
      refine ⟨q, (p.begin_, d) :: out', ?_, by simpa using hbuf, hnext⟩
      simp only [drain, hlt, if_true, hpos, hslot, hadd, hq]

/-- When nothing is buffered past `begin_`, no slot is occupied. -/
theorem Buffered.occupied_lt (h : Buffered start evs out p) {i : ℕ} {d : D}
    (hi : p.dataArray[i]? = some (d, true)) : p.offset + i < p.end_ := by
  obtain ⟨hle, hmem⟩ := h.occupied i d hi
  exact (h.pending _ hmem hle).1

theorem Buffered.end_catchUp (h : Buffered start evs out p) :
    Buffered start evs out (if p.end_ < p.begin_ then { p with end_ := p.begin_ } else p) := by
  split_ifs with hlt
  · exact
      { h with
        end_lt := h.begin_lt
        end_le := fun hb => absurd hb (lt_irrefl _)
        pending := fun e he hle => by
          have := (h.pending e he hle).1
          simp only at hle
          omega }
  · exact h

theorem Buffered.catchUp (h : Buffered start evs out p) (hnext : ∀ e ∈ evs, e.1 ≠ p.begin_) :
    Settled start evs out p.catchUp := by
  have h' := h.end_catchUp
  unfold OrderedEventsProcessor.catchUp
  set q := if p.end_ < p.begin_ then { p with end_ := p.begin_ } else p with hq
  have hb : q.begin_ = p.begin_ := by rw [hq]; split_ifs <;> rfl
  have hle : q.begin_ ≤ q.end_ := by
    rw [hq]
    split_ifs with hlt
    · exact le_rfl
    · exact not_lt.mp hlt
  have hnext' : ∀ e ∈ evs, e.1 ≠ q.begin_ := by rwa [hb]
  dsimp only
  split_ifs with heq
  · -- the array is drained: nothing is pending, whatever the offset
    have hfree : ∀ i d, q.dataArray[i]? ≠ some (d, true) := fun i d hi => by
      have h1 := h'.occupied_lt hi
      have h2 := (h'.occupied i d hi).1
      omega
    exact
      { h' with
        offset_le := le_rfl
        end_le := fun hlt => absurd heq hlt.ne
        pending := fun e he hbe => by
          have := (h'.pending e he hbe).1
          simp only at hbe
          omega
        occupied := fun i d hi => absurd hi (hfree i d)
        begin_le := hle
        next_free := hnext' }
  · exact { h' with begin_le := hle, next_free := hnext' }

/-- Compaction is in range and moves every pending event to its new slot. -/
theorem Settled.compact (h : Settled start evs out p)
    (hdrained : p.begin_ = p.end_ → p.offset = p.begin_) :
    ∃ q, tryCompactify p = some q ∧ Settled start evs out q := by
  unfold tryCompactify
  rw [pos_eq h.offset_le h.begin_lt]
  have hoff := h.offset_le
  have hin : p.begin_ - p.offset ≤ p.dataArray.length := by
    rcases h.begin_le.lt_or_eq with hlt | heq
    · have := h.end_le hlt
      omega
    · rw [hdrained heq]
      omega
  dsimp only
  split_ifs with hc
  · refine ⟨_, rfl, { h with
      offset_le := le_rfl
      end_le := fun hlt => ?_
      pending := fun e he hle => ?_
      occupied := fun i d hi => ?_ }⟩
    · have := h.end_le hlt
      simp only [List.length_drop]
      omega
    · obtain ⟨h1, h2⟩ := h.pending e he hle
      refine ⟨h1, ?_⟩
      simp only at hle ⊢
      rw [List.getElem?_drop, show p.begin_ - p.offset + (e.1 - p.begin_) = e.1 - p.offset by omega,
        h2]
    · simp only [List.getElem?_drop] at hi
      obtain ⟨-, hmem⟩ := h.occupied _ d hi
      rw [show p.offset + (p.begin_ - p.offset + i) = p.begin_ + i by omega] at hmem
      exact ⟨Nat.le_add_right _ _, hmem⟩
  · exact ⟨p, rfl, h⟩

theorem catchUp_drained (p : OrderedEventsProcessor D) (h : p.catchUp.begin_ = p.catchUp.end_) :
    p.catchUp.offset = p.catchUp.begin_ := by
  revert h
  unfold catchUp
  generalize (if p.end_ < p.begin_ then { p with end_ := p.begin_ } else p) = q
  dsimp only
  split_ifs with heq
  · exact fun _ => rfl
  · exact fun h => absurd h heq

/-- The array after the slot of a later event was made and filled. -/
theorem keep_spec [Inhabited D] (h : Settled start evs out p) {s : ℕ} {d : D} (hs : p.begin_ < s)
    (hs' : s + 1 < 2 ^ 64) (hnew : ∀ e ∈ evs, e.1 ≠ s) :
    ∃ q, keep p s d = some q ∧ Settled start (evs ++ [(s, d)]) out q := by
  have hoff := h.offset_le
  have hadd : Word.add 64 s 1 = s + 1 := Word.add_of_lt hs'
  have hneed : Word.add 64 (s - p.offset) 1 = s - p.offset + 1 := Word.add_of_lt (by omega)
  unfold keep
  dsimp only
  rw [pos_eq (by omega) (by omega), hneed, hadd]
  set arr := p.dataArray ++
    List.replicate (s - p.offset + 1 - p.dataArray.length) ((default : D), false) with harr
  have hlen : s - p.offset < arr.length := by
    simp only [harr, List.length_append, List.length_replicate]
    omega
  have hle : p.dataArray.length ≤ arr.length := by simp [harr]
  -- growing the array neither moves nor adds an occupied slot
  have hget : ∀ (i : ℕ) (d : D), arr[i]? = some (d, true) ↔ p.dataArray[i]? = some (d, true) := by
    intro i x
    rw [harr, List.getElem?_append]
    split_ifs with hi
    · rfl
    · rw [List.getElem?_replicate, List.getElem?_eq_none (by omega)]
      split_ifs <;> simp
  rw [if_pos hlen]
  refine ⟨_, rfl, { h with
    end_lt := ?_, end_le := ?_, out_mem := ?_, pending := ?_, occupied := ?_, begin_le := ?_
    next_free := ?_ }⟩
  · have := h.end_lt
    simp only
    split_ifs <;> omega
  · intro _
    simp only [List.length_set]
    split_ifs with he
    · omega
    · have := h.end_le (by have := h.begin_le; omega)
      omega
  · exact fun e he => List.mem_append_left _ (h.out_mem e he)
  · intro e he hbe
    simp only
    rcases List.mem_append.mp he with he | he
    · obtain ⟨h1, h2⟩ := h.pending e he hbe
      refine ⟨by split_ifs <;> omega, ?_⟩
      have hne := hnew e he
      simp only at hbe
      rw [List.getElem?_set_ne (by omega), hget, h2]
    · rw [List.mem_singleton.mp he]
      exact ⟨by split_ifs <;> omega, List.getElem?_set_self hlen⟩
  · intro i x hi
    simp only at hi ⊢
    by_cases his : i = s - p.offset
    · subst his
      rw [List.getElem?_set_self hlen] at hi
      obtain ⟨rfl, -⟩ : d = x ∧ True := by simpa using hi
      exact ⟨by omega, by simp [show p.offset + (s - p.offset) = s by omega]⟩
    · rw [List.getElem?_set_ne (Ne.symm his), hget] at hi
      obtain ⟨h1, h2⟩ := h.occupied i x hi
      exact ⟨h1, List.mem_append_left _ h2⟩
  · have := h.begin_le
    simp only
    split_ifs <;> omega
  · intro e he
    rcases List.mem_append.mp he with he | he
    · exact h.next_free e he
    · rw [List.mem_singleton.mp he]
      simp only
      omega

/-- The event due next: it leaves the array as it is and moves `begin_` past itself. -/
theorem Settled.due (h : Settled start evs out p) (d : D) (hb : p.begin_ + 1 < 2 ^ 64) :
    Buffered start (evs ++ [(p.begin_, d)]) (out ++ [(p.begin_, d)])
      { p with begin_ := p.begin_ + 1 } where
  start_le := h.start_le.trans (Nat.le_succ _)
  offset_le := h.offset_le.trans (Nat.le_succ _)
  begin_lt := hb
  end_lt := h.end_lt
  end_le := fun hlt => h.end_le (Nat.lt_of_succ_lt hlt)
  out_seq := by simp [h.out_seq, range'_concat h.start_le]
  out_mem := by
    intro e he
    rcases List.mem_append.mp he with he | he
    · exact List.mem_append_left _ (h.out_mem e he)
    · exact List.mem_append_right _ he
  pending := by
    intro e he hle
    simp only at hle
    rcases List.mem_append.mp he with he | he
    · exact h.pending e he (by omega)
    · rw [List.mem_singleton.mp he] at hle
      simp only at hle
      omega
  occupied := by
    intro i x hi
    obtain ⟨h1, h2⟩ := h.occupied i x hi
    have hne := h.next_free _ h2
    simp only at hne ⊢
    exact ⟨by omega, List.mem_append_left _ h2⟩

variable [Inhabited D]

/-- One call of `add`. -/
theorem add_spec (h : Settled start evs out p) {s : ℕ} {d : D} (hstart : start ≤ s)
    (hs : s + 1 < 2 ^ 64) (hnew : ∀ e ∈ evs, e.1 ≠ s) :
    ∃ q out', add p s d = some (q, out') ∧ Settled start (evs ++ [(s, d)]) (out ++ out') q := by
  have hge : ¬ s < p.begin_ := by
    -- the sequence numbers below `begin_` have been delivered, hence added
    intro hlt
    have hmem : s ∈ out.map Prod.fst := by
      rw [h.out_seq, List.mem_range']
      exact ⟨s - start, by omega, by omega⟩
    obtain ⟨e, he, hes⟩ := List.mem_map.mp hmem
    exact hnew e (h.out_mem e he) hes
  unfold add
  rw [if_neg hge]
  split_ifs with heq
  · subst heq
    rw [Word.add_of_lt hs]
    obtain ⟨q, out', hq, hbuf, hnext⟩ := drain_spec _ _ _ (h.due d hs) rfl
    obtain ⟨r, hr, hset⟩ := (hbuf.catchUp hnext).compact (catchUp_drained q)
    refine ⟨r, (p.begin_, d) :: out', ?_, by simpa using hset⟩
    simp only [hq, hr]
  · obtain ⟨q, hq, hset⟩ := keep_spec (d := d) h (by omega) hs hnew
    exact ⟨q, [], by simp only [hq], by simpa using hset⟩

/-! ### Whole runs -/

/-- Events with pairwise distinct sequence numbers not below the starting number. -/
def Arrivals (start : ℕ) (evs : List (ℕ × D)) : Prop :=
  start < 2 ^ 64 ∧ (evs.map Prod.fst).Nodup ∧ ∀ e ∈ evs, start ≤ e.1 ∧ e.1 < 2 ^ 64

/-- `out` is what the callback must have received after the events `evs`: consecutive numbers from
`start`, each with the data of its event, up to the first number that was not added. -/
def Delivered (start : ℕ) (evs out : List (ℕ × D)) : Prop :=
  ∃ k, out.map Prod.fst = List.range' start k ∧ (∀ e ∈ out, e ∈ evs) ∧ ∀ e ∈ evs, e.1 ≠ start + k

omit [Inhabited D] in
theorem Settled.delivered (h : Settled start evs out p) : Delivered start evs out :=
  ⟨p.begin_ - start, h.out_seq, h.out_mem, by
    rw [Nat.add_sub_cancel' h.start_le]
    exact h.next_free⟩

omit [Inhabited D] in
/-- An event that was not delivered waits in the slot of its sequence number. -/
theorem Settled.waiting (h : Settled start evs out p) (hnd : (evs.map Prod.fst).Nodup)
    (hge : ∀ e ∈ evs, start ≤ e.1) {e : ℕ × D} (he : e ∈ evs) (hout : e ∉ out) :
    p.dataArray[e.1 - p.offset]? = some (e.2, true) := by
  refine (h.pending e he ?_).2
  by_contra hlt
  have hmem : e.1 ∈ out.map Prod.fst := by
    rw [h.out_seq, List.mem_range']
    have := hge e he
    exact ⟨e.1 - start, by omega, by omega⟩
  obtain ⟨e', he', heq⟩ := List.mem_map.mp hmem
  have := List.inj_on_of_nodup_map hnd (h.out_mem e' he') he heq
  exact hout (this ▸ he')

/-- **Delivery in order.**  Whatever the order in which events with distinct sequence numbers below
the last value of `uint64` are added, no index leaves the array, and after each `add` the callback
has received the maximal consecutive prefix of the events added so far, each with its own data;
every other event waits in the slot of its sequence number. -/
theorem delivers_in_order (start : ℕ) (evs : List (ℕ × D)) (h : Arrivals start evs)
    (htop : ∀ e ∈ evs, e.1 + 1 < 2 ^ 64) :
    ∃ p outs, (machine D).run (ofOffset start) evs = some (p, outs) ∧
      Delivered start evs outs.flatten ∧
      ∀ e ∈ evs, e ∉ outs.flatten → p.dataArray[e.1 - p.offset]? = some (e.2, true) := by
  have hrun := Machine.run_history (machine D) (ofOffset start)
    (fun _ e => e.1 + 1 < 2 ^ 64) (Arrivals start)
    (fun evs outs p => Settled start evs outs.flatten p) ?_
    (settled_ofOffset h.1) ?_ evs h (Machine.along_of_forall evs _ fun _ => htop)
  · obtain ⟨p, outs, hr, hset⟩ := hrun
    exact ⟨p, outs, hr, hset.delivered, fun e he hout =>
      hset.waiting h.2.1 (fun e he => (h.2.2 e he).1) he hout⟩
  · rintro evs e ⟨hs, hnd, hge⟩
    rw [List.map_append] at hnd
    exact ⟨hs, (List.nodup_append.mp hnd).1, fun x hx => hge x (List.mem_append_left _ hx)⟩
  · rintro evs outs p e ⟨-, hnd, hge⟩ ht hset
    have hnew : ∀ x ∈ evs, x.1 ≠ e.1 := by
      rw [List.map_append, List.nodup_append] at hnd
      exact fun x hx => hnd.2.2 _ (List.mem_map_of_mem hx) _ (by simp)
    obtain ⟨q, out', hq, hset'⟩ := add_spec (d := e.2) hset (hge e (by simp)).1 ht hnew
    exact ⟨q, out', hq, by simpa using hset'⟩

/-- Three events in the order 7, 5, 6. -/
theorem delivers_in_order_three :
    ∃ p outs, (machine ℕ).run (ofOffset 5) [(7, 70), (5, 50), (6, 60)] = some (p, outs) ∧
      Delivered 5 [(7, 70), (5, 50), (6, 60)] outs.flatten ∧
      ∀ e ∈ [(7, 70), (5, 50), (6, 60)], e ∉ outs.flatten →
        p.dataArray[e.1 - p.offset]? = some (e.2, true) :=
  delivers_in_order 5 [(7, 70), (5, 50), (6, 60)] (by unfold Arrivals; decide) (by decide)

/-- The last value of `uint64` wraps `seq_no + 1` to 0, so `end_` does not cover it: added before
the event that is due, it is never delivered. -/
theorem last_seq_no_lost :
    Arrivals (2 ^ 64 - 2) [(2 ^ 64 - 1, 1), (2 ^ 64 - 2, 2)] ∧
      ¬ ∃ p outs, (machine ℕ).run (ofOffset (2 ^ 64 - 2))
          [(2 ^ 64 - 1, 1), (2 ^ 64 - 2, 2)] = some (p, outs) ∧
        Delivered (2 ^ 64 - 2) [(2 ^ 64 - 1, 1), (2 ^ 64 - 2, 2)] outs.flatten := by
  refine ⟨by unfold Arrivals; decide, ?_⟩
  rintro ⟨p, outs, hrun, k, hseq, -, hfree⟩
  have hout : ((machine ℕ).run (ofOffset (2 ^ 64 - 2))
      [(2 ^ 64 - 1, 1), (2 ^ 64 - 2, 2)]).map Prod.snd = some [[], [(2 ^ 64 - 2, 2)]] := by decide
  rw [hrun] at hout
  obtain rfl : outs = [[], [(2 ^ 64 - 2, 2)]] := by simpa using hout
  obtain rfl : k = 1 := by simpa using (congrArg List.length hseq).symm
  exact hfree (2 ^ 64 - 1, 1) (by simp) rfl

end OrderedEventsProcessor

end TdUtils.Flow
