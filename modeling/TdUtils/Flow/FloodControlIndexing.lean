import TdUtils.Flow.FloodControlStrict
import TdUtils.Lib.Fails

/-!
# Flow.FloodControlIndexing — the accesses to the vector of events

All calls, in any order, on a vector that may be full.  Cursors never pass the end of the vector; a limit of no events
leaves its cursor there.
-/

namespace TdUtils.Flow

open Lib Fails

namespace FloodControlStrict

/-- `std::vector<Event>::max_size()`. -/
def maxSize : ℕ := 2 ^ 61 - 1

def clearEvents (s : FloodControlStrict) : FloodControlStrict :=
  ⟨1, 0, [], s.limits.map fun l => { l with pos := 0 }⟩

inductive Call
  | addLimit (duration : ℤ) (count : UInt64)
  | addEvent (now : ℤ)
  | update (now : ℤ)
  | clearEvents

def call (s : FloodControlStrict) : Call → Except Failure FloodControlStrict
  | .addLimit duration count => .ok (s.addLimit duration count.toNat)
  | .addEvent now =>
    if s.events.length < maxSize then s.addEvent now else .error .tooLong
  | .update now => update s now
  | .clearEvents => .ok s.clearEvents

/-- The calls on a new object. -/
def calls (cs : List Call) : Except Failure FloodControlStrict := cs.foldlM call empty

variable {events : List ℤ} {now : ℤ} {l : Limit}

/-! ### Where a cursor goes -/

/-- The count and the cursor that the loop would leave do not fit into a `size_t`. -/
def Overflows (events : List ℤ) (now : ℤ) (l : Limit) : Prop :=
  2 ^ 64 ≤ l.count + skipExpired events now l (searchStart events l)

/-- A limit as it is kept: its cursor does not pass the end. -/
structure Placed (events : List ℤ) (l : Limit) : Prop where
  pos_le : l.pos ≤ events.length
  count_lt : l.count < 2 ^ 64

theorem skipExpired_le {start : ℕ} (h : start ≤ events.length) : skipExpired events now l start ≤ events.length := by
  have htake := (List.takeWhile_prefix (expired l.duration now) (l := events.drop start)).length_le
  rw [List.length_drop] at htake
  unfold skipExpired
  omega

/-- The cursor moves to a place from which not more events than the count are behind it. -/
theorem Placed.moves (h : Placed events l) (hlen : events.length ≤ maxSize) (now : ℤ) :
    skipExpired events now l (searchStart events l) ≤ events.length ∧
      events.length ≤ l.count + skipExpired events now l (searchStart events l) := by
  have hle := h.pos_le
  unfold maxSize at hlen
  have hstart := searchStart_eq (by omega) h.pos_le
  have hskip : searchStart events l ≤ skipExpired events now l (searchStart events l) := Nat.le_add_right _ _
  exact ⟨skipExpired_le (by omega), by omega⟩

/-- What the loop body does with a limit: only a limit of no events makes it leave the vector. -/
theorem updateLimit_placed (h : Placed events l) (hlen : events.length ≤ maxSize) (now : ℤ) (acc : Scan) :
    (Overflows events now l → updateLimit events now acc l = .error .check) ∧
      (¬ Overflows events now l → l.count = 0 → updateLimit events now acc l = .error .outside) ∧
      (¬ Overflows events now l → l.count ≠ 0 → ∃ l' acc', updateLimit events now acc l = .ok (l', acc') ∧
        Placed events l' ∧ acc'.minPos ≤ acc.minPos ∧ acc'.minPos ≤ l'.pos) := by
  obtain ⟨hle, hge⟩ := h.moves hlen now
  have hcount := h.count_lt
  unfold Overflows updateLimit
  simp only [passExpired_searchStart, bind, Except.bind]
  generalize skipExpired events now l (searchStart events l) = P at hle hge ⊢
  unfold maxSize at hlen
  refine ⟨fun hover => ?_, fun hfit hzero => ?_, fun hfit hpos => ?_⟩
  · rw [Word.add_of_ge hover (by omega), if_pos (by omega), if_neg (by omega)]
    rfl
  · rw [Word.add_of_lt (by omega), if_pos (by omega), if_pos (by omega), access, List.getElem?_eq_none (by omega)]
  · rw [Word.add_of_lt (by omega)]
    by_cases hfull : l.count + P ≤ events.length
    · have hin : P < events.length := by omega
      rw [if_pos hfull, if_pos (by omega), access, List.getElem?_eq_getElem hin]
      exact ⟨_, _, rfl, ⟨hle, hcount⟩, Nat.min_le_left _ _, Nat.min_le_right _ _⟩
    · rw [if_neg hfull]
      exact ⟨_, _, rfl, ⟨hle, hcount⟩, Nat.min_le_left _ _, Nat.min_le_right _ _⟩

/-! ### All limits -/

/-- A limit of no events is reached: none of the limits in front of it overflows. -/
def ReadsEnd (events : List ℤ) (now : ℤ) (ls : List Limit) : Prop :=
  ∃ front l back, ls = front ++ l :: back ∧ l.count = 0 ∧ ∀ f ∈ front, ¬ Overflows events now f

theorem Placed.not_overflows (h : Placed events l) (hlen : events.length ≤ maxSize) (hzero : l.count = 0) (now : ℤ) :
    ¬ Overflows events now l := by
  have hle := (h.moves hlen now).1
  unfold Overflows
  unfold maxSize at hlen
  omega

theorem readsEnd_cons {ls : List Limit} (h : Placed events l) (hlen : events.length ≤ maxSize) :
    ReadsEnd events now (l :: ls) ↔ ¬ Overflows events now l ∧ (l.count = 0 ∨ ReadsEnd events now ls) := by
  constructor
  · rintro ⟨- | ⟨f, front⟩, l', back, hls, hzero, hfront⟩
    · obtain ⟨rfl, -⟩ := List.cons.inj hls
      exact ⟨h.not_overflows hlen hzero now, .inl hzero⟩
    · obtain ⟨rfl, rfl⟩ := List.cons.inj hls
      obtain ⟨hl, hfront⟩ := List.forall_mem_cons.mp hfront
      exact ⟨hl, .inr ⟨front, l', back, rfl, hzero, hfront⟩⟩
  · rintro ⟨hl, hzero | ⟨front, l', back, rfl, hzero, hfront⟩⟩
    · exact ⟨[], l, ls, rfl, hzero, by simp⟩
    · exact ⟨l :: front, l', back, rfl, hzero, List.forall_mem_cons.mpr ⟨hl, hfront⟩⟩

/-- A pass over the limits leaves the vector exactly when it comes to a limit of no events. -/
theorem updateLimits_placed (hlen : events.length ≤ maxSize) (now : ℤ) (ls : List Limit)
    (h : ∀ l ∈ ls, Placed events l) (acc : Scan) :
    (updateLimits events now acc ls = .error .outside ↔ ReadsEnd events now ls) ∧
      ∀ ls' acc', updateLimits events now acc ls = .ok (ls', acc') →
        acc'.minPos ≤ acc.minPos ∧ ∀ l ∈ ls', Placed events l ∧ acc'.minPos ≤ l.pos := by
  induction ls generalizing acc with
  | nil =>
    refine ⟨⟨fun h => (by cases h), ?_⟩, fun ls' acc' hrun => ?_⟩
    · rintro ⟨front, l, back, hls, -⟩
      exact absurd hls (by simp)
    · obtain ⟨rfl, rfl⟩ := Prod.mk.inj (Except.ok.inj hrun)
      exact ⟨Nat.le_refl _, by simp⟩
  | cons l ls ih =>
    obtain ⟨hl, hls⟩ := List.forall_mem_cons.mp h
    obtain ⟨hover, hzero, hfit⟩ := updateLimit_placed hl hlen now acc
    rw [readsEnd_cons hl hlen, updateLimits]
    by_cases ho : Overflows events now l
    · rw [hover ho]
      exact ⟨⟨fun h => (by cases h), fun h => absurd ho h.1⟩, fun _ _ hrun => (by cases hrun)⟩
    by_cases hz : l.count = 0
    · rw [hzero ho hz]
      exact ⟨⟨fun _ => ⟨ho, .inl hz⟩, fun _ => rfl⟩, fun _ _ hrun => (by cases hrun)⟩
    · obtain ⟨l', acc₁, hrun, hplaced, hmin, hpos⟩ := hfit ho hz
      obtain ⟨hiff, hok⟩ := ih hls acc₁
      rw [hrun]
      simp only [bind, Except.bind]
      rcases hrest : updateLimits events now acc₁ ls with e | ⟨ls', acc'⟩
      · rw [hrest] at hiff
        refine ⟨?_, fun _ _ hrun => (by cases hrun)⟩
        rw [hiff]
        exact ⟨fun h => ⟨ho, .inr h⟩, fun h => h.2.resolve_left hz⟩
      · rw [hrest] at hiff
        obtain ⟨hmin', hall⟩ := hok ls' acc' hrest
        constructor
        · refine ⟨fun h => (by cases h), fun h => ?_⟩
          exact absurd (hiff.mpr (h.2.resolve_left hz)) (by simp)
        · intro ls'' acc'' hout
          obtain ⟨rfl, rfl⟩ := Prod.mk.inj (Except.ok.inj hout)
          exact ⟨hmin'.trans hmin, List.forall_mem_cons.mpr ⟨⟨hplaced, hmin'.trans hpos⟩, hall⟩⟩

/-! ### Runs -/

/-- All cursors are placed, and the vector is not too long. -/
structure Indexed (s : FloodControlStrict) : Prop where
  len_le : s.events.length ≤ maxSize
  placed : ∀ l ∈ s.limits, Placed s.events l

variable {s t : FloodControlStrict}

theorem Indexed.update (h : Indexed s) (now : ℤ) :
    (s.update now = .error .outside ↔ ReadsEnd s.events now s.limits) ∧
      ∀ t, s.update now = .ok t → Indexed t := by
  have hlen := h.len_le
  obtain ⟨hiff, hok⟩ := updateLimits_placed h.len_le now s.limits h.placed
    ⟨s.wakeupAt, 2 ^ 64 - 1, s.events.length⟩
  unfold FloodControlStrict.update
  rcases hrun : updateLimits s.events now ⟨s.wakeupAt, 2 ^ 64 - 1, s.events.length⟩ s.limits with e | ⟨ls, acc⟩
  · rw [hrun] at hiff
    refine ⟨?_, fun t ht => (by cases ht)⟩
    rw [← hiff]
    simp [bind, Except.bind]
  · rw [hrun] at hiff
    obtain ⟨-, hall⟩ := hok ls acc hrun
    have hnot : ¬ ReadsEnd s.events now s.limits := fun hreads => absurd (hiff.mpr hreads) (by simp)
    simp only [bind, Except.bind]
    split_ifs with herase
    · refine ⟨⟨fun h => (by cases h), fun h => absurd h hnot⟩, fun t ht => ?_⟩
      obtain rfl := Except.ok.inj ht
      have hdrop : (s.events.drop acc.minPos).length = s.events.length - acc.minPos := List.length_drop
      refine ⟨?_, fun l hl => ?_⟩
      · show (s.events.drop acc.minPos).length ≤ maxSize
        omega
      · obtain ⟨l', hl', rfl⟩ := List.mem_map.mp hl
        obtain ⟨hplaced, hmin⟩ := hall l' hl'
        have hpos := hplaced.pos_le
        unfold maxSize at hlen
        refine ⟨?_, hplaced.count_lt⟩
        show Word.sub 64 l'.pos acc.minPos ≤ (s.events.drop acc.minPos).length
        rw [Word.sub_of_le hmin (by omega)]
        omega
    · refine ⟨⟨fun h => (by cases h), fun h => absurd h hnot⟩, fun t ht => ?_⟩
      obtain rfl := Except.ok.inj ht
      exact ⟨hlen, fun l hl => (hall l hl).1⟩

/-- The state and the time with which a call starts an `update`. -/
def updates (s : FloodControlStrict) : Call → Option (FloodControlStrict × ℤ)
  | .addLimit _ _ => none
  | .addEvent now =>
    if s.events.length < maxSize ∧ s.withoutUpdate = 0 then some ({ s with events := s.events ++ [now] }, now)
    else none
  | .update now => some (s, now)
  | .clearEvents => none

theorem Indexed.push (h : Indexed s) (hroom : s.events.length < maxSize) (now : ℤ) :
    Indexed { s with events := s.events ++ [now] } := by
  have hlen : (s.events ++ [now]).length = s.events.length + 1 := List.length_append
  refine ⟨?_, fun l hl => ⟨?_, (h.placed l hl).count_lt⟩⟩
  · show (s.events ++ [now]).length ≤ maxSize
    omega
  · have hpos := (h.placed l hl).pos_le
    show l.pos ≤ (s.events ++ [now]).length
    omega

theorem indexed_empty : Indexed empty := ⟨Nat.zero_le _, fun _ hl => absurd hl List.not_mem_nil⟩

/-- One call: it leaves the vector exactly when its `update` comes to a limit of no events. -/
theorem Indexed.call (h : Indexed s) (c : Call) :
    (s.call c = .error .outside ↔ ∃ s' now, updates s c = some (s', now) ∧ ReadsEnd s'.events now s'.limits) ∧
      ∀ t, s.call c = .ok t → Indexed t := by
  cases c with
  | addLimit duration count =>
    refine ⟨by simp [FloodControlStrict.call, updates], fun t ht => ?_⟩
    obtain rfl := Except.ok.inj ht
    refine ⟨h.len_le, List.forall_mem_append.mpr ⟨h.placed, ?_⟩⟩
    rw [List.forall_mem_singleton]
    exact ⟨Nat.zero_le _, count.toNat_lt⟩
  | addEvent now =>
    by_cases hroom : s.events.length < maxSize
    · obtain ⟨hiff, hok⟩ := (h.push hroom now).update now
      by_cases hskip : 0 < s.withoutUpdate
      · have hrun : s.call (.addEvent now) =
            .ok { s with events := s.events ++ [now], withoutUpdate := s.withoutUpdate - 1 } := by
          simp [FloodControlStrict.call, addEvent, hroom, hskip]
        rw [hrun]
        refine ⟨by simp [updates, hskip.ne'], fun t ht => ?_⟩
        obtain rfl := Except.ok.inj ht
        exact ⟨(h.push hroom now).len_le, (h.push hroom now).placed⟩
      · have hrun : s.call (.addEvent now) =
            FloodControlStrict.update { s with events := s.events ++ [now] } now := by
          simp [FloodControlStrict.call, addEvent, hroom, hskip]
        rw [hrun]
        refine ⟨hiff.trans ?_, hok⟩
        simp [updates, hroom, Nat.eq_zero_of_not_pos hskip]
    · refine ⟨by simp [FloodControlStrict.call, updates, hroom], fun t ht => ?_⟩
      simp [FloodControlStrict.call, hroom] at ht
  | update now =>
    obtain ⟨hiff, hok⟩ := h.update now
    refine ⟨hiff.trans ?_, hok⟩
    simp [updates]
  | clearEvents =>
    refine ⟨by simp [FloodControlStrict.call, updates], fun t ht => ?_⟩
    obtain rfl := Except.ok.inj ht
    refine ⟨Nat.zero_le _, fun l hl => ?_⟩
    obtain ⟨l', hl', rfl⟩ := List.mem_map.mp hl
    exact ⟨Nat.le_refl _, (h.placed l' hl').count_lt⟩

theorem indexed_calls (cs : List Call) (h : calls cs = .ok s) : Indexed s :=
  foldlM_inv (fun _ c t hs ht => (hs.call c).2 t ht) cs indexed_empty h

/-- **Indexing.**  No access leaves the vector of events exactly when no `update` comes to a limit of no events. -/
theorem calls_inside_iff (cs : List Call) : calls cs ≠ .error .outside ↔
    ∀ before c after s s' now, cs = before ++ c :: after → calls before = .ok s → updates s c = some (s', now) →
      ¬ ReadsEnd s'.events now s'.limits := by
  have hfails : calls cs = .error .outside ↔ _ := foldlM_error_iff
  rw [Ne, hfails]
  constructor
  · intro hnone before c after s s' now hcs hrun hupdates hreads
    exact hnone ⟨before, c, after, s, hcs, hrun,
      ((indexed_calls before hrun).call c).1.mpr ⟨s', now, hupdates, hreads⟩⟩
  · rintro hall ⟨before, c, after, s, hcs, hrun, hfail⟩
    obtain ⟨s', now, hupdates, hreads⟩ := ((indexed_calls before hrun).call c).1.mp hfail
    exact hall before c after s s' now hcs hrun hupdates hreads

/-- With a limit of no events the first `update` reads behind the end of the vector. -/
theorem no_events_read : ¬ ∀ cs : List Call, calls cs ≠ .error .outside := by
  intro hall
  have hadd : call empty (.addLimit 1 0) = .ok (empty.addLimit 1 0) := rfl
  have hindexed : Indexed (empty.addLimit 1 0) := (indexed_empty.call (.addLimit 1 0)).2 _ hadd
  have hrun : calls [.addLimit 1 0, .update 0] = (empty.addLimit 1 0).update 0 := by
    rw [calls, foldlM_cons_ok hadd, List.foldlM_cons]
    exact bind_pure _
  apply hall [.addLimit 1 0, .update 0]
  rw [hrun]
  exact (hindexed.update 0).1.mpr ⟨[], ⟨1, 0, 0⟩, [], rfl, rfl, by simp⟩

end FloodControlStrict

end TdUtils.Flow
