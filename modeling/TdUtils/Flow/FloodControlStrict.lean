import Mathlib.Order.Bounds.Basic
import Mathlib.Data.Int.Order.Basic
import Mathlib.Data.List.GetD
import Mathlib.Data.Set.Insert
import TdUtils.Lib.List
import TdUtils.Lib.Machine
import TdUtils.Lib.Word

/-!
# Flow.FloodControlStrict — the lazy limit cursors compute the eager wake-up time

All limits share one vector of event times, pruned from the front; each limit keeps a cursor into
it, and `withoutUpdate` events may pass before the cursors are looked at again.  `Tracked` says
what the cursors know: an event before a cursor is too old or has expired, and no limit can fill up
during the skipped events.  Times are integers: `int32` sums are assumed not to overflow.
-/

namespace TdUtils.Flow

open Lib

/-- No more than `count` events in each `duration`; `pos` is the cursor into the events. -/
structure Limit where
  duration : ℤ
  count : ℕ
  pos : ℕ

/-- The duration and count of a limit, as they were passed to `add_limit`. -/
def Limit.spec (l : Limit) : ℤ × ℕ := (l.duration, l.count)

structure FloodControlStrict where
  wakeupAt : ℤ
  withoutUpdate : ℕ
  events : List ℤ
  limits : List Limit

namespace FloodControlStrict

/-- `FloodControlStrict()`. -/
def empty : FloodControlStrict := ⟨1, 0, [], []⟩

def addLimit (s : FloodControlStrict) (duration : ℤ) (count : ℕ) : FloodControlStrict :=
  { s with limits := s.limits ++ [⟨duration, count, 0⟩], withoutUpdate := 0 }

/-- An event at time `t` is out of the window of `duration` that ends at `now`. -/
def expired (duration now t : ℤ) : Bool := t + duration < now

/-- The local variables and fields that the loop over the limits writes. -/
structure Scan where
  wakeupAt : ℤ
  withoutUpdate : ℕ
  minPos : ℕ

/-- `limit.pos_` after the first `if`: events too old for the last `count` are passed at once. -/
def searchStart (events : List ℤ) (limit : Limit) : ℕ :=
  if limit.count < Word.sub 64 events.length limit.pos then Word.sub 64 events.length limit.count
  else limit.pos

inductive Failure
  /-- A failed `CHECK`. -/
  | check
  /-- `events_[i]` with an `i` outside of the vector. -/
  | outside
  /-- `std::length_error` of `push_back`. -/
  | tooLong
deriving DecidableEq

/-- `events_[i]`. -/
def access (events : List ℤ) (i : ℕ) : Except Failure ℤ :=
  match events[i]? with
  | some t => .ok t
  | none => .error .outside

/-- The `while` loop of `update`, with so many events from `pos` on. -/
def passExpired (events : List ℤ) (duration now : ℤ) : ℕ → ℕ → Except Failure ℕ
  | 0, pos => return pos
  | left + 1, pos => do
    let t ← access events pos
    if expired duration now t then passExpired events duration now left (pos + 1) else return pos

/-- The body of the loop over the limits. -/
def updateLimit (events : List ℤ) (now : ℤ) (acc : Scan) (limit : Limit) : Except Failure (Limit × Scan) := do
  let size := events.length
  let start := searchStart events limit
  let pos ← passExpired events limit.duration now (size - start) start
  let sum := Word.add 64 limit.count pos
  if sum ≤ size then
    if sum = size then
      let t ← access events pos
      return ({ limit with pos := pos }, ⟨max acc.wakeupAt (t + limit.duration), 0, min acc.minPos pos⟩)
    else throw .check
  else
    return ({ limit with pos := pos },
      ⟨acc.wakeupAt, min acc.withoutUpdate (Word.sub 64 (Word.sub 64 sum size) 1), min acc.minPos pos⟩)

/-- The loop over the limits. -/
def updateLimits (events : List ℤ) (now : ℤ) : Scan → List Limit → Except Failure (List Limit × Scan)
  | acc, [] => return ([], acc)
  | acc, l :: ls => do
    let (l', acc) ← updateLimit events now acc l
    let (ls', acc) ← updateLimits events now acc ls
    return (l' :: ls', acc)

def update (s : FloodControlStrict) (now : ℤ) : Except Failure FloodControlStrict := do
  let (limits, acc) ← updateLimits s.events now ⟨s.wakeupAt, 2 ^ 64 - 1, s.events.length⟩ s.limits
  if s.events.length < acc.minPos * 2 % 2 ^ 64 then
    return ⟨acc.wakeupAt, acc.withoutUpdate, s.events.drop acc.minPos,
      limits.map fun l => { l with pos := Word.sub 64 l.pos acc.minPos }⟩
  else return ⟨acc.wakeupAt, acc.withoutUpdate, s.events, limits⟩

/-- `add_event`, when the vector has room. -/
def addEvent (s : FloodControlStrict) (now : ℤ) : Except Failure FloodControlStrict :=
  let s := { s with events := s.events ++ [now] }
  if 0 < s.withoutUpdate then .ok { s with withoutUpdate := s.withoutUpdate - 1 }
  else update s now

/-- The limits, each as duration and count, added to an empty object. -/
def ofLimits (limits : List (ℤ × ℕ)) : FloodControlStrict :=
  limits.foldl (fun s l => s.addLimit l.1 l.2) empty

/-- `add_event` as a machine; the answer is `get_wakeup_at()` after the event, and there is none when the call fails. -/
def machine : Machine FloodControlStrict ℤ ℤ :=
  ⟨fun s now => (s.addEvent now).toOption.map fun s' => (s', s'.wakeupAt)⟩

/-! ### One limit -/

/-- The cursor of `l` moved to `P`: it stopped at an event that has not expired, and passed only
events that are too old to count or have expired. -/
structure Moved (events : List ℤ) (now : ℤ) (l : Limit) (P : ℕ) : Prop where
  le : l.pos ≤ P
  lt : P < events.length
  sum_lt : l.count + P < 2 ^ 64
  sum_ge : events.length ≤ l.count + P
  stale : ∀ j a, l.pos ≤ j → j < P → events[j]? = some a →
    j + l.count < events.length ∨ a + l.duration < now
  live : ∀ a, events[P]? = some a → now ≤ a + l.duration

/-- What the loop body needs to know of a limit. -/
structure Ready (events : List ℤ) (now : ℤ) (l : Limit) : Prop where
  duration_nonneg : 0 ≤ l.duration
  count_pos : 1 ≤ l.count
  pos_lt : l.pos < events.length
  sum_lt : l.count + l.pos < 2 ^ 64
  no_wrap : l.count + events.countP (expired l.duration now) < 2 ^ 64

variable {events : List ℤ} {now : ℤ} {l : Limit}

theorem searchStart_eq (hlen : events.length < 2 ^ 64) (hpos : l.pos ≤ events.length) :
    searchStart events l = max l.pos (events.length - l.count) := by
  unfold searchStart
  rw [Word.sub_of_le hpos hlen]
  split_ifs with h
  · rw [Word.sub_of_le (by omega) hlen, max_eq_right (by omega)]
  · rw [max_eq_left (by omega)]

/-- In a sorted vector every event up to an expired one has expired. -/
theorem le_countP_expired (hsort : events.Pairwise (· ≤ ·)) {d : ℤ} {j : ℕ} {a : ℤ}
    (ha : events[j]? = some a) (hexp : a + d < now) : j + 1 ≤ events.countP (expired d now) := by
  obtain ⟨hj, rfl⟩ := List.getElem?_eq_some_iff.mp ha
  have hall : (events.take (j + 1)).countP (expired d now) = (events.take (j + 1)).length := by
    rw [List.countP_eq_length]
    intro x hx
    obtain ⟨i, hi, rfl⟩ := List.mem_iff_getElem.mp hx
    simp only [List.length_take] at hi
    have hle : events[i] ≤ events[j] := by
      rcases Nat.lt_or_ge i j with hij | hij
      · exact List.pairwise_iff_getElem.mp hsort i j _ hj hij
      · exact le_of_eq (by congr 1; omega)
    simp only [List.getElem_take, expired, decide_eq_true_eq]
    omega
  have hsub := (List.take_sublist (j + 1) events).countP_le (p := expired d now)
  rw [hall, List.length_take, min_eq_left (by omega)] at hsub
  exact hsub

/-- Where the `while` loop stops that passes the expired events from `start` on. -/
def skipExpired (events : List ℤ) (now : ℤ) (limit : Limit) (start : ℕ) : ℕ :=
  start + ((events.drop start).takeWhile (expired limit.duration now)).length

/-- The loop stays in the vector. -/
theorem passExpired_eq (events : List ℤ) (duration now : ℤ) (left pos : ℕ) (hleft : left = events.length - pos) :
    passExpired events duration now left pos =
      .ok (pos + ((events.drop pos).takeWhile (expired duration now)).length) := by
  induction left generalizing pos with
  | zero =>
    rw [passExpired, List.drop_eq_nil_of_le (by omega)]
    rfl
  | succ left ih =>
    have hpos : pos < events.length := by omega
    have haccess : access events pos = .ok events[pos] := by
      rw [access, List.getElem?_eq_getElem hpos]
    rw [passExpired, haccess, List.drop_eq_getElem_cons hpos]
    simp only [bind, Except.bind]
    by_cases hexp : expired duration now events[pos] = true
    · rw [if_pos hexp, ih (pos + 1) (by omega), List.takeWhile_cons_of_pos hexp, List.length_cons]
      congr 1
      omega
    · rw [if_neg hexp, List.takeWhile_cons_of_neg hexp]
      rfl

theorem passExpired_searchStart (events : List ℤ) (now : ℤ) (l : Limit) :
    passExpired events l.duration now (events.length - searchStart events l) (searchStart events l) =
      .ok (skipExpired events now l (searchStart events l)) := passExpired_eq events l.duration now _ _ rfl

/-- The events the search passes have expired. -/
theorem expired_of_lt_skipExpired {s j : ℕ} {a : ℤ} (hsj : s ≤ j)
    (hj : j < skipExpired events now l s) (ha : events[j]? = some a) : a + l.duration < now := by
  unfold skipExpired at hj
  have h := List.of_lt_takeWhile (expired l.duration now) (events.drop s) (j := j - s) (a := a)
    (by omega) (by rw [List.getElem?_drop, Nat.add_sub_cancel' hsj, ha])
  simpa [expired] using h

/-- The event the search stops at has not expired. -/
theorem live_at_skipExpired {s : ℕ} {a : ℤ} (ha : events[skipExpired events now l s]? = some a) :
    now ≤ a + l.duration := by
  have h := List.not_at_takeWhile (expired l.duration now) (events.drop s) (a := a)
    (by rw [List.getElem?_drop]; exact ha)
  simpa [expired] using h

theorem moved_skipExpired (hlast : events.getLast? = some now) (hsort : events.Pairwise (· ≤ ·))
    (hlen : events.length < 2 ^ 64) (hl : Ready events now l) :
    Moved events now l (skipExpired events now l (searchStart events l)) := by
  have hs := searchStart_eq hlen hl.pos_lt.le
  have hpos := hl.pos_lt
  have hcount := hl.count_pos
  have hnonneg := hl.duration_nonneg
  have hsum := hl.sum_lt
  have hexp := @expired_of_lt_skipExpired events now l (searchStart events l)
  have hlive := @live_at_skipExpired events now l (searchStart events l)
  have hle : searchStart events l ≤ skipExpired events now l (searchStart events l) :=
    Nat.le_add_right _ _
  generalize searchStart events l = s at hs hexp hlive hle ⊢
  generalize skipExpired events now l s = P at hexp hlive hle ⊢
  have hlt : P < events.length := by
    -- otherwise the newest event would have expired
    by_contra hge
    have := hexp (j := events.length - 1) (a := now) (by omega) (by omega)
      (by rwa [← List.getLast?_eq_getElem?])
    omega
  refine ⟨by omega, hlt, ?_, by omega, fun j a hj hjP ha => ?_, fun a => hlive⟩
  · -- without a wrap: the passed events have expired and are counted, or nothing was passed
    rcases hle.eq_or_lt with rfl | hsP
    · rcases le_total l.pos (events.length - l.count) with h | h <;> omega
    · obtain ⟨a, ha⟩ : ∃ a, events[P - 1]? = some a := ⟨_, List.getElem?_eq_getElem (by omega)⟩
      have := le_countP_expired hsort ha (hexp (by omega) (by omega) ha)
      have := hl.no_wrap
      omega
  · rcases Nat.lt_or_ge j s with hjs | hjs
    · exact Or.inl (by omega)
    · exact Or.inr (hexp hjs hjP ha)

/-- One limit: its cursor moves, and it is full exactly when its window reaches the cursor. -/
theorem updateLimit_spec (hlast : events.getLast? = some now) (hsort : events.Pairwise (· ≤ ·))
    (hlen : events.length < 2 ^ 64) (hl : Ready events now l) (acc : Scan) :
    ∃ P acc', updateLimit events now acc l = .ok ({ l with pos := P }, acc') ∧
      Moved events now l P ∧ acc'.minPos = min acc.minPos P ∧
      ((l.count + P = events.length ∧ acc'.withoutUpdate = 0 ∧
          ∃ a, events[P]? = some a ∧ acc'.wakeupAt = max acc.wakeupAt (a + l.duration)) ∨
        (events.length < l.count + P ∧ acc'.wakeupAt = acc.wakeupAt ∧
          acc'.withoutUpdate = min acc.withoutUpdate (l.count + P - events.length - 1))) := by
  have hm := moved_skipExpired hlast hsort hlen hl
  unfold updateLimit
  simp only [passExpired_searchStart, bind, Except.bind]
  generalize skipExpired events now l (searchStart events l) = P at hm ⊢
  have hge := hm.sum_ge
  rw [Word.add_of_lt hm.sum_lt]
  rcases hge.eq_or_lt with heq | hlt
  · rw [if_pos heq.ge, if_pos heq.symm, access, List.getElem?_eq_getElem hm.lt]
    exact ⟨P, _, rfl, hm, rfl, Or.inl ⟨heq.symm, rfl, _, List.getElem?_eq_getElem hm.lt, rfl⟩⟩
  · have h1 : Word.sub 64 (l.count + P) events.length = l.count + P - events.length :=
      Word.sub_of_le hge hm.sum_lt
    have h2 : Word.sub 64 (l.count + P - events.length) 1 = l.count + P - events.length - 1 :=
      Word.sub_of_le (by omega) (by have := hm.sum_lt; omega)
    rw [if_neg (by omega), h1, h2]
    exact ⟨P, _, rfl, hm, rfl, Or.inr ⟨hlt, rfl, rfl⟩⟩

/-! ### All limits -/

/-- The wake-up times demanded by the limits that the last event made full. -/
def fullTimes (events : List ℤ) (limits : List Limit) : Set ℤ :=
  {w | ∃ l ∈ limits, l.count + l.pos = events.length ∧
    ∃ a, events[l.pos]? = some a ∧ w = a + l.duration}

/-- What a pass over the limits leaves: cursors moved, the greatest wake-up time, the number of
events during which no limit can become full, and a bound for what may be erased. -/
structure Scanned (events : List ℤ) (now : ℤ) (acc : Scan) (ls ls' : List Limit) (acc' : Scan) :
    Prop where
  moved : List.Forall₂ (fun l l' => l'.spec = l.spec ∧ Moved events now l l'.pos) ls ls'
  minPos_le : acc'.minPos ≤ acc.minPos
  minPos_le_pos : ∀ l ∈ ls', acc'.minPos ≤ l.pos
  skip_le : acc'.withoutUpdate ≤ acc.withoutUpdate
  skip : 0 < acc'.withoutUpdate → ∀ l ∈ ls',
    events.length + acc'.withoutUpdate < l.count + l.pos
  wakeup : IsGreatest (insert acc.wakeupAt (fullTimes events ls')) acc'.wakeupAt

theorem isGreatest_insert_max {w m : ℤ} {S : Set ℤ} (v : ℤ)
    (h : IsGreatest (insert (max w v) S) m) : IsGreatest (insert w (insert v S)) m := by
  constructor
  · rcases h.1 with rfl | hm
    · rcases le_total w v with hc | hc <;> simp [hc]
    · exact Or.inr (Or.inr hm)
  · have hmax : max w v ≤ m := h.2 (Set.mem_insert _ _)
    rintro x (rfl | rfl | hx)
    · exact (le_max_left _ _).trans hmax
    · exact (le_max_right _ _).trans hmax
    · exact h.2 (Set.mem_insert_of_mem _ hx)

theorem fullTimes_cons_full {ls : List Limit} {a : ℤ} (h : l.count + l.pos = events.length)
    (ha : events[l.pos]? = some a) :
    fullTimes events (l :: ls) = insert (a + l.duration) (fullTimes events ls) := by
  ext w
  simp [fullTimes, h, ha]

theorem fullTimes_cons_free {ls : List Limit} (h : l.count + l.pos ≠ events.length) :
    fullTimes events (l :: ls) = fullTimes events ls := by
  ext w
  simp [fullTimes, h]

theorem updateLimits_spec (hlast : events.getLast? = some now) (hsort : events.Pairwise (· ≤ ·))
    (hlen : events.length < 2 ^ 64) : ∀ (ls : List Limit) (acc : Scan),
    (∀ l ∈ ls, Ready events now l) →
      ∃ ls' acc', updateLimits events now acc ls = .ok (ls', acc') ∧
        Scanned events now acc ls ls' acc'
  | [], acc, _ => ⟨[], acc, rfl, .nil, le_rfl, by simp, le_rfl, by simp, by
      simp [fullTimes, IsGreatest, upperBounds]⟩
  | l :: ls, acc, hl => by
    obtain ⟨P, acc₁, h1, hm, hmin, hcase⟩ :=
      updateLimit_spec hlast hsort hlen (hl l (by simp)) acc
    obtain ⟨ls', acc', h2, hs⟩ :=
      updateLimits_spec hlast hsort hlen ls acc₁ (fun l' hl' => hl l' (by simp [hl']))
    have hgo : updateLimits events now acc (l :: ls) = .ok ({ l with pos := P } :: ls', acc') := by
      rw [updateLimits, h1]
      simp only [bind, Except.bind, h2]
      rfl
    refine ⟨{ l with pos := P } :: ls', acc', hgo, ?_⟩
    have hP : acc'.minPos ≤ P := hs.minPos_le.trans (hmin ▸ min_le_right _ _)
    have hskip₁ : acc₁.withoutUpdate ≤ acc.withoutUpdate := by
      rcases hcase with ⟨-, h, -⟩ | ⟨-, -, h⟩
      · omega
      · exact h ▸ min_le_left _ _
    refine
      { moved := .cons ⟨rfl, hm⟩ hs.moved
        minPos_le := hs.minPos_le.trans (hmin ▸ min_le_left _ _)
        minPos_le_pos := by simpa [hP] using hs.minPos_le_pos
        skip_le := hs.skip_le.trans hskip₁
        skip := fun hpos => ?_
        wakeup := ?_ }
    · have hle := hs.skip_le
      refine List.forall_mem_cons.mpr ⟨?_, hs.skip hpos⟩
      simp only
      rcases hcase with ⟨-, h, -⟩ | ⟨hlt, -, h⟩ <;> omega
    · rcases hcase with ⟨hfull, -, a, ha, hw⟩ | ⟨hfree, hw, -⟩
      · rw [fullTimes_cons_full hfull ha]
        exact isGreatest_insert_max _ (hw ▸ hs.wakeup)
      · rw [fullTimes_cons_free (by simp only; omega)]
        exact hw ▸ hs.wakeup

/-! ### Whole runs -/

/-- The times demanded by the first `count` of `count` events that end in the window of one of
them: for a limit `(d, c)` and an event `i`, `ts[i - c + 1] + d` where this is not before `ts[i]`. -/
def Demanded (limits : List (ℤ × ℕ)) (ts : List ℤ) : Set ℤ :=
  {w | ∃ l ∈ limits, ∃ i a b, l.2 ≤ i + 1 ∧ ts[i + 1 - l.2]? = some a ∧ ts[i]? = some b ∧
    b ≤ a + l.1 ∧ w = a + l.1}

/-- The part of `Demanded` that belongs to the event `now` after the events `ts`. -/
def DemandedBy (limits : List (ℤ × ℕ)) (ts : List ℤ) (now : ℤ) : Set ℤ :=
  {w | ∃ l ∈ limits, ∃ a, l.2 ≤ ts.length + 1 ∧ (ts ++ [now])[ts.length + 1 - l.2]? = some a ∧
    now ≤ a + l.1 ∧ w = a + l.1}

theorem demanded_concat {limits : List (ℤ × ℕ)} {ts : List ℤ} (hl : ∀ l ∈ limits, 1 ≤ l.2) :
    Demanded limits (ts ++ [now]) = Demanded limits ts ∪ DemandedBy limits ts now := by
  ext w
  constructor
  · rintro ⟨l, hmem, i, a, b, hi, ha, hb, hle, rfl⟩
    have hil : i < ts.length + 1 := by
      simpa using (List.getElem?_eq_some_iff.mp hb).1
    have hc := hl l hmem
    rcases Nat.lt_or_ge i ts.length with hlt | hge
    · rw [List.getElem?_append_left (by omega)] at ha hb
      exact Or.inl ⟨l, hmem, i, a, b, hi, ha, hb, hle, rfl⟩
    · obtain rfl : i = ts.length := by omega
      rw [List.getElem?_concat_length] at hb
      cases hb
      exact Or.inr ⟨l, hmem, a, hi, ha, hle, rfl⟩
  · rintro (⟨l, hmem, i, a, b, hi, ha, hb, hle, rfl⟩ | ⟨l, hmem, a, hi, ha, hle, rfl⟩)
    · have hil := (List.getElem?_eq_some_iff.mp hb).1
      have hil' := (List.getElem?_eq_some_iff.mp ha).1
      exact ⟨l, hmem, i, a, b, hi, by rwa [List.getElem?_append_left hil'],
        by rwa [List.getElem?_append_left hil], hle, rfl⟩
    · exact ⟨l, hmem, ts.length, a, now, hi, ha, List.getElem?_concat_length, hle, rfl⟩

/-- The cursors after the events `ts`, of which the first `k` have been erased. -/
structure Tracked (limits : List (ℤ × ℕ)) (ts : List ℤ) (k : ℕ) (s : FloodControlStrict) :
    Prop where
  erased_le : k ≤ ts.length
  events_eq : s.events = ts.drop k
  limits_eq : s.limits.map Limit.spec = limits
  pos_le : ∀ l ∈ s.limits, k + l.pos ≤ ts.length
  sum_lt : ∀ l ∈ s.limits, l.count + l.pos < 2 ^ 64
  stale : ∀ l ∈ s.limits, ∀ j a b, j < k + l.pos → ts[j]? = some a → ts.getLast? = some b →
    j + l.count < ts.length ∨ a + l.duration < b
  skip : 0 < s.withoutUpdate → ∀ l ∈ s.limits, ts.length + s.withoutUpdate < l.count + (k + l.pos)
  wakeup : IsGreatest (insert 1 (Demanded limits ts)) s.wakeupAt

variable {limits : List (ℤ × ℕ)} {ts : List ℤ} {k : ℕ} {s : FloodControlStrict}

/-- An event in front of a cursor demands nothing of the next event. -/
theorem Tracked.stale_concat (h : Tracked limits ts k s) (hts : (ts ++ [now]).Pairwise (· ≤ ·))
    (hl : l ∈ s.limits) {j : ℕ} {a : ℤ} (hj : j < k + l.pos) (ha : (ts ++ [now])[j]? = some a) :
    j + l.count < ts.length + 1 ∨ a + l.duration < now := by
  have hpos := h.pos_le l hl
  rw [List.getElem?_append_left (by omega)] at ha
  obtain ⟨b, hb⟩ : ∃ b, ts.getLast? = some b := by
    cases hb : ts.getLast? with
    | none => simp_all
    | some b => exact ⟨b, rfl⟩
  have hle : b ≤ now :=
    (List.pairwise_append.mp hts).2.2 b (List.mem_of_getLast? hb) now (by simp)
  rcases h.stale l hl j a b hj ha hb with h1 | h1
  · exact Or.inl (by omega)
  · exact Or.inr (by omega)

/-- A skipped event demands nothing. -/
theorem Tracked.demandedBy_empty (h : Tracked limits ts k s)
    (hts : (ts ++ [now]).Pairwise (· ≤ ·)) (hw : 0 < s.withoutUpdate) :
    DemandedBy limits ts now = ∅ := by
  ext w
  simp only [Set.mem_empty_iff_false, iff_false]
  rintro ⟨sp, hmem, a, hc, ha, hle, -⟩
  rw [← h.limits_eq] at hmem
  obtain ⟨l, hl, rfl⟩ := List.mem_map.mp hmem
  have hskip := h.skip hw l hl
  simp only [Limit.spec] at hc ha hle
  rcases h.stale_concat hts hl (by omega) ha with h1 | h1 <;> omega

theorem Tracked.skipped (h : Tracked limits ts k s) (hts : (ts ++ [now]).Pairwise (· ≤ ·))
    (hl : ∀ l ∈ limits, 1 ≤ l.2) (hw : 0 < s.withoutUpdate) :
    Tracked limits (ts ++ [now]) k
      { s with events := s.events ++ [now], withoutUpdate := s.withoutUpdate - 1 } where
  erased_le := by simpa using Nat.le_succ_of_le h.erased_le
  events_eq := by rw [List.drop_append_of_le_length h.erased_le, ← h.events_eq]
  limits_eq := h.limits_eq
  pos_le := fun l hl => by simpa using Nat.le_succ_of_le (h.pos_le l hl)
  sum_lt := h.sum_lt
  stale := by
    intro l hl j a b hj ha hb
    rw [List.getLast?_concat] at hb
    cases hb
    simpa using h.stale_concat hts hl hj ha
  skip := by
    intro _ l hl
    have := h.skip hw l hl
    simp only [List.length_append, List.length_singleton]
    omega
  wakeup := by
    rw [demanded_concat hl, h.demandedBy_empty hts hw, Set.union_empty]
    exact h.wakeup

/-- The next event finds every limit ready for the loop body. -/
theorem Tracked.ready (h : Tracked limits ts k s) (hlim : ∀ l ∈ limits, 0 ≤ l.1 ∧ 1 ≤ l.2)
    (hl : l ∈ s.limits)
    (hwrap : l.count + (s.events ++ [now]).countP (expired l.duration now) < 2 ^ 64) :
    Ready (s.events ++ [now]) now l := by
  have hspec : l.spec ∈ limits := h.limits_eq ▸ List.mem_map_of_mem hl
  obtain ⟨hd, hc⟩ := hlim _ hspec
  have hpos := h.pos_le l hl
  have hk := h.erased_le
  refine ⟨hd, hc, ?_, h.sum_lt l hl, hwrap⟩
  simp only [h.events_eq, List.length_append, List.length_drop, List.length_singleton]
  omega

/-- The limits that the new event made full demand exactly what the eager rule demands of it. -/
theorem Tracked.fullTimes_eq (h : Tracked limits ts k s)
    (hts : (ts ++ [now]).Pairwise (· ≤ ·)) {acc acc' : Scan} {ls' : List Limit}
    (hs : Scanned (s.events ++ [now]) now acc s.limits ls' acc') :
    fullTimes (s.events ++ [now]) ls' = DemandedBy limits ts now := by
  have hev : s.events ++ [now] = (ts ++ [now]).drop k := by
    rw [List.drop_append_of_le_length h.erased_le, ← h.events_eq]
  have hlen : (s.events ++ [now]).length + k = ts.length + 1 := by
    have := h.erased_le
    simp only [h.events_eq, List.length_append, List.length_drop, List.length_singleton]
    omega
  have hget : ∀ i, (s.events ++ [now])[i]? = (ts ++ [now])[k + i]? := fun i => by
    rw [hev, List.getElem?_drop]
  ext w
  constructor
  · rintro ⟨l', hl', hfull, a, ha, rfl⟩
    obtain ⟨l, hl, hspec, hm⟩ := List.exists_of_mem_forall₂ hs.moved l' hl'
    obtain ⟨hd, hc⟩ : l'.duration = l.duration ∧ l'.count = l.count := by
      simpa [Limit.spec] using hspec
    refine ⟨l.spec, h.limits_eq ▸ List.mem_map_of_mem hl, a, ?_, ?_, ?_, by rw [hd]; rfl⟩
    · simp only [Limit.spec]
      omega
    · rw [hget] at ha
      rwa [show ts.length + 1 - l.spec.2 = k + l'.pos by simp only [Limit.spec]; omega]
    · exact hm.live a ha
  · rintro ⟨sp, hmem, a, hc, ha, hle, rfl⟩
    have hmap : s.limits.map Limit.spec = ls'.map Limit.spec :=
      List.map_eq_of_forall₂ (fun _ _ hR => hR.1.symm) hs.moved
    rw [← h.limits_eq, hmap] at hmem
    obtain ⟨l', hl', rfl⟩ := List.mem_map.mp hmem
    obtain ⟨l, hl, hspec, hm⟩ := List.exists_of_mem_forall₂ hs.moved l' hl'
    obtain ⟨hd, hcnt⟩ : l'.duration = l.duration ∧ l'.count = l.count := by
      simpa [Limit.spec] using hspec
    have hge := hm.sum_ge
    simp only [Limit.spec] at hc ha hle ⊢
    -- the window of the last `count` events does not start in front of the cursor
    have hcur : k + l'.pos ≤ ts.length + 1 - l'.count := by
      by_contra hlt
      rcases Nat.lt_or_ge (ts.length + 1 - l'.count) (k + l.pos) with hj | hj
      · rcases h.stale_concat hts hl hj ha with h1 | h1 <;> omega
      · have ha' : (s.events ++ [now])[ts.length + 1 - l'.count - k]? = some a := by
          rw [hget, ← ha]
          congr 1
          omega
        rcases hm.stale _ a (by omega) (by omega) ha' with h1 | h1 <;> omega
    refine ⟨l', hl', by omega, a, ?_, rfl⟩
    rw [hget, ← ha]
    congr 1
    omega

/-- A pass over the limits keeps the cursors tracked; nothing is erased yet. -/
theorem Tracked.scanned (h : Tracked limits ts k s) (hts : (ts ++ [now]).Pairwise (· ≤ ·))
    (hl : ∀ l ∈ limits, 1 ≤ l.2) {w : ℕ} {ls' : List Limit} {acc' : Scan}
    (hs : Scanned (s.events ++ [now]) now ⟨s.wakeupAt, w, (s.events ++ [now]).length⟩ s.limits ls'
      acc') :
    Tracked limits (ts ++ [now]) k
      ⟨acc'.wakeupAt, acc'.withoutUpdate, s.events ++ [now], ls'⟩ := by
  have hk := h.erased_le
  have hlen : (s.events ++ [now]).length + k = ts.length + 1 := by
    simp only [h.events_eq, List.length_append, List.length_drop, List.length_singleton]
    omega
  have hget : ∀ i, (s.events ++ [now])[i]? = (ts ++ [now])[k + i]? := fun i => by
    rw [h.events_eq, ← List.drop_append_of_le_length hk, List.getElem?_drop]
  refine
    { erased_le := by simpa using Nat.le_succ_of_le hk
      events_eq := by rw [List.drop_append_of_le_length hk, ← h.events_eq]
      limits_eq := ?_
      pos_le := ?_
      sum_lt := ?_
      stale := ?_
      skip := ?_
      wakeup := ?_ }
  · rw [← h.limits_eq]
    exact (List.map_eq_of_forall₂ (fun _ _ hR => hR.1.symm) hs.moved).symm
  · intro l' hl'
    obtain ⟨l, -, -, hm⟩ := List.exists_of_mem_forall₂ hs.moved l' hl'
    have := hm.lt
    simp only [List.length_append, List.length_singleton]
    omega
  · intro l' hl'
    obtain ⟨l, -, hspec, hm⟩ := List.exists_of_mem_forall₂ hs.moved l' hl'
    obtain ⟨-, hc⟩ : l'.duration = l.duration ∧ l'.count = l.count := by
      simpa [Limit.spec] using hspec
    rw [hc]
    exact hm.sum_lt
  · intro l' hl' j a b hj ha hb
    obtain ⟨l, hl, hspec, hm⟩ := List.exists_of_mem_forall₂ hs.moved l' hl'
    obtain ⟨hd, hc⟩ : l'.duration = l.duration ∧ l'.count = l.count := by
      simpa [Limit.spec] using hspec
    rw [List.getLast?_concat] at hb
    cases hb
    rw [hd, hc, List.length_append, List.length_singleton]
    rcases Nat.lt_or_ge j (k + l.pos) with hjk | hjk
    · exact h.stale_concat hts hl hjk ha
    · rw [show j = k + (j - k) by omega, ← hget] at ha
      rcases hm.stale _ a (by omega) (by omega) ha with h1 | h1
      · exact Or.inl (by omega)
      · exact Or.inr h1
  · intro hw l' hl'
    have := hs.skip hw l' hl'
    simp only [List.length_append, List.length_singleton] at this hlen ⊢
    omega
  · have hfull := h.fullTimes_eq hts hs
    have hg := hs.wakeup
    rw [hfull] at hg
    rw [demanded_concat hl, ← Set.insert_union]
    constructor
    · rcases hg.1 with hg1 | hg1
      · exact Or.inl (hg1 ▸ h.wakeup.1)
      · exact Or.inr hg1
    · rintro x (hx | hx)
      · exact (h.wakeup.2 hx).trans (hg.2 (Set.mem_insert _ _))
      · exact hg.2 (Set.mem_insert_of_mem _ hx)

/-- Erasing the events in front of all cursors. -/
theorem Tracked.erase (h : Tracked limits ts k s) {m : ℕ} (hlen : ts.length < 2 ^ 64)
    (hm : k + m ≤ ts.length) (hpos : ∀ l ∈ s.limits, m ≤ l.pos) :
    Tracked limits ts (k + m)
      ⟨s.wakeupAt, s.withoutUpdate, s.events.drop m,
        s.limits.map fun l => { l with pos := Word.sub 64 l.pos m }⟩ := by
  have hsub : ∀ l ∈ s.limits, Word.sub 64 l.pos m = l.pos - m := fun l hl =>
    Word.sub_of_le (hpos l hl) (by have := h.pos_le l hl; omega)
  have hall : ∀ (Q : Limit → Prop), (∀ l ∈ s.limits, Q { l with pos := l.pos - m }) →
      ∀ l ∈ s.limits.map (fun l => { l with pos := Word.sub 64 l.pos m }), Q l := by
    intro Q hQ l' hl'
    obtain ⟨l, hl, rfl⟩ := List.mem_map.mp hl'
    rw [hsub l hl]
    exact hQ l hl
  refine
    { erased_le := hm
      events_eq := by rw [h.events_eq, List.drop_drop]
      limits_eq := ?_
      pos_le := hall _ fun l hl => ?_
      sum_lt := hall _ fun l hl => ?_
      stale := hall _ fun l hl j a b hj => ?_
      skip := fun hw => hall _ fun l hl => ?_
      wakeup := h.wakeup }
  · rw [← h.limits_eq, List.map_map]
    rfl
  · have := h.pos_le l hl
    have := hpos l hl
    simp only
    omega
  · have := h.sum_lt l hl
    simp only
    omega
  · have := hpos l hl
    exact h.stale l hl j a b (by simp only at hj; omega)
  · have := h.skip hw l hl
    have := hpos l hl
    simp only
    omega

/-- The condition on one event: where the limits are looked at, the count of a limit and the number
of stored events that have expired for it fit into one `size_t`. -/
def NoWrap (s : FloodControlStrict) (now : ℤ) : Prop :=
  s.withoutUpdate = 0 → ∀ l ∈ s.limits,
    l.count + (s.events ++ [now]).countP (expired l.duration now) < 2 ^ 64

instance (s : FloodControlStrict) (now : ℤ) : Decidable (NoWrap s now) := by
  unfold NoWrap
  infer_instance

/-- One event. -/
theorem addEvent_spec (h : Tracked limits ts k s) (hlim : ∀ l ∈ limits, 0 ≤ l.1 ∧ 1 ≤ l.2)
    (hts : (ts ++ [now]).Pairwise (· ≤ ·)) (hlen : ts.length + 1 < 2 ^ 64) (hwrap : NoWrap s now) :
    ∃ k' s', s.addEvent now = .ok s' ∧ Tracked limits (ts ++ [now]) k' s' := by
  have hl : ∀ l ∈ limits, 1 ≤ l.2 := fun l hmem => (hlim l hmem).2
  have hk := h.erased_le
  unfold addEvent
  dsimp only
  split_ifs with hw
  · exact ⟨k, _, rfl, h.skipped hts hl hw⟩
  · have hsort : (s.events ++ [now]).Pairwise (· ≤ ·) := by
      rw [h.events_eq, ← List.drop_append_of_le_length hk]
      exact hts.sublist (List.drop_sublist _ _)
    have hev : (s.events ++ [now]).length ≤ ts.length + 1 := by
      simp only [h.events_eq, List.length_append, List.length_drop, List.length_singleton]
      omega
    obtain ⟨ls', acc', hup, hs⟩ := updateLimits_spec (List.getLast?_concat) hsort (by omega)
      s.limits ⟨s.wakeupAt, 2 ^ 64 - 1, (s.events ++ [now]).length⟩
      (fun l hl => h.ready hlim hl (hwrap (by omega) l hl))
    have ht := h.scanned hts hl hs
    unfold update
    simp only [hup, bind, Except.bind]
    split_ifs with he
    · have hmin := hs.minPos_le
      simp only [h.events_eq, List.length_append, List.length_drop, List.length_singleton] at hmin
      exact ⟨k + acc'.minPos, _, rfl, ht.erase (by simpa using hlen)
        (by simp only [List.length_append, List.length_singleton]; omega) hs.minPos_le_pos⟩
    · exact ⟨k, _, rfl, ht⟩

/-- Limits as `add_limit` takes them: a duration, and a positive count that is a `size_t`. -/
def LimitsOk (limits : List (ℤ × ℕ)) : Prop := ∀ l ∈ limits, 0 ≤ l.1 ∧ 1 ≤ l.2 ∧ l.2 < 2 ^ 64

/-- Event times that do not decrease, no more of them than a vector can hold. -/
def TimesOk (ts : List ℤ) : Prop := ts.Pairwise (· ≤ ·) ∧ ts.length < 2 ^ 64

theorem ofLimits_eq (limits : List (ℤ × ℕ)) :
    ofLimits limits = ⟨1, 0, [], limits.map fun l => ⟨l.1, l.2, 0⟩⟩ := by
  unfold ofLimits
  induction limits using List.reverseRecOn with
  | nil => rfl
  | append_singleton limits l ih =>
    rw [List.foldl_append, ih]
    simp [addLimit]

theorem tracked_ofLimits (h : LimitsOk limits) : Tracked limits [] 0 (ofLimits limits) := by
  rw [ofLimits_eq]
  refine
    { erased_le := le_rfl
      events_eq := rfl
      limits_eq := by simp [Limit.spec, Function.comp_def]
      pos_le := fun l hl => ?_
      sum_lt := fun l hl => ?_
      stale := by simp
      skip := by simp
      wakeup := by simp [Demanded, IsGreatest, upperBounds] }
  all_goals obtain ⟨sp, hsp, rfl⟩ := List.mem_map.mp hl
  · exact le_rfl
  · exact (h sp hsp).2.2

/-- `ws` are the wake-up times after the events `ts`, one for each: the greatest of 1 and the times
demanded so far. -/
def Eager (limits : List (ℤ × ℕ)) (ts ws : List ℤ) : Prop :=
  ws.length = ts.length ∧
    ∀ n w, ws[n]? = some w → IsGreatest (insert 1 (Demanded limits (ts.take (n + 1)))) w

/-- No event comes before the wake-up time reported before it. -/
def Waits (ts ws : List ℤ) : Prop :=
  ∀ n w t, ws[n]? = some w → ts[n + 1]? = some t → w ≤ t

/-- For every limit `(d, c)`, any `c + 1` consecutive events span at least `d`. -/
def Spaced (limits : List (ℤ × ℕ)) (ts : List ℤ) : Prop :=
  ∀ l ∈ limits, ∀ j a b, ts[j]? = some a → ts[j + l.2]? = some b → a + l.1 ≤ b

/-- If an event never comes before the demanded times, `count + 1` consecutive events span at least
`duration`. -/
theorem span_of_demanded {d : ℤ} {c j : ℕ} {a b : ℤ} (hc : 1 ≤ c) (hmem : (d, c) ∈ limits)
    (hts : ts.Pairwise (· ≤ ·)) (ha : ts[j]? = some a) (hb : ts[j + c]? = some b)
    (hdem : ∀ w ∈ Demanded limits (ts.take (j + c)), w ≤ b) : a + d ≤ b := by
  obtain ⟨hjc, rfl⟩ := List.getElem?_eq_some_iff.mp hb
  have hlt : j + c - 1 < ts.length := by omega
  have hle : ts[j + c - 1] ≤ ts[j + c] :=
    List.pairwise_iff_getElem.mp hts _ _ hlt hjc (by omega)
  rcases le_or_gt ts[j + c - 1] (a + d) with hin | hout
  · refine hdem _ ⟨(d, c), hmem, j + c - 1, a, ts[j + c - 1], by simp only; omega, ?_, ?_, hin, rfl⟩
    · rw [List.getElem?_take_of_lt (by simp only; omega), ← ha]
      congr 1
      simp only
      omega
    · rw [List.getElem?_take_of_lt (by omega), List.getElem?_eq_getElem hlt]
  · omega

/-- **Lazy equals eager.**  In every run whose events meet `NoWrap`, no `CHECK` fails and no index
leaves the vector, and after each event the wake-up time is the greatest of 1 and the times demanded
by all limits and all events so far.  If moreover no event comes before the wake-up time reported
before it, any `count + 1` consecutive events span at least `duration`. -/
theorem wakeupAt_isGreatest (limits : List (ℤ × ℕ)) (ts : List ℤ) (hlim : LimitsOk limits)
    (hts : TimesOk ts) (hwrap : machine.Along NoWrap (ofLimits limits) ts) :
    ∃ s ws, machine.run (ofLimits limits) ts = some (s, ws) ∧ Eager limits ts ws ∧
      (Waits ts ws → Spaced limits ts) := by
  have hrun := Machine.run_history machine (ofLimits limits) NoWrap TimesOk
    (fun ts ws s => (∃ k, Tracked limits ts k s) ∧ Eager limits ts ws)
    ?_ ⟨⟨0, tracked_ofLimits hlim⟩, rfl, by simp⟩ ?_ ts hts hwrap
  · obtain ⟨s, ws, hr, -, hlen, hws⟩ := hrun
    refine ⟨s, ws, hr, ⟨hlen, hws⟩, fun hwait l hl j a b ha hb => ?_⟩
    have hc := (hlim l hl).2.1
    have hjc := (List.getElem?_eq_some_iff.mp hb).1
    refine span_of_demanded hc hl hts.1 ha hb fun w hw => ?_
    obtain ⟨v, hv⟩ : ∃ v, ws[j + l.2 - 1]? = some v :=
      ⟨_, List.getElem?_eq_getElem (by omega)⟩
    have hg := hws _ v hv
    have hn : j + l.2 - 1 + 1 = j + l.2 := by omega
    rw [hn] at hg
    exact (hg.2 (Set.mem_insert_of_mem _ hw)).trans (hwait _ v b hv (by rw [hn, hb]))
  · rintro ts t ⟨hsort, hlen⟩
    rw [List.length_append, List.length_singleton] at hlen
    exact ⟨(List.pairwise_append.mp hsort).1, by omega⟩
  · rintro ts ws s t ⟨hsort, hlen⟩ hnw ⟨⟨k, ht⟩, hwl, hws⟩
    rw [List.length_append, List.length_singleton] at hlen
    obtain ⟨k', s', hs', ht'⟩ :=
      addEvent_spec ht (fun l hl => ⟨(hlim l hl).1, (hlim l hl).2.1⟩) hsort hlen hnw
    refine ⟨s', s'.wakeupAt, by simp [machine, hs', Except.toOption], ⟨k', ht'⟩, by simp [hwl], fun n w hn => ?_⟩
    rcases Nat.lt_or_ge n ws.length with hlt | hge
    · rw [List.getElem?_append_left hlt] at hn
      rw [List.take_append_of_le_length (by omega)]
      exact hws n w hn
    · obtain rfl : n = ws.length := by
        have := (List.getElem?_eq_some_iff.mp hn).1
        rw [List.length_append, List.length_singleton] at this
        omega
      rw [List.getElem?_concat_length] at hn
      cases hn
      rw [hwl, List.take_of_length_le (by simp)]
      exact ht'.wakeup

/-- Two events in 10, three in 100: the fourth event is early, the others are not. -/
theorem wakeupAt_isGreatest_four :
    ∃ s ws, machine.run (ofLimits [(10, 2), (100, 3)]) [1, 20, 25, 26] = some (s, ws) ∧
      Eager [(10, 2), (100, 3)] [1, 20, 25, 26] ws ∧
      (Waits [1, 20, 25, 26] ws → Spaced [(10, 2), (100, 3)] [1, 20, 25, 26]) :=
  wakeupAt_isGreatest [(10, 2), (100, 3)] [1, 20, 25, 26] (by unfold LimitsOk; decide)
    (by unfold TimesOk; decide) (by decide)

/-- A limit whose count is the last value of `size_t`: at the second event `count_ + pos_` wraps to
0, and the `CHECK` in `update` fails. -/
theorem update_check_fails :
    LimitsOk [(0, 2 ^ 64 - 1), (100, 1)] ∧ TimesOk [1, 2] ∧
      ¬ ∃ s ws, machine.run (ofLimits [(0, 2 ^ 64 - 1), (100, 1)]) [1, 2] = some (s, ws) ∧
        Eager [(0, 2 ^ 64 - 1), (100, 1)] [1, 2] ws := by
  refine ⟨by unfold LimitsOk; decide, by unfold TimesOk; decide, ?_⟩
  have hnone : (machine.run (ofLimits [(0, 2 ^ 64 - 1), (100, 1)]) [1, 2]).isNone := by decide
  rintro ⟨s, ws, hrun, -⟩
  rw [hrun] at hnone
  cases hnone

end FloodControlStrict

end TdUtils.Flow
