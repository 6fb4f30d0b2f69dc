import Mathlib.Algebra.Group.Int.Defs
import Mathlib.Algebra.Group.Nat.Defs
import Mathlib.Data.List.Forall2
import TdUtils.Flow.TimedStat

/-!
# Flow.FloodControlFast — limits that count the events of about the last `duration`

Each limit has a `TimedStat` that counts events.  When the counter of a limit is above its count after
an event, the next event has to wait for two durations.  What is known of a limit is `Watched`: its
numbers and the times of the events since it was added.  The counter covers every event of the last
duration, so when too many of them lie in one duration, the next one is told to wait until they do not.
Times are not negative, and neither the `uint32` time to wait for nor the `int32` counter wraps around.
-/

namespace TdUtils.Flow

open Lib

/-- `CounterStat`: an `int32` that is increased with every event. -/
def counterStat : Stat ℤ Unit :=
  ⟨0, fun count _ => if count < 2 ^ 31 - 1 then some (count + 1) else none⟩

namespace FloodControlFast

structure Limit where
  stat : TimedStat ℤ
  duration : ℤ
  count : ℤ

end FloodControlFast

/-- `duration_` and `wakeup_at_` are `uint32`, `count_` and the times of events are `int32`. -/
structure FloodControlFast where
  wakeupAt : ℤ := 0
  limits : List FloodControlFast.Limit := []

namespace FloodControlFast

def addLimit (s : FloodControlFast) (duration count : ℤ) : FloodControlFast :=
  { s with limits := s.limits ++ [⟨TimedStat.create counterStat duration 0, duration, count⟩] }

/-- The body of the loop of `add_event`, with `wakeup_at_`. -/
def addEventTo (now : ℤ) (wakeupAt : ℤ) (limit : Limit) : Option (Limit × ℤ) :=
  match limit.stat.addEvent counterStat () now with
  | none => none
  | some stat =>
    let (stat, counter) := stat.getStat counterStat now
    some ({ limit with stat := stat },
      if limit.count < counter then
        max wakeupAt ((now + limit.duration * 2 % 2 ^ 32) % 2 ^ 32)
      else wakeupAt)

def addEventLoop (now : ℤ) : ℤ → List Limit → Option (List Limit × ℤ)
  | wakeupAt, [] => some ([], wakeupAt)
  | wakeupAt, limit :: limits =>
    match addEventTo now wakeupAt limit with
    | none => none
    | some (limit, wakeupAt) =>
      match addEventLoop now wakeupAt limits with
      | none => none
      | some (limits, wakeupAt) => some (limit :: limits, wakeupAt)

def addEvent (s : FloodControlFast) (now : ℤ) : Option FloodControlFast :=
  (addEventLoop now s.wakeupAt s.limits).map fun (limits, wakeupAt) => ⟨wakeupAt, limits⟩

inductive Op
  | addLimit (duration count : ℤ)
  | addEvent (now : ℤ)

/-- The answer to a call is `get_wakeup_at()` after it. -/
def machine : Machine FloodControlFast Op ℤ :=
  ⟨fun s op => match op with
    | .addLimit duration count => some (s.addLimit duration count, s.wakeupAt)
    | .addEvent now => (s.addEvent now).map fun s => (s, s.wakeupAt)⟩

/-! ### What is to be counted -/

/-- A limit as it was added, and the times of the events after that. -/
structure Watched where
  duration : ℤ
  count : ℤ
  events : List ℤ := []

def Watched.add (now : ℤ) (w : Watched) : Watched := { w with events := w.events ++ [now] }

def record (watched : List Watched) : Op → List Watched
  | .addLimit duration count => watched ++ [{ duration := duration, count := count }]
  | .addEvent now => watched.map (Watched.add now)

def watchedOf (ops : List Op) : List Watched := ops.foldl record []

/-- The number of events in a closed window. -/
def inWindow (first last : ℤ) (times : List ℤ) : ℕ := times.countP fun t => first ≤ t ∧ t ≤ last

/-- The counter is the number of all events since some time that is at least `duration` and at most three
durations ago. -/
def CountsRecent (duration : ℤ) (times : List ℤ) (now counter : ℤ) : Prop :=
  ∃ first, now - 3 * duration ≤ first ∧ first ≤ now - duration ∧
    counter = times.countP fun t => first ≤ t

/-- The counters do not overflow: fewer than `2 ^ 31` events in three durations. -/
def Few (duration : ℤ) (times : List ℤ) : Prop :=
  ∀ now ∈ times, inWindow (now - 3 * duration) now times < 2 ^ 31

instance (duration : ℤ) (times : List ℤ) : Decidable (Few duration times) :=
  inferInstanceAs (Decidable (∀ now ∈ times, inWindow (now - 3 * duration) now times < 2 ^ 31))

/-- A limit and events within the range of the types. -/
structure Watched.Fits (w : Watched) : Prop where
  duration : 1 ≤ w.duration
  count : 0 ≤ w.count
  sorted : w.events.Pairwise (· ≤ ·)
  range : ∀ now ∈ w.events, 0 ≤ now ∧ now + 2 * w.duration < 2 ^ 32
  few : Few w.duration w.events

/-- The limit counts the recent ones of its events. -/
def Counts (limit : Limit) (w : Watched) : Prop :=
  limit.duration = w.duration ∧ limit.count = w.count ∧
    ∀ now, w.events.getLast? = some now → CountsRecent w.duration w.events now limit.stat.current

/-- An event does not come before the time that was reported. -/
def Waits (s : FloodControlFast) : Op → Prop
  | .addLimit _ _ => True
  | .addEvent now => s.wakeupAt ≤ now

instance (s : FloodControlFast) (op : Op) : Decidable (s.Waits op) :=
  match op with
  | .addLimit _ _ => isTrue trivial
  | .addEvent now => inferInstanceAs (Decidable (s.wakeupAt ≤ now))

/-! ### Counters -/

theorem counterStat_onEvent {c : ℤ} (h : c < 2 ^ 31 - 1) (e : Unit) :
    counterStat.onEvent c e = some (c + 1) := if_pos h

theorem counterStat_of {events : List Unit} (h : events.length < 2 ^ 31) :
    counterStat.of events = some (events.length : ℤ) := by
  induction events using List.reverseRecOn with
  | nil => rfl
  | append_singleton events e ih =>
    rw [List.length_append, List.length_singleton] at h
    rw [TimedStat.of_concat, ih (by omega), Option.bind_some, counterStat_onEvent (by omega),
      List.length_append]
    rfl

theorem length_since (t : ℤ) (events : List (ℤ × Unit)) :
    (TimedStat.since t events).length = (events.map Prod.fst).countP fun x => t ≤ x := by
  unfold TimedStat.since
  rw [List.length_map, List.countP_map, ← List.countP_eq_length_filter]
  rfl

variable {duration : ℤ} {events : List (ℤ × Unit)} {now : ℤ}

/-- A counter that has a value has the number of the events. -/
theorem length_of_counterStat : ∀ {events : List Unit} {c : ℤ}, counterStat.of events = some c →
    c = (events.length : ℤ) := by
  intro events
  induction events using List.reverseRecOn with
  | nil =>
    intro c h
    exact (Option.some.inj h).symm
  | append_singleton events e ih =>
    intro c h
    rw [TimedStat.of_concat, Option.bind_eq_some_iff] at h
    obtain ⟨c', hc', hstep⟩ := h
    unfold counterStat at hstep
    dsimp only at hstep
    split_ifs at hstep
    rw [List.length_append, List.length_singleton, Int.natCast_add, ← ih hc']
    exact (Option.some.inj hstep).symm

theorem countsRecent_of {c : ℤ} (h : TimedStat.Recent counterStat duration events now c) :
    CountsRecent duration (events.map Prod.fst) now c := by
  obtain ⟨first, hlow, hhigh, hof⟩ := h
  refine ⟨first, hlow, hhigh, ?_⟩
  rw [← length_since]
  exact length_of_counterStat hof

/-- Fewer than `2 ^ 31` events can be counted. -/
theorem counted_of_few (hpast : ∀ e ∈ events, e.1 ≤ now)
    (hfew : inWindow (now - 3 * duration) now (events.map Prod.fst) < 2 ^ 31) :
    TimedStat.Counted counterStat duration events now := by
  intro t ht
  have hle : (TimedStat.since t events).length ≤
      inWindow (now - 3 * duration) now (events.map Prod.fst) := by
    rw [length_since]
    apply List.countP_mono_left
    intro x hx hle
    obtain ⟨e, he, rfl⟩ := List.mem_map.mp hx
    have hnow := hpast e he
    simp only [decide_eq_true_eq] at hle ⊢
    exact ⟨by omega, hnow⟩
  rw [counterStat_of (Nat.lt_of_le_of_lt hle hfew)]
  rfl

/-! ### One limit -/

/-- The events of a limit as its statistic sees them. -/
def Watched.history (w : Watched) : List (ℤ × Unit) := w.events.map fun t => (t, ())

/-- The time of the last call of the statistic of a limit. -/
def Watched.last (w : Watched) : ℤ := w.events.getLast?.getD 0

structure Tracks (limit : Limit) (w : Watched) : Prop where
  duration : limit.duration = w.duration
  count : limit.count = w.count
  stat : limit.stat.duration = w.duration
  covers : TimedStat.Covers counterStat limit.stat w.history w.last

variable {w : Watched} {limit : Limit}

theorem Watched.history_times (w : Watched) : w.history.map Prod.fst = w.events := by
  unfold history
  rw [List.map_map]
  exact List.map_id w.events

theorem Watched.history_add (w : Watched) (now : ℤ) :
    (w.add now).history = w.history ++ [(now, ())] := List.map_append

theorem Watched.last_add (w : Watched) (now : ℤ) : (w.add now).last = now := by
  unfold last add
  dsimp only
  rw [List.getLast?_concat]
  rfl

theorem Watched.le_of_fits (h : (w.add now).Fits) : ∀ t ∈ w.events, t ≤ now := by
  have hsorted := (List.pairwise_append.mp h.sorted).2.2
  exact fun t ht => hsorted t ht now (List.mem_singleton_self now)

theorem Watched.mem_add (w : Watched) (now : ℤ) : now ∈ (w.add now).events :=
  List.mem_append_right _ (List.mem_singleton_self now)

theorem Watched.last_le (h : (w.add now).Fits) : w.last ≤ now := by
  unfold last
  cases hlast : w.events.getLast? with
  | none => exact (h.range now (w.mem_add now)).1
  | some t => exact le_of_fits h t (List.mem_of_getLast? hlast)

theorem inWindow_le_append (first last : ℤ) (times more : List ℤ) :
    inWindow first last times ≤ inWindow first last (times ++ more) := by
  unfold inWindow
  rw [List.countP_append]
  exact Nat.le_add_right _ _

theorem Watched.Fits.before (h : (w.add now).Fits) : w.Fits where
  duration := h.duration
  count := h.count
  sorted := (List.pairwise_append.mp h.sorted).1
  range := fun t ht => h.range t (List.mem_append_left _ ht)
  few := fun t ht => Nat.lt_of_le_of_lt (inWindow_le_append _ _ _ _)
    (h.few t (List.mem_append_left _ ht))

theorem tracks_addLimit {duration : ℤ} (count : ℤ) (h : 1 ≤ duration) :
    Tracks ⟨TimedStat.create counterStat duration 0, duration, count⟩
      { duration := duration, count := count } :=
  ⟨rfl, rfl, rfl, TimedStat.covers_create h 0⟩

theorem Tracks.counts (h : Tracks limit w) : Counts limit w := by
  refine ⟨h.duration, h.count, fun now hnow => ?_⟩
  have hcovers := h.covers
  unfold Watched.last at hcovers
  rw [hnow] at hcovers
  have hrecent := countsRecent_of hcovers.recent
  rwa [w.history_times, h.stat] at hrecent

/-- The counter after an event counts the whole window of `duration` that ends with it. -/
theorem CountsRecent.inWindow_le {times : List ℤ} {counter : ℤ}
    (h : CountsRecent duration times now counter) :
    (inWindow (now - duration) now times : ℤ) ≤ counter := by
  obtain ⟨first, -, hfirst, rfl⟩ := h
  apply Int.ofNat_le.mpr
  apply List.countP_mono_left
  intro t _ ht
  simp only [decide_eq_true_eq] at ht ⊢
  exact hfirst.trans ht.1

/-- One limit in the loop of `add_event`. -/
theorem addEventTo_spec (h : Tracks limit w) (hfits : (w.add now).Fits) (wakeupAt : ℤ) :
    ∃ limit' wakeupAt', addEventTo now wakeupAt limit = some (limit', wakeupAt') ∧
      Tracks limit' (w.add now) ∧ wakeupAt ≤ wakeupAt' ∧
      (w.count < inWindow (now - w.duration) now (w.add now).events →
        now + 2 * w.duration ≤ wakeupAt') := by
  have hpast : ∀ e ∈ (w.add now).history, e.1 ≤ now := by
    intro e he
    obtain ⟨t, ht, rfl⟩ := List.mem_map.mp he
    rcases List.mem_append.mp ht with ht | ht
    · exact Watched.le_of_fits hfits t ht
    · exact (List.mem_singleton.mp ht).le
  have hcounted : TimedStat.Counted counterStat w.duration (w.add now).history now := by
    apply counted_of_few hpast
    rw [Watched.history_times]
    exact hfits.few now (w.mem_add now)
  rw [w.history_add, ← h.stat] at hcounted
  obtain ⟨stat, hadd, hduration, hcovers⟩ := h.covers.addEvent (Watched.last_le hfits) hcounted
  have hget := hcovers.update le_rfl
  have hstat : (TimedStat.update counterStat stat now).duration = w.duration := by
    rw [TimedStat.update_duration, hduration, h.stat]
  have hrecent := countsRecent_of hget.recent
  rw [← w.history_add, Watched.history_times, hstat] at hrecent
  have hcounter := hrecent.inWindow_le
  have hwakeup : (now + limit.duration * 2 % 2 ^ 32) % 2 ^ 32 = now + 2 * w.duration := by
    obtain ⟨hnow, hrange⟩ := hfits.range now (w.mem_add now)
    have hpos : 1 ≤ w.duration := hfits.duration
    change now + 2 * w.duration < 2 ^ 32 at hrange
    rw [h.duration, Int.emod_eq_of_lt (a := w.duration * 2) (by omega) (by omega),
      Int.emod_eq_of_lt (by omega) (by omega)]
    omega
  set counter := (TimedStat.update counterStat stat now).current with hcounterDef
  refine ⟨{ limit with stat := TimedStat.update counterStat stat now },
    if limit.count < counter then max wakeupAt (now + 2 * w.duration) else wakeupAt, ?_, ?_, ?_, ?_⟩
  · unfold addEventTo TimedStat.getStat
    rw [hadd, ← hwakeup]
  · refine ⟨h.duration, h.count, hstat, ?_⟩
    rw [w.history_add, w.last_add]
    exact hget
  · split_ifs
    · exact le_max_left _ _
    · exact le_rfl
  · intro hmany
    rw [h.count, if_pos (lt_of_lt_of_le hmany hcounter)]
    exact le_max_right _ _

/-! ### All limits -/

/-- When too many events lie in the duration that ends with the last one, the next event has to wait. -/
def Armed (wakeupAt : ℤ) (w : Watched) : Prop :=
  ∀ now, w.events.getLast? = some now → w.count < inWindow (now - w.duration) now w.events →
    now + 2 * w.duration ≤ wakeupAt

theorem Armed.mono {wakeupAt wakeupAt' : ℤ} (h : Armed wakeupAt w) (hle : wakeupAt ≤ wakeupAt') :
    Armed wakeupAt' w := fun now hnow hmany => (h now hnow hmany).trans hle

theorem addEventLoop_spec : ∀ {limits : List Limit} {watched : List Watched} (wakeupAt : ℤ),
    List.Forall₂ Tracks limits watched → (∀ w ∈ watched, (w.add now).Fits) →
    ∃ limits' wakeupAt', addEventLoop now wakeupAt limits = some (limits', wakeupAt') ∧
      List.Forall₂ Tracks limits' (watched.map (Watched.add now)) ∧ wakeupAt ≤ wakeupAt' ∧
      ∀ w ∈ watched.map (Watched.add now), Armed wakeupAt' w
  | [], _, wakeupAt, .nil, _ =>
    ⟨[], wakeupAt, rfl, .nil, le_rfl, fun _ hw => absurd hw List.not_mem_nil⟩
  | limit :: limits, w :: watched, wakeupAt, .cons h hs, hfits => by
    obtain ⟨limit', wakeupAt', hone, htracks, hle, harmed⟩ :=
      addEventTo_spec h (hfits w List.mem_cons_self) wakeupAt
    obtain ⟨limits', wakeupAt'', hrest, htracks', hle', harmed'⟩ :=
      addEventLoop_spec wakeupAt' hs fun w' hw' => hfits w' (List.mem_cons_of_mem _ hw')
    refine ⟨limit' :: limits', wakeupAt'', ?_, .cons htracks htracks', hle.trans hle', ?_⟩
    · unfold addEventLoop
      rw [hone]
      dsimp only
      rw [hrest]
    · intro w' hw'
      rcases List.mem_cons.mp hw' with rfl | hw'
      · intro last hlast hmany
        obtain rfl : now = last := by
          rw [Watched.add, List.getLast?_concat] at hlast
          exact Option.some.inj hlast
        exact (harmed hmany).trans hle'
      · exact harmed' w' hw'

/-! ### Windows -/

/-- No closed window of length `duration` contains more than `count + 1` events. -/
def Bounded (w : Watched) : Prop :=
  ∀ first, (inWindow first (first + w.duration) w.events : ℤ) ≤ w.count + 1

/-- An event that waits for the reported time does not fill a window. -/
theorem Bounded.add {wakeupAt : ℤ} (h : Bounded w) (harmed : Armed wakeupAt w)
    (hfits : (w.add now).Fits) (hwaits : wakeupAt ≤ now) : Bounded (w.add now) := by
  intro first
  have hbefore := h first
  show (inWindow first (first + w.duration) (w.events ++ [now]) : ℤ) ≤ w.count + 1
  have hsplit : inWindow first (first + w.duration) (w.events ++ [now]) =
      inWindow first (first + w.duration) w.events + inWindow first (first + w.duration) [now] :=
    List.countP_append
  rw [hsplit]
  by_cases hin : first ≤ now ∧ now ≤ first + w.duration
  · have hone : inWindow first (first + w.duration) [now] = 1 := by
      unfold inWindow
      rw [List.countP_singleton, if_pos (by simpa using hin)]
    rw [hone]
    -- the window was full before, so the last event set the time to wait for behind it
    by_contra hfull
    have hcount : 0 ≤ w.count := hfits.count
    have hmany : w.count < inWindow first (first + w.duration) w.events := by omega
    have hne : w.events ≠ [] := fun hnil => by
      rw [hnil] at hmany
      exact absurd (lt_of_le_of_lt hcount hmany) (lt_irrefl _)
    obtain ⟨last, hlast⟩ := Option.ne_none_iff_exists'.mp (mt List.getLast?_eq_none_iff.mp hne)
    have hle := Watched.le_of_fits hfits last (List.mem_of_getLast? hlast)
    have hbeforeLast : ∀ t ∈ w.events, t ≤ last := by
      obtain ⟨init, hinit⟩ := List.getLast?_eq_some_iff.mp hlast
      have hsorted := hfits.before.sorted
      rw [hinit, List.pairwise_append] at hsorted
      intro t ht
      rw [hinit] at ht
      rcases List.mem_append.mp ht with ht | ht
      · exact hsorted.2.2 t ht last (List.mem_singleton_self last)
      · exact (List.mem_singleton.mp ht).le
    have hwindow : inWindow first (first + w.duration) w.events ≤
        inWindow (last - w.duration) last w.events := by
      apply List.countP_mono_left
      intro t ht hin'
      have hlt := hbeforeLast t ht
      simp only [decide_eq_true_eq] at hin' ⊢
      exact ⟨by omega, hlt⟩
    have hwait := harmed last hlast (lt_of_lt_of_le hmany (Int.ofNat_le.mpr hwindow))
    obtain ⟨t, ht, hfirst⟩ : ∃ t ∈ w.events, first ≤ t := by
      have hpos : 0 < inWindow first (first + w.duration) w.events := by omega
      obtain ⟨t, ht, hin'⟩ := List.countP_pos_iff.mp hpos
      simp only [decide_eq_true_eq] at hin'
      exact ⟨t, ht, hin'.1⟩
    have hlt := hbeforeLast t ht
    have hpos : 1 ≤ w.duration := hfits.duration
    omega
  · have hnone : inWindow first (first + w.duration) [now] = 0 := by
      unfold inWindow
      rw [List.countP_singleton, if_neg (by simpa using hin)]
    rw [hnone]
    exact hbefore

/-! ### Runs -/

theorem watchedOf_concat (ops : List Op) (op : Op) :
    watchedOf (ops ++ [op]) = record (watchedOf ops) op := by
  unfold watchedOf
  rw [List.foldl_append]
  rfl

/-- What is known after some calls. -/
structure Known (ops : List Op) (s : FloodControlFast) : Prop where
  tracks : List.Forall₂ Tracks s.limits (watchedOf ops)
  armed : ∀ w ∈ watchedOf ops, Armed s.wakeupAt w

theorem fits_before {ops : List Op} {op : Op} (h : ∀ w ∈ watchedOf (ops ++ [op]), w.Fits) :
    ∀ w ∈ watchedOf ops, w.Fits := by
  rw [watchedOf_concat] at h
  intro w hw
  cases op with
  | addLimit duration count => exact h w (List.mem_append_left _ hw)
  | addEvent now => exact (h _ (List.mem_map_of_mem hw)).before

theorem Known.step {ops : List Op} {s : FloodControlFast} {op : Op} (h : Known ops s)
    (hfits : ∀ w ∈ watchedOf (ops ++ [op]), w.Fits) :
    ∃ s', machine.step s op = some (s', s'.wakeupAt) ∧ Known (ops ++ [op]) s' := by
  rw [watchedOf_concat] at hfits
  cases op with
  | addLimit duration count =>
    have hnew := hfits _ (List.mem_append_right _ (List.mem_singleton_self _))
    refine ⟨s.addLimit duration count, rfl, ?_, ?_⟩
    · rw [watchedOf_concat]
      exact List.rel_append h.tracks (.cons (tracks_addLimit count hnew.duration) .nil)
    · rw [watchedOf_concat]
      intro w hw
      rcases List.mem_append.mp hw with hw | hw
      · exact h.armed w hw
      · obtain rfl := List.mem_singleton.mp hw
        exact fun now hnow => absurd hnow (Option.some_ne_none now).symm
  | addEvent now =>
    obtain ⟨limits, wakeupAt, hloop, htracks, -, harmed⟩ :=
      addEventLoop_spec s.wakeupAt h.tracks fun w hw => hfits _ (List.mem_map_of_mem hw)
    refine ⟨⟨wakeupAt, limits⟩, ?_, ?_, ?_⟩
    · show (s.addEvent now).map _ = _
      unfold FloodControlFast.addEvent
      rw [hloop]
      rfl
    · rw [watchedOf_concat]
      exact htracks
    · rw [watchedOf_concat]
      exact harmed

theorem known_start : Known [] {} := ⟨.nil, fun _ hw => absurd hw List.not_mem_nil⟩

theorem known_of_run (ops : List Op) (hfits : ∀ w ∈ watchedOf ops, w.Fits) :
    ∃ s answers, machine.run {} ops = some (s, answers) ∧ Known ops s := by
  refine machine.run_history {} (fun _ _ => True) (fun ops => ∀ w ∈ watchedOf ops, w.Fits)
    (fun ops _ s => Known ops s) (fun _ _ => fits_before) known_start ?_ ops hfits
    (Machine.along_of_forall _ _ fun _ _ _ => trivial)
  intro ops answers s op hfits _ h
  obtain ⟨s', hstep, h'⟩ := h.step hfits
  exact ⟨s', s'.wakeupAt, hstep, h'⟩

/-- In a run in which every event waits, no window is filled. -/
theorem bounded_of_run (ops : List Op) (hfits : ∀ w ∈ watchedOf ops, w.Fits)
    (hwaits : machine.Along Waits {} ops) : ∀ w ∈ watchedOf ops, Bounded w := by
  have hrun := machine.run_history {} Waits (fun ops => ∀ w ∈ watchedOf ops, w.Fits)
    (fun ops _ s => Known ops s ∧ ∀ w ∈ watchedOf ops, Bounded w) (fun _ _ => fits_before)
    ⟨known_start, fun _ hw => absurd hw List.not_mem_nil⟩ ?_ ops hfits hwaits
  · obtain ⟨s, answers, -, -, hbounded⟩ := hrun
    exact hbounded
  · rintro ops answers s op hfits hwait ⟨h, hbounded⟩
    obtain ⟨s', hstep, h'⟩ := h.step hfits
    refine ⟨s', s'.wakeupAt, hstep, h', ?_⟩
    rw [watchedOf_concat] at hfits ⊢
    cases op with
    | addLimit duration count =>
      intro w hw
      rcases List.mem_append.mp hw with hw' | hw'
      · exact hbounded w hw'
      · have hcount := (hfits w hw).count
        obtain rfl := List.mem_singleton.mp hw'
        intro first
        change 0 ≤ count at hcount
        show (0 : ℤ) ≤ count + 1
        omega
    | addEvent now =>
      intro w hw
      obtain ⟨w', hw', rfl⟩ := List.mem_map.mp hw
      exact (hbounded w' hw').add (h.armed w' hw') (hfits _ hw) hwait

/-- The times of the events of calls in order do not decrease. -/
theorem eventsOf_sublist : ∀ ops : List (TimedStat.Op Unit),
    ((TimedStat.eventsOf ops).map Prod.fst).Sublist (ops.map TimedStat.Op.now)
  | [] => List.Sublist.refl []
  | .addEvent _ now :: ops => (eventsOf_sublist ops).cons_cons now
  | .getStat now :: ops => (eventsOf_sublist ops).cons now

theorem alwaysCounted_of_few (hsorted : (events.map Prod.fst).Pairwise (· ≤ ·))
    (hfew : Few duration (events.map Prod.fst)) : TimedStat.AlwaysCounted counterStat duration events := by
  rintro before now e ⟨after, rfl⟩
  apply counted_of_few
  · rw [List.map_append, List.pairwise_append, List.map_append, List.pairwise_append] at hsorted
    intro e' he'
    rcases List.mem_append.mp he' with he' | he'
    · exact hsorted.1.2.2 e'.1 (List.mem_map_of_mem he') now (List.mem_singleton_self now)
    · rw [List.mem_singleton.mp he']
  · rw [List.map_append] at hfew
    refine Nat.lt_of_le_of_lt (inWindow_le_append _ _ _ _) (hfew now ?_)
    exact List.mem_append_left _ (List.mem_map_of_mem (List.mem_append_right _ (List.mem_singleton_self _)))

/-- The counters count every event of the last duration and none that is older than three, whatever the
times of the calls are; and when every event waits, no window of a limit has more than `count + 1`
events. -/
theorem windows_bounded :
    (∀ (duration start : ℤ) (ops : List (TimedStat.Op Unit)), 1 ≤ duration →
      TimedStat.Ordered start ops → Few duration ((TimedStat.eventsOf ops).map Prod.fst) →
      ∃ s answers, (TimedStat.machine counterStat).run (TimedStat.create counterStat duration start) ops =
          some (s, answers) ∧
        CountsRecent duration ((TimedStat.eventsOf ops).map Prod.fst) (TimedStat.lastCall start ops)
          s.current) ∧
    ∀ ops : List Op, (∀ w ∈ watchedOf ops, w.Fits) →
      ∃ s answers, machine.run {} ops = some (s, answers) ∧
        List.Forall₂ Counts s.limits (watchedOf ops) ∧
        (machine.Along Waits {} ops → ∀ w ∈ watchedOf ops, Bounded w) := by
  constructor
  · intro duration start ops hduration hordered hfew
    have hsorted := (List.pairwise_cons.mp hordered).2.sublist (eventsOf_sublist ops)
    obtain ⟨s, answers, hrun, rfl, hcovers⟩ :=
      TimedStat.run_recent hduration ops hordered (alwaysCounted_of_few hsorted hfew)
    exact ⟨s, answers, hrun, countsRecent_of hcovers.recent⟩
  · intro ops hfits
    obtain ⟨s, answers, hrun, hknown⟩ := known_of_run ops hfits
    exact ⟨s, answers, hrun, hknown.tracks.imp fun _ _ h => h.counts, bounded_of_run ops hfits⟩

/-- A run with two limits, one of which is added later, in which every event waits. -/
theorem windows_bounded_late : ∃ s answers, machine.run {} [.addLimit 10 1, .addEvent 3, .addLimit 5 2,
      .addEvent 4, .addEvent 24] = some (s, answers) ∧
    List.Forall₂ Counts s.limits [⟨10, 1, [3, 4, 24]⟩, ⟨5, 2, [4, 24]⟩] ∧
    (machine.Along Waits {} [.addLimit 10 1, .addEvent 3, .addLimit 5 2, .addEvent 4, .addEvent 24] →
      ∀ w ∈ ([⟨10, 1, [3, 4, 24]⟩, ⟨5, 2, [4, 24]⟩] : List Watched), Bounded w) :=
  windows_bounded.2 [.addLimit 10 1, .addEvent 3, .addLimit 5 2, .addEvent 4, .addEvent 24] fun w hw => by
    have hmem : w = ⟨10, 1, [3, 4, 24]⟩ ∨ w = ⟨5, 2, [4, 24]⟩ := by simpa [watchedOf, record, Watched.add] using hw
    rcases hmem with rfl | rfl
    · exact ⟨by decide, by decide, by decide, by decide, by decide⟩
    · exact ⟨by decide, by decide, by decide, by decide, by decide⟩

/-- Twice the duration wraps around to 0 and nothing has to wait; a count of -1 allows no event but
cannot hold back the first; and an event before the time 0 is counted as if it was at 0. -/
theorem windows_overfilled :
    (machine.Along Waits {} [.addLimit 2147483648 1, .addEvent 0, .addEvent 0, .addEvent 0] ∧
      ¬ ∀ w ∈ watchedOf [.addLimit 2147483648 1, .addEvent 0, .addEvent 0, .addEvent 0], Bounded w) ∧
    (machine.Along Waits {} [.addLimit 1 (-1), .addEvent 0] ∧
      ¬ ∀ w ∈ watchedOf [.addLimit 1 (-1), .addEvent 0], Bounded w) ∧
    ∃ s answers, machine.run {} [.addLimit 1 5, .addEvent (-5), .addEvent 2] = some (s, answers) ∧
      ¬ List.Forall₂ Counts s.limits (watchedOf [.addLimit 1 5, .addEvent (-5), .addEvent 2]) := by
  refine ⟨⟨by decide +kernel, fun h => ?_⟩, ⟨by decide +kernel, fun h => ?_⟩, ?_⟩
  · have hwindow := h ⟨2147483648, 1, [0, 0, 0]⟩ (List.mem_singleton_self _) 0
    exact absurd hwindow (by decide)
  · have hwindow := h ⟨1, -1, [0]⟩ (List.mem_singleton_self _) 0
    exact absurd hwindow (by decide)
  · refine ⟨⟨0, [⟨⟨1, 2, 0, 1, 2⟩, 1, 5⟩]⟩, [0, 0, 0], rfl, fun h => ?_⟩
    obtain ⟨hcounts, -⟩ := List.forall₂_cons.mp h
    obtain ⟨first, hfirst, -, hcount⟩ := hcounts.2.2 2 rfl
    change (2 : ℤ) - 3 * 1 ≤ first at hfirst
    change (2 : ℤ) = (([-5, 2] : List ℤ).countP fun t => decide (first ≤ t) : ℕ) at hcount
    -- the event at -5 is too old to be counted
    have hold : ¬ first ≤ -5 := by omega
    have hone : ([-5, 2] : List ℤ).countP (fun t => decide (first ≤ t)) ≤ 1 := by
      rw [List.countP_cons_of_neg (by simpa using hold)]
      exact List.countP_le_length
    omega

end FloodControlFast

end TdUtils.Flow
