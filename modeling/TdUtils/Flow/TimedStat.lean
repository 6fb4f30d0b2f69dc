import Mathlib.Data.Int.Order.Basic
import Mathlib.Order.Basic
import Mathlib.Data.List.Induction
import TdUtils.Lib.Machine

/-!
# Flow.TimedStat — a statistic over about the last `duration` seconds

Two statistics run side by side: `current` is the one of the events since `currentTimestamp`, `next`
the one of the events since `nextTimestamp`.  `update` lets `next` take over when it is old enough, and
starts both anew when it is too old.  `Covers` says from where both count, and that the events that are
lost are too old for the last `duration` seconds.  Times are integers, which `double` holds exactly.
-/

namespace TdUtils.Flow

open Lib

universe u v

/-- A class `StatT` with its `on_event`, which is `none` where it has no defined result. -/
structure Stat (σ : Type u) (ε : Type v) where
  init : σ
  onEvent : σ → ε → Option σ

/-- The statistic of some events. -/
def Stat.of {σ : Type u} {ε : Type v} (stat : Stat σ ε) (events : List ε) : Option σ :=
  events.foldlM stat.onEvent stat.init

structure TimedStat (σ : Type u) where
  duration : ℤ
  current : σ
  currentTimestamp : ℤ
  next : σ
  nextTimestamp : ℤ

namespace TimedStat

variable {σ : Type u} {ε : Type v} (stat : Stat σ ε)

/-- `TimedStat(double duration, double now)`. -/
def create (duration now : ℤ) : TimedStat σ := ⟨duration, stat.init, now, stat.init, now⟩

def update (s : TimedStat σ) (now : ℤ) : TimedStat σ :=
  let now := if now < s.nextTimestamp then s.nextTimestamp else now
  if s.duration = 0 then s
  else if s.nextTimestamp + 2 * s.duration < now then
    ⟨s.duration, stat.init, now, stat.init, now⟩
  else if s.nextTimestamp + s.duration < now then
    ⟨s.duration, s.next, s.nextTimestamp, stat.init, now⟩
  else s

def addEvent (s : TimedStat σ) (e : ε) (now : ℤ) : Option (TimedStat σ) :=
  let s := update stat s now
  match stat.onEvent s.current e, stat.onEvent s.next e with
  | some current, some next => some { s with current := current, next := next }
  | _, _ => none

def getStat (s : TimedStat σ) (now : ℤ) : TimedStat σ × σ :=
  let s := update stat s now
  (s, s.current)

inductive Op (ε : Type v)
  | addEvent (e : ε) (now : ℤ)
  | getStat (now : ℤ)

def Op.now : Op ε → ℤ
  | .addEvent _ now => now
  | .getStat now => now

/-- The answer to a call is the statistic after it. -/
def machine : Machine (TimedStat σ) (Op ε) σ :=
  ⟨fun s op => match op with
    | .addEvent e now => (s.addEvent stat e now).map fun s => (s, s.current)
    | .getStat now => some (s.getStat stat now)⟩

/-! ### What the statistics count -/

/-- The events from the time `t` on. -/
def since (t : ℤ) (events : List (ℤ × ε)) : List ε :=
  (events.filter fun e => t ≤ e.1).map Prod.snd

theorem since_concat_of_le {t now : ℤ} (events : List (ℤ × ε)) (e : ε) (h : t ≤ now) :
    since t (events ++ [(now, e)]) = since t events ++ [e] := by
  unfold since
  rw [List.filter_append, List.filter_cons_of_pos (by simpa using h), List.map_append]
  rfl

theorem since_of_lt {t : ℤ} {events : List (ℤ × ε)} (h : ∀ e ∈ events, e.1 < t) :
    since t events = [] := by
  unfold since
  rw [List.map_eq_nil_iff, List.filter_eq_nil_iff]
  intro e he hle
  have hlt := h e he
  simp only [decide_eq_true_eq] at hle
  omega

/-- Nothing happened between the two times. -/
theorem since_congr {t t' : ℤ} {events : List (ℤ × ε)} (h : ∀ e ∈ events, t ≤ e.1 ↔ t' ≤ e.1) :
    since t events = since t' events := by
  unfold since
  apply congrArg
  apply List.filter_congr
  intro e he
  exact decide_eq_decide.mpr (h e he)

variable {stat}

theorem of_concat (events : List ε) (e : ε) :
    stat.of (events ++ [e]) = (stat.of events).bind fun c => stat.onEvent c e := by
  unfold Stat.of
  rw [List.foldlM_append]
  cases events.foldlM stat.onEvent stat.init with
  | none => rfl
  | some c =>
    show (stat.onEvent c e).bind some = stat.onEvent c e
    cases stat.onEvent c e <;> rfl

variable (stat) in
/-- After `events`, with the last call at the time `last`. -/
structure Covers (s : TimedStat σ) (events : List (ℤ × ε)) (last : ℤ) : Prop where
  duration : 1 ≤ s.duration
  current_le : s.currentTimestamp ≤ s.nextTimestamp
  next_le : s.nextTimestamp ≤ s.currentTimestamp + 2 * s.duration
  le_last : s.nextTimestamp ≤ last
  last_le : last ≤ s.nextTimestamp + s.duration
  current : stat.of (since s.currentTimestamp events) = some s.current
  next : stat.of (since s.nextTimestamp events) = some s.next
  lost : ∀ e ∈ events, e.1 < s.currentTimestamp → e.1 < s.nextTimestamp - s.duration
  past : ∀ e ∈ events, e.1 ≤ last

variable {s : TimedStat σ} {events : List (ℤ × ε)} {last now : ℤ}

theorem covers_create {duration : ℤ} (h : 1 ≤ duration) (now : ℤ) :
    Covers stat (create stat duration now) [] now where
  duration := h
  current_le := le_rfl
  next_le := by
    unfold create
    dsimp only
    omega
  le_last := le_rfl
  last_le := by
    unfold create
    dsimp only
    omega
  current := rfl
  next := rfl
  lost := fun _ he => absurd he List.not_mem_nil
  past := fun _ he => absurd he List.not_mem_nil

@[simp] theorem update_duration (s : TimedStat σ) (now : ℤ) :
    (update stat s now).duration = s.duration := by
  unfold update
  dsimp only
  split_ifs <;> rfl

/-- A call at a time that is not before the last one. -/
theorem Covers.update (h : Covers stat s events last) (hle : last ≤ now) :
    Covers stat (update stat s now) events now := by
  have hduration := h.duration
  have hnext := h.le_last
  have hlast := h.last_le
  have hclamp : ¬ now < s.nextTimestamp := not_lt.mpr (hnext.trans hle)
  have hzero : s.duration ≠ 0 := by omega
  unfold TimedStat.update
  rw [if_neg hclamp, if_neg hzero]
  by_cases hreset : s.nextTimestamp + 2 * s.duration < now
  · rw [if_pos hreset]
    have hnone : since now events = [] := since_of_lt fun e he => by
      have hpast := h.past e he
      omega
    refine ⟨hduration, le_rfl, ?_, le_rfl, ?_, ?_, ?_, ?_, fun e he => (h.past e he).trans hle⟩
    · show now ≤ now + 2 * s.duration
      omega
    · show now ≤ now + s.duration
      omega
    · show stat.of (since now events) = _
      rw [hnone]
      rfl
    · show stat.of (since now events) = _
      rw [hnone]
      rfl
    · intro e he _
      have hpast := h.past e he
      show e.1 < now - s.duration
      omega
  · rw [if_neg hreset]
    by_cases hrotate : s.nextTimestamp + s.duration < now
    · rw [if_pos hrotate]
      refine ⟨hduration, hnext.trans hle, ?_, le_rfl, ?_, h.next, ?_, ?_,
        fun e he => (h.past e he).trans hle⟩
      · show now ≤ s.nextTimestamp + 2 * s.duration
        omega
      · show now ≤ now + s.duration
        omega
      · show stat.of (since now events) = _
        rw [since_of_lt fun e he => by
          have hpast := h.past e he
          omega]
        rfl
      · intro e he hlt
        change e.1 < s.nextTimestamp at hlt
        show e.1 < now - s.duration
        omega
    · rw [if_neg hrotate]
      exact { h with
        le_last := hnext.trans hle
        last_le := by omega
        past := fun e he => (h.past e he).trans hle }

variable (stat) in
/-- The events of the last three durations have a statistic, from wherever one starts. -/
def Counted (duration : ℤ) (events : List (ℤ × ε)) (now : ℤ) : Prop :=
  ∀ t, now - 3 * duration ≤ t → (stat.of (since t events)).isSome

theorem Covers.addEvent (h : Covers stat s events last) (hle : last ≤ now) {e : ε}
    (hcounted : Counted stat s.duration (events ++ [(now, e)]) now) :
    ∃ s', s.addEvent stat e now = some s' ∧ s'.duration = s.duration ∧
      Covers stat s' (events ++ [(now, e)]) now := by
  have h' := h.update hle
  have hlast := h'.last_le
  have hspread := h'.next_le
  have hnext := h'.le_last
  have hcurrent := le_trans h'.current_le hnext
  rw [update_duration] at hlast hspread
  have hstep : ∀ t c, now - 3 * s.duration ≤ t → t ≤ now → stat.of (since t events) = some c →
      ∃ c', stat.onEvent c e = some c' ∧ stat.of (since t (events ++ [(now, e)])) = some c' := by
    intro t c hold hnow hc
    obtain ⟨c', hc'⟩ := Option.isSome_iff_exists.mp (hcounted t hold)
    refine ⟨c', ?_, hc'⟩
    rw [since_concat_of_le events e hnow, of_concat, hc, Option.bind_some] at hc'
    exact hc'
  obtain ⟨current, hcur, hcurOf⟩ := hstep _ _ (by omega) hcurrent h'.current
  obtain ⟨next, hnxt, hnxtOf⟩ := hstep _ _ (by omega) hnext h'.next
  refine ⟨{ TimedStat.update stat s now with current := current, next := next }, ?_, update_duration s now,
    { h' with current := hcurOf, next := hnxtOf, lost := ?_, past := ?_ }⟩
  · unfold TimedStat.addEvent
    dsimp only
    rw [hcur, hnxt]
  · intro e' he' hlt
    rcases List.mem_append.mp he' with he' | he'
    · exact h'.lost e' he' hlt
    · obtain rfl := List.mem_singleton.mp he'
      exact absurd hcurrent (not_le.mpr hlt)
  · intro e' he'
    rcases List.mem_append.mp he' with he' | he'
    · exact h'.past e' he'
    · obtain rfl := List.mem_singleton.mp he'
      exact le_rfl

variable (stat) in
/-- The statistic `c` is the one of all events since some time that is at least `duration` and at most
three durations ago. -/
def Recent (duration : ℤ) (events : List (ℤ × ε)) (now : ℤ) (c : σ) : Prop :=
  ∃ t, now - 3 * duration ≤ t ∧ t ≤ now - duration ∧ stat.of (since t events) = some c

theorem Covers.recent (h : Covers stat s events now) : Recent stat s.duration events now s.current := by
  have hlast := h.last_le
  have hspread := h.next_le
  have hduration := h.duration
  by_cases hold : s.currentTimestamp ≤ now - s.duration
  · exact ⟨s.currentTimestamp, by omega, hold, h.current⟩
  · refine ⟨now - s.duration, by omega, le_rfl, ?_⟩
    rw [since_congr fun e he => ?_, h.current]
    have hnext := h.le_last
    constructor
    · intro hle
      by_contra hlt
      have hlost := h.lost e he (not_le.mp hlt)
      omega
    · intro hle
      omega

/-! ### Runs -/

/-- The events of some calls, with their times. -/
def eventsOf (ops : List (Op ε)) : List (ℤ × ε) :=
  ops.filterMap fun
    | .addEvent e now => some (now, e)
    | .getStat _ => none

/-- Calls at times that do not decrease, from `start` on. -/
def Ordered (start : ℤ) (ops : List (Op ε)) : Prop := (start :: ops.map Op.now).Pairwise (· ≤ ·)

variable (stat) in
/-- After every event the events of the last three durations have a statistic. -/
def AlwaysCounted (duration : ℤ) (events : List (ℤ × ε)) : Prop :=
  ∀ before now e, before ++ [(now, e)] <+: events → Counted stat duration (before ++ [(now, e)]) now

theorem AlwaysCounted.mono {duration : ℤ} {events events' : List (ℤ × ε)}
    (h : AlwaysCounted stat duration events') (hevents : events <+: events') :
    AlwaysCounted stat duration events :=
  fun before now e hbefore => h before now e (hbefore.trans hevents)

theorem eventsOf_concat (ops : List (Op ε)) (op : Op ε) :
    eventsOf (ops ++ [op]) = eventsOf ops ++ eventsOf [op] := List.filterMap_append

/-- The time of the last of some calls, or `start`. -/
def lastCall (start : ℤ) (ops : List (Op ε)) : ℤ := (ops.getLast?.map Op.now).getD start

theorem lastCall_concat (start : ℤ) (ops : List (Op ε)) (op : Op ε) :
    lastCall start (ops ++ [op]) = op.now := by
  unfold lastCall
  rw [List.getLast?_concat]
  rfl

theorem Ordered.dropLast {start : ℤ} {ops : List (Op ε)} {op : Op ε} (h : Ordered start (ops ++ [op])) :
    Ordered start ops ∧ lastCall start ops ≤ op.now := by
  unfold Ordered at h
  rw [List.map_append, ← List.cons_append, List.pairwise_append] at h
  obtain ⟨hops, -, hlast⟩ := h
  refine ⟨hops, ?_⟩
  unfold lastCall
  cases hop : ops.getLast? with
  | none => exact hlast start List.mem_cons_self op.now (List.mem_singleton_self op.now)
  | some op' =>
    refine hlast op'.now (List.mem_cons_of_mem _ ?_) op.now (List.mem_singleton_self op.now)
    exact List.mem_map_of_mem (List.mem_of_getLast? hop)

/-- In every run over times that do not decrease, each call finds a statistic of all events of the last
`duration` seconds and of none older than three durations. -/
theorem run_recent {duration start : ℤ} (hduration : 1 ≤ duration) (ops : List (Op ε))
    (hordered : Ordered start ops) (hcounted : AlwaysCounted stat duration (eventsOf ops)) :
    ∃ s answers, (machine stat).run (create stat duration start) ops = some (s, answers) ∧
      s.duration = duration ∧ Covers stat s (eventsOf ops) (lastCall start ops) := by
  refine (machine stat).run_history (create stat duration start) (fun _ _ => True)
    (fun ops => Ordered start ops ∧ AlwaysCounted stat duration (eventsOf ops))
    (fun ops _ s => s.duration = duration ∧ Covers stat s (eventsOf ops) (lastCall start ops)) ?_
    ⟨rfl, covers_create hduration start⟩ ?_ ops ⟨hordered, hcounted⟩
    (Machine.along_of_forall _ _ fun _ _ _ => trivial)
  · rintro ops op ⟨hordered, hcounted⟩
    rw [eventsOf_concat] at hcounted
    exact ⟨hordered.dropLast.1, hcounted.mono (List.prefix_append _ _)⟩
  · rintro ops answers s op ⟨hordered, hcounted⟩ - ⟨rfl, h⟩
    have hle := hordered.dropLast.2
    rw [eventsOf_concat] at hcounted
    rw [lastCall_concat, eventsOf_concat]
    cases op with
    | addEvent e now =>
      obtain ⟨s', hadd, hduration', h'⟩ := h.addEvent hle (hcounted _ now e (List.prefix_refl _))
      refine ⟨s', s'.current, ?_, hduration', h'⟩
      show (s.addEvent stat e now).map _ = _
      rw [show s.addEvent stat e now = some s' from hadd]
      rfl
    | getStat now =>
      refine ⟨TimedStat.update stat s now, (TimedStat.update stat s now).current, rfl,
        update_duration s now, ?_⟩
      rw [show eventsOf [Op.getStat now] = ([] : List (ℤ × ε)) from rfl, List.append_nil]
      exact h.update hle

end TimedStat

end TdUtils.Flow
