import TdUtils.Concurrent.ConcurrentHashSteps

/-!
# Concurrent.ConcurrentHashAgreement — all threads see the same values

However the steps of the threads follow one another, all inserts of a key return the same value, and a find that begins
after one of them has returned finds it.  The only check that can fail is that of a migration which overflows.
-/

namespace TdUtils.Concurrent

open Lib Probing ConcurrentHashTable

namespace ConcurrentHashThreads

variable {ι K V : Type} [DecidableEq K] [DecidableEq V] [Fintype ι] [DecidableEq ι] {T : Types K V}
  {s s' : ConcurrentHashMap ι K V} {m m' : Shared K V} {c : ℕ} {t : ι} {key : K} {value : V} {call : Call K V} {at_ : At K V}
  {thread : Thread K V} {answer : Answer K V}

/-! ### Any step -/

/-- A step of a thread in a call. -/
structure Goes (T : Types K V) (t : ι) (s : ConcurrentHashMap ι K V) (call : Call K V) (m : Shared K V)
    (thread : Thread K V) (answer : Answer K V) : Prop where
  keeps : Keeps T t s ⟨m, Function.update s.threads t thread⟩
  inserted : ∀ key value, answer = .inserted key value → Holds T ⟨m, Function.update s.threads t thread⟩ key value
  same_call : ∀ key value at_, thread = .busy (.insert key value) at_ → call = .insert key value

/-- "Migration overflow" is next. -/
def Overflows (m : Shared K V) (at_ : At K V) : Prop :=
  ∃ generation j end_ old, ∃ key : K, ∃ i a, at_ = .moveProbe generation j end_ (old : V) key i ∧ m.migrateTo = some a ∧
    window (m.arrays a).size ≤ i

omit [DecidableEq V] [DecidableEq ι] in
theorem Inv.lt_allocated (h : Inv T s c) {a : ℕ} (ha : a ≤ c) : a < s.shared.allocated := by
  rcases h.shared.stage with hquiet | hmoving
  · rw [hquiet.allocated]
    omega
  · rw [hmoving.allocated]
    omega

omit [DecidableEq V] in
/-- A step within the call. -/
theorem Inv.goes (h : Inv T s c) (hat : s.threads t = .busy call at_) (next : At K V) (hok : AtOk T s.shared c call next)
    (hmigrates : migrates (.busy call next) = migrates (.busy call at_))
    (hcovers : ∀ p, Covers (.busy call next) p ↔ Covers (.busy call at_) p)
    (hhand : hand (.busy call next) = hand (.busy call at_)) : Goes T t s call s.shared (.busy call next) .nothing := by
  have hthread := h.threads t
  rw [hat] at hthread
  have hok : ThreadOk T s.shared c (.busy call next) := ⟨hthread.1, hok⟩
  refine ⟨(h.setThread hat hok hmigrates hcovers hhand).2, fun key value heq => ?_, fun key value next heq => ?_⟩
  · simp at heq
  · exact (Thread.busy.inj heq).1

omit [DecidableEq V] in
/-- The return of a call outside of a migration. -/
theorem Inv.returns (h : Inv T s c) (hat : s.threads t = .busy call at_) (hmigrates : migrates (.busy call at_) = false)
    (hanswer : ∀ key value, answer = .inserted key value → Holds T s key value) :
    Goes T t s call s.shared .idle answer := by
  have hidle : ThreadOk T s.shared c .idle := trivial
  have hcovers : ∀ p, Covers (.idle : Thread K V) p ↔ Covers (.busy call at_) p := fun p =>
    ⟨False.elim, fun hp => absurd (hmigrates.symm.trans (migrates_of_covers hp)) Bool.false_ne_true⟩
  have hhand : hand (.idle : Thread K V) = hand (.busy call at_) := by
    cases hhand : hand (.busy call at_) with
    | none => rfl
    | some x => exact absurd (hmigrates.symm.trans (migrates_of_hand hhand)) Bool.false_ne_true
  have hkeeps := (h.setThread hat hidle hmigrates.symm hcovers hhand).2
  exact ⟨hkeeps, fun key value heq => hkeeps.holds key value (hanswer key value heq), fun _ _ _ heq => by simp at heq⟩

omit [DecidableEq V] in
/-- A step on the memory, and what the thread does with its result. -/
theorem Goes.of_memory (hmemory : Keeps T t s ⟨m, s.threads⟩) {m' : Shared K V}
    (h : Goes T t ⟨m, s.threads⟩ call m' thread answer) : Goes T t s call m' thread answer :=
  ⟨hmemory.trans h.keeps fun _ _ at_ hat => ⟨at_, hat⟩, h.inserted, h.same_call⟩

omit [DecidableEq V] in
theorem Inv.probes (h : Inv T s c) {a i : ℕ} (hat : s.threads t = .busy call (.probe a i)) :
    Goes T t s call s.shared (probeMap T s.shared call a i).1 (probeMap T s.shared call a i).2 := by
  have hthread := h.threads t
  rw [hat] at hthread
  obtain ⟨-, ha, hpast⟩ := hthread
  -- a slot is free, or the window is at its end
  have hnotFound : Goes T t s call s.shared (notFound a call).1 (notFound a call).2 := by
    cases call with
    | insert key value => exact h.goes hat _ trivial rfl (fun _ => Iff.rfl) rfl
    | find key value => exact h.returns hat rfl fun _ _ heq => by simp [notFound] at heq
  unfold probeMap
  dsimp only
  split_ifs with hi hempty hsame
  · cases call with
    | insert key value => exact h.goes hat _ ⟨ha, hpast, hi, key, value, rfl⟩ rfl (fun _ => Iff.rfl) rfl
    | find key value => exact hnotFound
  · exact h.goes hat _ ⟨ha, hsame⟩ rfl (fun _ => Iff.rfl) rfl
  · have hpast' : Past T (s.shared.arrays a) call.key (i + 1) :=
      hpast.succ (table_eq_some_iff.mpr ⟨rfl, hempty⟩) hsame
    exact h.goes hat _ ⟨ha, hpast'⟩ rfl (fun _ => Iff.rfl) rfl
  · exact hnotFound

theorem Inv.claims (h : Inv T s c) {a i : ℕ} (hat : s.threads t = .busy call (.claim a i)) :
    Goes T t s call (claimKey T s.shared a call.key i).1
      (.busy call (if (claimKey T s.shared a call.key i).2 = true then .use a i else .probe a i)) .nothing := by
  have hthread := h.threads t
  rw [hat] at hthread
  obtain ⟨hcall, ha, hpast, hi, -⟩ := hthread
  unfold claimKey
  dsimp only
  by_cases hfree : (s.shared.arrays a).key (slotAt T (s.shared.arrays a) call.key i) = T.emptyKey
  · obtain ⟨hinv, hkeeps⟩ := h.claimed t hcall.1 hpast hi hfree (Or.inl ha)
    rw [if_pos hfree]
    refine .of_memory hkeeps (hinv.goes hat (.use a i) ⟨ha, ?_⟩ rfl (fun _ => Iff.rfl) rfl)
    unfold slotAt
    rw [setKey_size]
    exact setKey_self
  · rw [if_neg hfree]
    exact h.goes hat (.probe a i) ⟨ha, hpast⟩ rfl (fun _ => Iff.rfl) rfl

theorem Inv.uses (h : Inv T s c) {a i : ℕ} (hat : s.threads t = .busy call (.use a i)) :
    Goes T t s call (useValue T s.shared call a i).1 (useValue T s.shared call a i).2.1
      (useValue T s.shared call a i).2.2 := by
  have hthread := h.threads t
  rw [hat] at hthread
  obtain ⟨⟨hne, hvalue⟩, ha, hkey⟩ := hthread
  have hslot := slotAt_lt (T := T) (h.shared.arrays a).size_pos call.key i
  unfold useValue
  cases call with
  | insert key value =>
    dsimp only
    split_ifs with hempty hmigrate
    · obtain ⟨hinv, hkeeps, hholds⟩ := h.stored hat (hvalue key value rfl) ha hslot hkey hne hempty
      refine .of_memory hkeeps (hinv.returns hat rfl fun key' value' heq => ?_)
      obtain ⟨rfl, rfl⟩ := Answer.inserted.inj heq
      exact hholds
    · exact h.goes hat _ trivial rfl (fun _ => Iff.rfl) rfl
    · refine h.returns hat rfl fun key' value' heq => ?_
      obtain ⟨rfl, rfl⟩ := Answer.inserted.inj heq
      exact ⟨hne, ⟨hempty, hmigrate⟩, Or.inl ⟨a, h.lt_allocated ha, _, hkey, rfl⟩⟩
  | find key value =>
    dsimp only
    split_ifs with hmigrate
    · exact h.returns hat rfl fun _ _ heq => by simp at heq
    · have hok : ∀ value, ThreadOk T s.shared c (.busy (.find key value) (.enter (some a))) := fun value =>
        ⟨⟨hne, fun _ _ heq => by simp at heq⟩, trivial⟩
      exact ⟨(h.setThread hat (hok _) rfl (fun _ => Iff.rfl) rfl).2, fun _ _ heq => by simp at heq,
        fun _ _ _ heq => by simp at heq⟩

omit [DecidableEq V] in
theorem Inv.enters (h : Inv T s c) {ptr : Option ℕ} (hat : s.threads t = .busy call (.enter ptr)) :
    ∃ m thread, enterMigrate T s.shared call ptr = some (m, thread) ∧ Goes T t s call m thread .nothing := by
  unfold enterMigrate
  split_ifs with hptr
  · exact ⟨_, _, rfl, h.goes hat _ trivial rfl (fun _ => Iff.rfl) rfl⟩
  · have hptr : s.shared.hashMap = ptr := not_not.mp hptr
    -- what the first or a later thread finds
    obtain ⟨m, hinit, hmoving, hinv, hmemory, hcheck⟩ : ∃ m, initMigrate T s.shared = some m ∧ Moving m c ∧
        Inv T ⟨m, s.threads⟩ c ∧ Keeps T t s ⟨m, s.threads⟩ ∧ ¬ (ptr.isSome = true ∧ m.migrateFrom ≠ ptr) := by
      unfold initMigrate
      rcases h.shared.stage with hquiet | hmoving
      · obtain ⟨hmoving, hinv, hmemory⟩ := h.begun t hquiet
        rw [hquiet.migrateFrom, hquiet.hashMap, if_neg (show ¬ (none : Option ℕ).isSome = true from Bool.false_ne_true),
          if_neg (not_not.mpr hquiet.migrateCnt)]
        refine ⟨_, rfl, hmoving, hinv, hmemory, fun hboth => hboth.2 ?_⟩
        rw [← hptr, hquiet.hashMap]
        rfl
      · rw [hmoving.migrateFrom, if_pos (show (some c).isSome = true from rfl)]
        refine ⟨s.shared, rfl, hmoving, h, .of_same h rfl rfl rfl fun _ => rfl, fun hboth => ?_⟩
        rw [← hptr, hmoving.hashMap] at hboth
        exact Bool.false_ne_true hboth.1
    rw [hinit, Option.bind_eq_bind, Option.bind_some, if_neg hcheck]
    refine ⟨_, _, rfl, .of_memory hmemory ⟨(hinv.entered hat m.migrateGeneration hmoving).2, ?_, ?_⟩⟩
    · exact fun _ _ heq => by simp at heq
    · exact fun _ _ _ heq => (Thread.busy.inj heq).1

omit [DecidableEq V] in
/-- A thread that moves a value looks for the slot of its key. -/
theorem Inv.probesTarget (h : Inv T s c) {generation j end_ i : ℕ} {old : V}
    (hat : s.threads t = .busy call (.moveProbe generation j end_ old key i)) :
    (∃ next, probeTarget T s.shared generation j end_ old key i = some next ∧
      Goes T t s call s.shared (.busy call next) .nothing) ∨
      Overflows s.shared (.moveProbe generation j end_ old key i) := by
  have hmoving := h.moving_of_migrates (t := t) (by rw [hat]; rfl)
  have hthread := h.threads t
  rw [hat] at hthread
  obtain ⟨-, hne, hkey, hpast⟩ := hthread
  unfold probeTarget
  rw [hmoving.migrateTo, Option.bind_eq_bind, Option.bind_some]
  dsimp only
  by_cases hi : i < window (s.shared.arrays (c + 1)).size
  · refine Or.inl ?_
    rw [if_pos hi]
    split_ifs with hempty hsame
    · exact ⟨_, rfl, h.goes hat _ ⟨hne, hkey, hpast, hi⟩ rfl (fun _ => Iff.rfl) rfl⟩
    · exact ⟨_, rfl, h.goes hat _ ⟨hne, hkey, hsame⟩ rfl (fun _ => Iff.rfl) rfl⟩
    · exact ⟨_, rfl, h.goes hat _ ⟨hne, hkey, hpast.succ (table_eq_some_iff.mpr ⟨rfl, hempty⟩) hsame⟩ rfl
        (fun _ => Iff.rfl) rfl⟩
  · exact Or.inr ⟨_, _, _, _, _, _, _, rfl, hmoving.migrateTo, not_lt.mp hi⟩

theorem Inv.claimsTarget (h : Inv T s c) {generation j end_ i : ℕ} {old : V}
    (hat : s.threads t = .busy call (.moveClaim generation j end_ old key i)) :
    Goes T t s call (claimKey T s.shared (c + 1) key i).1
      (.busy call (if (claimKey T s.shared (c + 1) key i).2 = true then .moveStore generation j end_ old key i
        else .moveProbe generation j end_ old key i)) .nothing := by
  have hmoving := h.moving_of_migrates (t := t) (by rw [hat]; rfl)
  have hthread := h.threads t
  rw [hat] at hthread
  obtain ⟨-, hne, hkey, hpast, hi⟩ := hthread
  have htaken := ((h.moves hmoving).hands t j old (by rw [hat]; rfl)).2.1
  unfold claimKey
  dsimp only
  by_cases hfree : (s.shared.arrays (c + 1)).key (slotAt T (s.shared.arrays (c + 1)) key i) = T.emptyKey
  · obtain ⟨hinv, hkeeps⟩ := h.claimed t hne hpast hi hfree (Or.inr ⟨rfl, hmoving, j, hkey, htaken⟩)
    rw [if_pos hfree]
    refine .of_memory hkeeps (hinv.goes hat (.moveStore generation j end_ old key i) ⟨hne, ?_, ?_⟩ rfl (fun _ => Iff.rfl) rfl)
    · rw [setKey_arrays_ne (Nat.succ_ne_self c).symm]
      exact hkey
    · unfold slotAt
      rw [setKey_size]
      exact setKey_self
  · rw [if_neg hfree]
    exact h.goes hat (.moveProbe generation j end_ old key i) ⟨hne, hkey, hpast⟩ rfl (fun _ => Iff.rfl) rfl

/-- Every step goes through, unless a migration overflows, and keeps what holds. -/
theorem Inv.runs (h : Inv T s c) (hat : s.threads t = .busy call at_) :
    (∃ m thread answer, run T s.shared call at_ = some (m, thread, answer) ∧ Goes T t s call m thread answer) ∨
      Overflows s.shared at_ := by
  have hmoving : migrates (.busy call at_) = true → Moving s.shared c := fun hm =>
    h.moving_of_migrates (t := t) (by rw [hat]; exact hm)
  have hsame : ∀ {next : At K V} (key : K) (value : V) (at' : At K V),
      Thread.busy call next = .busy (.insert key value) at' → call = .insert key value :=
    fun _ _ _ heq => (Thread.busy.inj heq).1
  have hnothing : ∀ {P : K → V → Prop} (key : K) (value : V), (.nothing : Answer K V) = .inserted key value → P key value :=
    fun _ _ heq => by simp at heq
  cases at_ with
  | start =>
    rcases h.shared.stage with hquiet | hmoving
    · refine Or.inl ⟨_, _, _, ?_, h.goes hat (.probe c 0) ⟨le_rfl, passed_zero⟩ rfl (fun _ => Iff.rfl) rfl⟩
      unfold run
      rw [hquiet.hashMap]
    · refine Or.inl ⟨_, _, _, ?_, h.goes hat (.enter none) trivial rfl (fun _ => Iff.rfl) rfl⟩
      unfold run
      rw [hmoving.hashMap]
  | probe a i => exact Or.inl ⟨_, _, _, rfl, h.probes hat⟩
  | claim a i => exact Or.inl ⟨_, _, _, rfl, h.claims hat⟩
  | use a i => exact Or.inl ⟨_, _, _, rfl, h.uses hat⟩
  | enter ptr =>
    obtain ⟨m, thread, hrun, hgoes⟩ := h.enters hat
    refine Or.inl ⟨m, thread, .nothing, ?_, hgoes⟩
    change (enterMigrate T s.shared call ptr).bind _ = _
    rw [hrun]
    rfl
  | create generation => exact Or.inl ⟨_, _, _, rfl, (h.created hat).2, hnothing, hsame⟩
  | take generation j end_ =>
    by_cases hj : j < end_
    · refine Or.inl ⟨_, _, _, ?_, (h.took hat hj).2, hnothing, hsame⟩
      change (if j < end_ then s.shared.migrateFrom.bind _ else _) = _
      rw [if_pos hj, (hmoving rfl).migrateFrom]
      rfl
    · refine Or.inl ⟨_, _, _, if_neg hj, h.goes hat _ trivial rfl (fun p => ⟨False.elim, fun hp => ?_⟩) rfl⟩
      have hp : j ≤ p ∧ p < end_ := hp
      omega
  | load generation j end_ old =>
    have hne := (((h.moves (hmoving rfl)).hands t j old (by rw [hat]; rfl))).2.2.2.1
    refine Or.inl ⟨_, _, _, ?_, h.goes hat (.moveProbe generation j end_ old _ 0) ⟨hne, rfl, passed_zero⟩ rfl
      (fun _ => Iff.rfl) rfl⟩
    change s.shared.migrateFrom.bind _ = _
    rw [(hmoving rfl).migrateFrom]
    exact if_neg hne
  | moveProbe generation j end_ old key i =>
    rcases h.probesTarget hat with ⟨next, hrun, hgoes⟩ | hover
    · refine Or.inl ⟨_, _, _, ?_, hgoes⟩
      change (probeTarget T s.shared generation j end_ old key i).bind _ = _
      rw [hrun]
      rfl
    · exact Or.inr hover
  | moveClaim generation j end_ old key i =>
    refine Or.inl ⟨_, _, _, ?_, h.claimsTarget hat⟩
    change s.shared.migrateTo.bind _ = _
    rw [(hmoving rfl).migrateTo]
    rfl
  | moveStore generation j end_ old key i =>
    refine Or.inl ⟨_, _, _, ?_, (h.put hat).2, hnothing, hsame⟩
    change s.shared.migrateTo.bind _ = _
    rw [(hmoving rfl).migrateTo]
    rfl
  | leave generation =>
    obtain ⟨hmoving', hinv, hkeeps, hdone⟩ := h.left hat
    refine Or.inl ⟨_, _, _, rfl, ?_, hnothing, hsame⟩
    unfold leaveMigrate
    dsimp only
    split_ifs with hcnt
    · exact hkeeps.trans (hinv.finished t hmoving' hcnt hdone).2 fun key value next heq => by
        dsimp only at heq
        rw [Function.update_self] at heq
        exact ⟨_, hat.trans (congrArg (Thread.busy · _) (Thread.busy.inj heq).1)⟩
    · exact hkeeps
  | wait generation =>
    refine Or.inl ⟨_, _, _, rfl, ?_⟩
    split_ifs with hgeneration
    · exact h.goes hat _ trivial rfl (fun _ => Iff.rfl) rfl
    · exact h.goes hat _ trivial rfl (fun _ => Iff.rfl) rfl

theorem run_overflows (hover : Overflows m at_) : run T m call at_ = none := by
  obtain ⟨generation, j, end_, old, key, i, a, rfl, hto, hover⟩ := hover
  have hprobe : probeTarget T m generation j end_ old key i = none := by
    unfold probeTarget
    rw [hto, Option.bind_eq_bind, Option.bind_some]
    exact if_neg (not_lt.mpr hover)
  change (probeTarget T m generation j end_ old key i).bind _ = none
  rw [hprobe]
  rfl

theorem Inv.goes_of_run (h : Inv T s c) (hat : s.threads t = .busy call at_)
    (hrun : run T s.shared call at_ = some (m, thread, answer)) : Goes T t s call m thread answer := by
  rcases h.runs hat with ⟨m', thread', answer', hrun', hgoes⟩ | hover
  · obtain ⟨rfl, rfl, rfl⟩ : m' = m ∧ thread' = thread ∧ answer' = answer := by
      simpa using hrun'.symm.trans hrun
    exact hgoes
  · exact absurd (hrun.symm.trans (run_overflows hover)) (Option.some_ne_none _)

/-! ### A find that begins late enough -/

/-- The array in which a thread looks for its slot. -/
def looksAt : At K V → Option ℕ
  | .probe a _ | .claim a _ | .use a _ => some a
  | _ => none

/-- A slot of the array has the key and has got a value. -/
def Sees (T : Types K V) (m : Shared K V) (a : ℕ) (key : K) : Prop :=
  a < m.allocated ∧ ∃ p, (m.arrays a).key p = key ∧ (m.arrays a).value p ≠ T.emptyValue

/-- A thread looks for a key that has a value, and not in an array without it. -/
structure Finding (T : Types K V) (s : ConcurrentHashMap ι K V) (t : ι) (key : K) (value : V) : Prop where
  holds : Holds T s key value
  finds : ∃ old at_, s.threads t = .busy (.find key old) at_ ∧ ∀ a, looksAt at_ = some a → Sees T s.shared a key

omit [DecidableEq V] [DecidableEq ι] in
theorem Keeps.sees {t : ι} (h : Keeps T t s s') {a : ℕ} (hne : key ≠ T.emptyKey) (hsees : Sees T s.shared a key) :
    Sees T s'.shared a key := by
  obtain ⟨ha, p, hkey, hvalue⟩ := hsees
  have hgrows := h.grows a ha
  exact ⟨ha.trans_le h.allocated_le, p, (hgrows.key_eq p (hkey.trans_ne hne)).trans hkey, hgrows.value_ne p hvalue⟩

omit [DecidableEq V] [DecidableEq ι] in
theorem Finding.keeps (h : Finding T s t key value) {t' : ι} (hkeeps : Keeps T t' s s')
    (hsame : s'.threads t = s.threads t) : Finding T s' t key value := by
  obtain ⟨hholds, old, at_, hat, hlooks⟩ := h
  exact ⟨hkeeps.holds _ _ hholds, old, at_, hsame.trans hat, fun a ha => hkeeps.sees hholds.1 (hlooks a ha)⟩

/-- A thread that does not look for a slot goes on with its call, and does not begin to look. -/
theorem run_inside (hstart : at_ ≠ .start) (hlooks : looksAt at_ = none)
    (hrun : run T m call at_ = some (m', thread, answer)) :
    answer = .nothing ∧ ∃ next, thread = .busy call next ∧ looksAt next = none := by
  cases at_ with
  | start => exact absurd rfl hstart
  | probe => simp [looksAt] at hlooks
  | claim => simp [looksAt] at hlooks
  | use => simp [looksAt] at hlooks
  | enter ptr =>
    simp only [run, enterMigrate, Option.bind_eq_bind] at hrun
    split_ifs at hrun with hptr
    · cases hrun
      exact ⟨rfl, _, rfl, rfl⟩
    · obtain ⟨⟨m₁, thread₁⟩, henter, hrun⟩ := Option.bind_eq_some_iff.mp hrun
      obtain ⟨m₂, -, henter⟩ := Option.bind_eq_some_iff.mp henter
      split_ifs at henter
      cases henter
      cases hrun
      exact ⟨rfl, _, rfl, rfl⟩
  | create generation =>
    cases hrun
    refine ⟨rfl, _, rfl, ?_⟩
    split_ifs <;> rfl
  | take generation j end_ =>
    simp only [run, Option.bind_eq_bind] at hrun
    split_ifs at hrun with hj
    · obtain ⟨a, -, hrun⟩ := Option.bind_eq_some_iff.mp hrun
      cases hrun
      refine ⟨rfl, _, rfl, ?_⟩
      split_ifs <;> rfl
    · cases hrun
      exact ⟨rfl, _, rfl, rfl⟩
  | load generation j end_ old =>
    obtain ⟨a, -, hrun⟩ := Option.bind_eq_some_iff.mp hrun
    dsimp only at hrun
    split_ifs at hrun
    cases hrun
    exact ⟨rfl, _, rfl, rfl⟩
  | moveProbe generation j end_ old key i =>
    obtain ⟨next, hnext, hrun⟩ := Option.bind_eq_some_iff.mp hrun
    obtain ⟨a, -, hnext⟩ := Option.bind_eq_some_iff.mp hnext
    cases hrun
    refine ⟨rfl, next, rfl, ?_⟩
    dsimp only at hnext
    split_ifs at hnext <;> cases hnext <;> rfl
  | moveClaim generation j end_ old key i =>
    obtain ⟨a, -, hrun⟩ := Option.bind_eq_some_iff.mp hrun
    cases hrun
    refine ⟨rfl, _, rfl, ?_⟩
    split_ifs <;> rfl
  | moveStore generation j end_ old key i =>
    obtain ⟨a, -, hrun⟩ := Option.bind_eq_some_iff.mp hrun
    cases hrun
    exact ⟨rfl, _, rfl, rfl⟩
  | leave generation =>
    cases hrun
    exact ⟨rfl, _, rfl, rfl⟩
  | wait generation =>
    cases hrun
    refine ⟨rfl, _, rfl, ?_⟩
    split_ifs <;> rfl

/-- It goes on to look for the key, or returns its value. -/
theorem Finding.runs (h : Finding T s t key value) (hinv : Inv T s c) (hat : s.threads t = .busy call at_)
    (hrun : run T s.shared call at_ = some (m, thread, answer)) (hgoes : Goes T t s call m thread answer) :
    answer = .nothing ∧ Finding T ⟨m, Function.update s.threads t thread⟩ t key value ∨ answer = .found key value := by
  obtain ⟨hholds, old, at', hat', hlooks⟩ := h
  obtain ⟨rfl, rfl⟩ := Thread.busy.inj (hat.symm.trans hat')
  have hthread := hinv.threads t
  rw [hat] at hthread
  -- how the thread goes on
  have hnext : ∀ {old' : V} {next : At K V}, thread = .busy (.find key old') next →
      (∀ a, looksAt next = some a → Sees T s.shared a key) →
      Finding T ⟨m, Function.update s.threads t thread⟩ t key value := fun {old'} {next} heq hsees =>
    ⟨hgoes.keeps.holds _ _ hholds, old', next, by rw [heq]; exact Function.update_self _ _ _,
      fun a ha => hgoes.keeps.sees hholds.1 (hsees a ha)⟩
  by_cases hinside : at_ ≠ .start ∧ looksAt at_ = none
  · obtain ⟨rfl, next, hthread', hnone⟩ := run_inside hinside.1 hinside.2 hrun
    exact Or.inl ⟨rfl, hnext hthread' fun a ha => absurd (hnone.symm.trans ha) (Option.some_ne_none a).symm⟩
  cases at_ with
  | start =>
    rcases hinv.shared.stage with hquiet | hmoving
    · unfold run at hrun
      rw [hquiet.hashMap] at hrun
      cases hrun
      refine Or.inl ⟨rfl, hnext rfl fun a ha => ?_⟩
      obtain rfl := Option.some.inj ha
      rcases hinv.holds_cases hholds with ⟨p, hkey, hvalue⟩ | ⟨hmoving, -⟩
      · exact ⟨hinv.lt_allocated le_rfl, p, hkey, hvalue.trans_ne hholds.2.1.1⟩
      · exact absurd hquiet (not_quiet_of_moving hmoving)
    · unfold run at hrun
      rw [hmoving.hashMap] at hrun
      cases hrun
      exact Or.inl ⟨rfl, hnext rfl fun a ha => by simp [looksAt] at ha⟩
  | probe a i =>
    obtain ⟨ha, p, hkey, hvalue⟩ := hlooks a rfl
    obtain ⟨-, -, hpast⟩ := hthread
    have hok := hinv.shared.arrays a
    have htable : table T (s.shared.arrays a) p = some key := table_eq_some_iff.mpr ⟨hkey, hholds.1⟩
    obtain ⟨rfl, hprobe⟩ := Prod.mk.inj (Option.some.inj hrun)
    unfold probeMap at hprobe
    dsimp only at hprobe
    split_ifs at hprobe with hi hempty hsame
    · exact absurd htable (hok.probed.absent hpast (table_eq_none_iff.mpr hempty) p)
    · obtain ⟨hthread', rfl⟩ := Prod.mk.inj hprobe
      exact Or.inl ⟨rfl, hnext hthread'.symm fun a' ha' => hlooks a' ha'⟩
    · obtain ⟨hthread', rfl⟩ := Prod.mk.inj hprobe
      exact Or.inl ⟨rfl, hnext hthread'.symm fun a' ha' => hlooks a' ha'⟩
    · exact absurd htable (hok.probed.absent_of_full (hpast.mono (not_lt.mp hi)) p)
  | claim a i =>
    obtain ⟨-, -, -, -, key', value', heq⟩ := hthread
    exact absurd heq (by simp)
  | use a i =>
    obtain ⟨ha, p, hkey, hvalue⟩ := hlooks a rfl
    obtain ⟨-, -, hslot⟩ := hthread
    obtain rfl := (hinv.shared.arrays a).unique (hkey.trans_ne hholds.1) (hslot.trans hkey.symm)
    have huse : useValue T s.shared (.find key old) a i = (m, thread, answer) := Option.some.inj hrun
    unfold useValue at huse
    dsimp only at huse
    split_ifs at huse with hmigrate
    · obtain ⟨-, heq⟩ := Prod.mk.inj huse
      obtain ⟨-, rfl⟩ := Prod.mk.inj heq
      refine Or.inr (congrArg (Answer.found key) ?_)
      exact hinv.holds_unique ⟨hholds.1, ⟨hvalue, hmigrate⟩, Or.inl ⟨a, ha, _, hkey, rfl⟩⟩ hholds
    · obtain ⟨rfl, heq⟩ := Prod.mk.inj huse
      obtain ⟨hthread', rfl⟩ := Prod.mk.inj heq
      exact Or.inl ⟨rfl, hnext hthread'.symm fun a' ha' => by simp [looksAt] at ha'⟩
  | _ => exact absurd ⟨by simp, rfl⟩ hinside

omit [DecidableEq ι] in
/-- Any find goes on with its default or with the value of a migration, or returns one of them, a value of the key or the
empty value. -/
theorem Inv.finds (hinv : Inv T s c) {old : V} (hat : s.threads t = .busy (.find key old) at_)
    (hrun : run T s.shared (.find key old) at_ = some (m, thread, answer)) :
    answer = .nothing ∧ (∃ old' next, thread = .busy (.find key old') next ∧ (old' = old ∨ old' = T.migrateValue)) ∨
      ∃ result, answer = .found key result ∧ (result = old ∨ result = T.emptyValue ∨ Holds T s key result) := by
  have hthread := hinv.threads t
  rw [hat] at hthread
  by_cases hinside : at_ ≠ .start ∧ looksAt at_ = none
  · obtain ⟨rfl, next, hnext, -⟩ := run_inside hinside.1 hinside.2 hrun
    exact Or.inl ⟨rfl, old, next, hnext, Or.inl rfl⟩
  cases at_ with
  | start =>
    unfold run at hrun
    cases hmap : s.shared.hashMap with
    | none =>
      rw [hmap] at hrun
      cases hrun
      exact Or.inl ⟨rfl, old, _, rfl, Or.inl rfl⟩
    | some a =>
      rw [hmap] at hrun
      cases hrun
      exact Or.inl ⟨rfl, old, _, rfl, Or.inl rfl⟩
  | probe a i =>
    obtain ⟨rfl, hprobe⟩ := Prod.mk.inj (Option.some.inj hrun)
    unfold probeMap at hprobe
    dsimp only at hprobe
    split_ifs at hprobe with hi hempty hsame
    · obtain ⟨-, rfl⟩ := Prod.mk.inj hprobe
      exact Or.inr ⟨old, rfl, Or.inl rfl⟩
    · obtain ⟨rfl, rfl⟩ := Prod.mk.inj hprobe
      exact Or.inl ⟨rfl, old, _, rfl, Or.inl rfl⟩
    · obtain ⟨rfl, rfl⟩ := Prod.mk.inj hprobe
      exact Or.inl ⟨rfl, old, _, rfl, Or.inl rfl⟩
    · obtain ⟨-, rfl⟩ := Prod.mk.inj hprobe
      exact Or.inr ⟨old, rfl, Or.inl rfl⟩
  | claim a i =>
    obtain ⟨-, -, -, -, key', value', heq⟩ := hthread
    exact absurd heq (by simp)
  | use a i =>
    obtain ⟨⟨hne, -⟩, ha, hslot⟩ := hthread
    have huse : useValue T s.shared (.find key old) a i = (m, thread, answer) := Option.some.inj hrun
    unfold useValue at huse
    dsimp only at huse
    split_ifs at huse with hmigrate
    · obtain ⟨-, heq⟩ := Prod.mk.inj huse
      obtain ⟨-, rfl⟩ := Prod.mk.inj heq
      refine Or.inr ⟨_, rfl, Or.inr ?_⟩
      by_cases hempty : (s.shared.arrays a).value (slotAt T (s.shared.arrays a) key i) = T.emptyValue
      · exact Or.inl hempty
      · exact Or.inr ⟨hne, ⟨hempty, hmigrate⟩, Or.inl ⟨a, hinv.lt_allocated ha, _, hslot, rfl⟩⟩
    · obtain ⟨-, heq⟩ := Prod.mk.inj huse
      obtain ⟨rfl, rfl⟩ := Prod.mk.inj heq
      exact Or.inl ⟨rfl, _, _, rfl, Or.inr (not_not.mp hmigrate)⟩
  | _ => exact absurd ⟨by simp, rfl⟩ hinside

/-! ### All runs -/

/-- An insert of the key has returned the value. -/
def Inserted (events : List (Event ι K V × Answer K V)) (key : K) (value : V) : Prop :=
  ∃ t, (.step t, .inserted key value) ∈ events

/-- An insert of the key has begun with the value. -/
def Offered (events : List (Event ι K V × Answer K V)) (key : K) (value : V) : Prop :=
  ∃ t, (.call t (.insert key value), .called) ∈ events

/-- No insert is called with the empty value. -/
def Proper (T : Types K V) (events : List (Event ι K V × Answer K V)) : Prop :=
  ∀ e ∈ events, ∀ t key value, e.1 = .call t (.insert key value) → value ≠ T.emptyValue

/-- What the threads have to do with the past. -/
structure Agrees (T : Types K V) (events : List (Event ι K V × Answer K V)) (s : ConcurrentHashMap ι K V) : Prop where
  inv : ∃ c, Inv T s c
  threads : ∀ t key value at_, s.threads t = .busy (.insert key value) at_ → Offered events key value
  offered : ∀ key value, Holds T s key value → Offered events key value
  inserted : ∀ key value, Inserted events key value → Holds T s key value

section Runs

variable {events : List (Event ι K V × Answer K V)} {event : Event ι K V}

omit [DecidableEq K] [DecidableEq V] [Fintype ι] [DecidableEq ι] in
theorem Offered.concat {e : Event ι K V × Answer K V} (h : Offered events key value) : Offered (events ++ [e]) key value :=
  h.imp fun _ ht => List.mem_append_left _ ht

omit [DecidableEq V] [DecidableEq ι] in
theorem inv_start : Inv T (start T ι) 0 where
  shared := {
    arrays := fun _ => arrayOk_newArray Nat.one_pos
    old := fun _ h => absurd h (Nat.not_lt_zero _)
    stage := Or.inl ⟨rfl, rfl, rfl, rfl, rfl⟩
    quiet_value := fun _ _ => T.values_ne
    moving_value := fun _ _ => T.values_ne }
  threads := fun _ => trivial
  count := tally_eq_zero fun _ => rfl
  moves := fun h => absurd h.hashMap (Option.some_ne_none 0)

omit [DecidableEq V] [DecidableEq ι] in
theorem agrees_start : Agrees T [] (start T ι) where
  inv := ⟨0, inv_start⟩
  threads _ _ _ _ h := by simp [start] at h
  offered key value h := by
    obtain ⟨-, hstored, ⟨a, -, p, -, hvalue⟩ | ⟨t, j, a, hj, -, -⟩⟩ := h
    · exact absurd hvalue.symm hstored.1
    · simp [start, hand] at hj
  inserted _ _ h := by simp [Inserted] at h

omit [DecidableEq V] in
/-- A thread without a call gets one. -/
theorem Inv.called (h : Inv T s c) (hidle : s.threads t = .idle) (haccepts : Accepts T call)
    (hvalue : ∀ key value, call = .insert key value → value ≠ T.emptyValue) :
    Keeps T t s ⟨s.shared, Function.update s.threads t (.busy call .start)⟩ := by
  have hok : ThreadOk T s.shared c (.busy call .start) := by
    refine ⟨⟨?_, fun key value heq => ?_⟩, trivial⟩
    · cases call with
      | insert key value => exact haccepts.1
      | find key value => exact haccepts
    · subst heq
      exact ⟨hvalue key value rfl, haccepts.2⟩
  exact (h.setThread hidle hok rfl (fun _ => Iff.rfl) rfl).2

omit [Fintype ι] in
/-- What a step does to a thread. -/
theorem step_cases (hstep : step T s (.step t) = some (s', answer)) :
    s.threads t = .idle ∧ s' = s ∧ answer = .nothing ∨ ∃ call at_ m thread, s.threads t = .busy call at_ ∧
      run T s.shared call at_ = some (m, thread, answer) ∧ s' = ⟨m, Function.update s.threads t thread⟩ := by
  unfold step at hstep
  dsimp only at hstep
  cases hat : s.threads t with
  | idle =>
    rw [hat] at hstep
    cases hstep
    exact Or.inl ⟨rfl, rfl, rfl⟩
  | busy call at_ =>
    rw [hat] at hstep
    obtain ⟨⟨m, thread, answer'⟩, hrun, hstep⟩ := Option.bind_eq_some_iff.mp hstep
    cases hstep
    exact Or.inr ⟨call, at_, m, thread, rfl, hrun, rfl⟩

omit [Fintype ι] in
/-- What a call does to a thread. -/
theorem call_cases (hstep : step T s (.call t call) = some (s', answer)) :
    s' = s ∧ answer = .nothing ∨ s.threads t = .idle ∧ Accepts T call ∧ answer = .called ∧
      s' = ⟨s.shared, Function.update s.threads t (.busy call .start)⟩ := by
  unfold step at hstep
  dsimp only at hstep
  cases hat : s.threads t with
  | idle =>
    rw [hat] at hstep
    dsimp only at hstep
    split_ifs at hstep with haccepts
    cases hstep
    exact Or.inr ⟨rfl, haccepts, rfl, rfl⟩
  | busy call' at_ =>
    rw [hat] at hstep
    cases hstep
    exact Or.inl ⟨rfl, rfl⟩

theorem Agrees.step (h : Agrees T events s) (hstep : ConcurrentHashThreads.step T s event = some (s', answer))
    (hvalue : ∀ t key value, event = .call t (.insert key value) → value ≠ T.emptyValue) :
    Agrees T (events ++ [(event, answer)]) s' ∧ ∀ key value, Holds T s key value → Holds T s' key value := by
  obtain ⟨c, hinv⟩ := h.inv
  have hinserted : ∀ {key value}, Inserted (events ++ [(event, answer)]) key value →
      Inserted events key value ∨ ∃ t, event = .step t ∧ answer = .inserted key value := by
    rintro key value ⟨t, ht⟩
    rcases List.mem_append.mp ht with ht | ht
    · exact Or.inl ⟨t, ht⟩
    · obtain ⟨rfl, rfl⟩ := Prod.mk.inj (List.mem_singleton.mp ht)
      exact Or.inr ⟨t, rfl, rfl⟩
  -- what follows from the calls of the threads behind the step
  have hkept : ∀ t, Keeps T t s s' → (∀ key value at_, s'.threads t = .busy (.insert key value) at_ →
      Offered (events ++ [(event, answer)]) key value) → (∀ t', t' ≠ t → s'.threads t' = s.threads t') →
      (∀ t key value, event = .step t → answer = .inserted key value → Holds T s' key value) →
      Agrees T (events ++ [(event, answer)]) s' ∧ ∀ key value, Holds T s key value → Holds T s' key value := by
    intro t hkeeps hthread hother hholds
    refine ⟨⟨hkeeps.inv, fun t' key value at_ hat => ?_, fun key value hvalue => ?_, fun key value hins => ?_⟩,
      hkeeps.holds⟩
    · by_cases ht : t' = t
      · exact hthread key value at_ (ht ▸ hat)
      · exact (h.threads t' key value at_ ((hother t' ht).symm.trans hat)).concat
    · rcases hkeeps.origin key value hvalue with hold | ⟨at_, hat⟩
      · exact (h.offered key value hold).concat
      · exact (h.threads t key value at_ hat).concat
    · rcases hinserted hins with hold | ⟨t', hevent, hanswer⟩
      · exact hkeeps.holds key value (h.inserted key value hold)
      · exact hholds t' key value hevent hanswer
  cases event with
  | call t call =>
    have hno : ∀ t' key value, Event.call t call = .step t' → answer = .inserted key value → Holds T s' key value :=
      fun _ _ _ heq => by simp at heq
    rcases call_cases hstep with ⟨rfl, -⟩ | ⟨hidle, haccepts, rfl, rfl⟩
    · exact hkept t (.of_same hinv rfl rfl rfl fun _ => rfl) (fun key value at_ hat => (h.threads t key value at_ hat).concat)
        (fun _ _ => rfl) hno
    · refine hkept t (hinv.called hidle haccepts fun key value heq => hvalue t key value (congrArg _ heq))
        (fun key value at_ hat => ?_) (fun t' ht => Function.update_of_ne ht _ _) hno
      obtain ⟨rfl, -⟩ := Thread.busy.inj ((Function.update_self t _ s.threads).symm.trans hat)
      exact ⟨t, List.mem_append_right _ (List.mem_singleton_self _)⟩
  | step t =>
    rcases step_cases hstep with ⟨-, rfl, rfl⟩ | ⟨call, at_, m, thread, hat, hrun, rfl⟩
    · exact hkept t (.of_same hinv rfl rfl rfl fun _ => rfl) (fun key value at_ hat => (h.threads t key value at_ hat).concat)
        (fun _ _ => rfl) fun _ _ _ _ heq => by simp at heq
    · have hgoes := hinv.goes_of_run hat hrun
      refine hkept t hgoes.keeps (fun key value at' hat' => ?_) (fun t' ht => Function.update_of_ne ht _ _)
        fun _ key value _ hanswer => hgoes.inserted key value hanswer
      have hcall := hgoes.same_call key value at' ((Function.update_self t thread s.threads).symm.trans hat')
      subst hcall
      exact (h.threads t key value at_ hat).concat

theorem agrees_of_history (hhistory : (machine T ι).History (start T ι) events s) (hproper : Proper T events) :
    Agrees T events s := by
  refine Machine.history_of_step (P := fun events s => Proper T events → Agrees T events s) (fun _ => agrees_start)
    (fun events s event s' answer ih hstep hproper => ?_) events hhistory hproper
  exact ((ih fun e he => hproper e (List.mem_append_left _ he)).step hstep fun t key value heq =>
    hproper (event, answer) (List.mem_append_right _ (List.mem_singleton_self _)) t key value heq).1

/-- What holds and what has happened stays. -/
theorem Agrees.history {rest : List (Event ι K V × Answer K V)} : ∀ {events : List (Event ι K V × Answer K V)}
    {s s' : ConcurrentHashMap ι K V}, Agrees T events s → (machine T ι).History s rest s' → Proper T rest →
    Agrees T (events ++ rest) s' ∧ ∀ key value, Holds T s key value → Holds T s' key value := by
  induction rest with
  | nil =>
    intro events s s' hagrees hhistory _
    cases hhistory
    exact ⟨by rwa [List.append_nil], fun _ _ h => h⟩
  | cons e rest ih =>
    intro events s s' hagrees hhistory hproper
    obtain ⟨event, answer⟩ := e
    obtain ⟨s₁, hstep, hhistory⟩ := Machine.history_cons_inv hhistory
    obtain ⟨hagrees₁, hholds₁⟩ := hagrees.step hstep (hproper (event, answer) List.mem_cons_self)
    obtain ⟨hagrees', hholds⟩ := ih hagrees₁ hhistory fun e he => hproper e (List.mem_cons_of_mem _ he)
    rw [List.append_assoc] at hagrees'
    exact ⟨hagrees', fun key value h => hholds key value (hholds₁ key value h)⟩

/-- A property of a find holds until it returns, if no step of another thread ends it and no step of its own but the
return. -/
theorem pending_history {Q : ConcurrentHashMap ι K V → Prop}
    (hfind : ∀ s, Q s → ∃ old at_, s.threads t = .busy (.find key old) at_)
    (hother : ∀ s s' t', Q s → Keeps T t' s s' → s'.threads t = s.threads t → Q s')
    (hown : ∀ s c call at_ m thread answer, Q s → Inv T s c → s.threads t = .busy call at_ →
      run T s.shared call at_ = some (m, thread, answer) →
      Q ⟨m, Function.update s.threads t thread⟩ ∨ ∃ result, answer = .found key result)
    {middle : List (Event ι K V × Answer K V)} : ∀ {events : List (Event ι K V × Answer K V)}
    {s s' : ConcurrentHashMap ι K V}, Agrees T events s → Q s → (machine T ι).History s middle s' → Proper T middle →
    (∀ e ∈ middle, ∀ key value, e ≠ (.step t, .found key value)) → Q s' := by
  induction middle with
  | nil =>
    intro events s s' _ hQ hhistory _ _
    cases hhistory
    exact hQ
  | cons e middle ih =>
    intro events s s' hagrees hQ hhistory hproper hnot
    obtain ⟨event, answer⟩ := e
    obtain ⟨s₁, hstep, hhistory⟩ := Machine.history_cons_inv hhistory
    obtain ⟨hnote, hnot⟩ := List.forall_mem_cons.mp hnot
    have hvalue : ∀ t key value, event = .call t (.insert key value) → value ≠ T.emptyValue :=
      hproper (event, answer) List.mem_cons_self
    obtain ⟨hagrees₁, -⟩ := hagrees.step hstep hvalue
    refine ih hagrees₁ ?_ hhistory (fun e he => hproper e (List.mem_cons_of_mem _ he)) hnot
    obtain ⟨c, hinv⟩ := hagrees.inv
    obtain ⟨old, at_, hat⟩ := hfind s hQ
    cases event with
    | call t' call =>
      rcases call_cases hstep with ⟨rfl, -⟩ | ⟨hidle, haccepts, -, rfl⟩
      · exact hQ
      · have hne : t ≠ t' := by
          rintro rfl
          exact absurd (hat.symm.trans hidle) (by simp)
        exact hother s _ t' hQ (hinv.called hidle haccepts fun key value heq => hvalue t' key value (congrArg _ heq))
          (Function.update_of_ne hne _ _)
    | step t' =>
      rcases step_cases hstep with ⟨-, rfl, -⟩ | ⟨call, at', m, thread, hat', hrun, rfl⟩
      · exact hQ
      · by_cases ht : t' = t
        · subst ht
          rcases hown s c call at' m thread answer hQ hinv hat' hrun with hQ' | ⟨result, rfl⟩
          · exact hQ'
          · exact absurd rfl (hnote key result)
        · exact hother s _ t' hQ (hinv.goes_of_run hat' hrun).keeps (Function.update_of_ne (Ne.symm ht) _ _)

theorem Finding.history {middle : List (Event ι K V × Answer K V)} (hfinding : Finding T s t key value)
    (hagrees : Agrees T events s) (hhistory : (machine T ι).History s middle s') (hproper : Proper T middle)
    (hnot : ∀ e ∈ middle, ∀ key value, e ≠ (.step t, .found key value)) : Finding T s' t key value :=
  pending_history (Q := fun s => Finding T s t key value)
    (fun _ h => h.finds.imp fun _ hold => hold.imp fun _ hat => hat.1)
    (fun _ _ _ h hkeeps hsame => h.keeps hkeeps hsame)
    (fun _ _ _ _ _ _ _ h hinv hat hrun =>
      (h.runs hinv hat hrun (hinv.goes_of_run hat hrun)).imp And.right fun hanswer => ⟨value, hanswer⟩)
    hagrees hfinding hhistory hproper hnot

/-- While a find has not returned, it has its default or the value of a migration. -/
def HasDefault (T : Types K V) (s : ConcurrentHashMap ι K V) (t : ι) (key : K) (default : V) : Prop :=
  ∃ old at_, s.threads t = .busy (.find key old) at_ ∧ (old = default ∨ old = T.migrateValue)

theorem HasDefault.history {middle : List (Event ι K V × Answer K V)} {default : V} (hdefault : HasDefault T s t key default)
    (hagrees : Agrees T events s) (hhistory : (machine T ι).History s middle s') (hproper : Proper T middle)
    (hnot : ∀ e ∈ middle, ∀ key value, e ≠ (.step t, .found key value)) : HasDefault T s' t key default := by
  refine pending_history (Q := fun s => HasDefault T s t key default)
    (fun _ h => h.imp fun _ hold => hold.imp fun _ hat => hat.1) (fun s s' _ h _ hsame => ?_)
    (fun s c call at_ m thread answer h hinv hat hrun => ?_) hagrees hdefault hhistory hproper hnot
  · obtain ⟨old, at_, hat, hold⟩ := h
    exact ⟨old, at_, hsame.trans hat, hold⟩
  · obtain ⟨old, at', hat', hold⟩ := h
    obtain ⟨rfl, rfl⟩ := Thread.busy.inj (hat.symm.trans hat')
    rcases hinv.finds hat hrun with ⟨-, old', next, rfl, hold'⟩ | ⟨result, hanswer, -⟩
    · refine Or.inl ⟨old', next, Function.update_self _ _ _, ?_⟩
      rcases hold' with rfl | rfl
      · exact hold
      · exact Or.inr rfl
    · exact Or.inr ⟨result, hanswer⟩

/-- A find of the thread begins behind `before` and returns in front of `after`. -/
structure FindIn (events before after : List (Event ι K V × Answer K V)) (t : ι) (key : K) (default result : V) : Prop where
  split : ∃ middle, events = before ++ (.call t (.find key default), .called) :: (middle ++ (.step t, .found key result) :: after) ∧
    ∀ e ∈ middle, ∀ key value, e ≠ (.step t, .found key value)

/-- The threads agree on the values of the keys. -/
structure Agreement (T : Types K V) (events : List (Event ι K V × Answer K V)) : Prop where
  /-- All inserts of a key return the same value. -/
  same : ∀ key value value', Inserted events key value → Inserted events key value' → value = value'
  /-- It is one of the values that were offered for the key. -/
  offered : ∀ key value, Inserted events key value → Offered events key value ∧ T.Stored value
  /-- A find that begins after an insert of the key has returned finds its value. -/
  late : ∀ before after t key default result value, FindIn events before after t key default result →
    Inserted before key value → result = value
  /-- Any other find returns the value that all inserts return, the default, the empty value or the value of a migration. -/
  found : ∀ before after t key default result, FindIn events before after t key default result →
    (Offered events key result ∧ ∀ value, Inserted events key value → result = value) ∨ result = default ∨
      result = T.emptyValue ∨ result = T.migrateValue

/-- **Agreement.**  Whatever the threads do in turn, with any number of migrations, they agree on the values of the
keys. -/
theorem agreement (hhistory : (machine T ι).History (start T ι) events s) (hproper : Proper T events) :
    Agreement T events := by
  have hagrees := agrees_of_history hhistory hproper
  obtain ⟨c, hinv⟩ := hagrees.inv
  -- the states before a find, with its call, and before it returns
  have hstates : ∀ {before after : List (Event ι K V × Answer K V)} {t : ι} {key : K} {default result : V},
      FindIn events before after t key default result → ∃ s₀ c₀ s₂ c₂ old at_ m thread, Agrees T before s₀ ∧ Inv T s₀ c₀ ∧
        Inv T s₂ c₂ ∧ s₂.threads t = .busy (.find key old) at_ ∧ (old = default ∨ old = T.migrateValue) ∧
        run T s₂.shared (.find key old) at_ = some (m, thread, .found key result) ∧
        (∀ value, Holds T s₀ key value → Finding T s₂ t key value) ∧
        (∀ value, Holds T s₂ key value → Holds T s key value) := by
    rintro before after t key default result ⟨middle, rfl, hnot⟩
    obtain ⟨s₀, hbefore, hrest⟩ := Machine.history_append_inv hhistory
    obtain ⟨s₁, hcall, hrest⟩ := Machine.history_cons_inv hrest
    obtain ⟨s₂, hmiddle, hrest⟩ := Machine.history_append_inv hrest
    obtain ⟨s₃, hfound, -⟩ := Machine.history_cons_inv hrest
    have hproper₀ : Proper T before := fun e he => hproper e (List.mem_append_left _ he)
    have hproper₂ : Proper T middle := fun e he =>
      hproper e (List.mem_append_right _ (List.mem_cons_of_mem _ (List.mem_append_left _ he)))
    have hproper₃ : Proper T ((.step t, .found key result) :: after) := fun e he =>
      hproper e (List.mem_append_right _ (List.mem_cons_of_mem _ (List.mem_append_right _ he)))
    have hagrees₀ := agrees_of_history hbefore hproper₀
    obtain ⟨c₀, hinv₀⟩ := hagrees₀.inv
    have hcall : step T s₀ (.call t (.find key default)) = some (s₁, .called) := hcall
    obtain ⟨hagrees₁, hholds₁⟩ := hagrees₀.step hcall fun _ _ _ heq => by simp at heq
    have hbegun : s₁.threads t = .busy (.find key default) .start := by
      rcases call_cases hcall with ⟨-, hanswer⟩ | ⟨-, -, -, rfl⟩
      · simp at hanswer
      · exact Function.update_self _ _ _
    obtain ⟨hagrees₂, -⟩ := hagrees₁.history hmiddle hproper₂
    obtain ⟨c₂, hinv₂⟩ := hagrees₂.inv
    have hdefault : HasDefault T s₁ t key default := ⟨default, .start, hbegun, Or.inl rfl⟩
    obtain ⟨old, at_, hat, hold⟩ := hdefault.history hagrees₁ hmiddle hproper₂ hnot
    rcases step_cases hfound with ⟨-, -, hanswer⟩ | ⟨call, at', m, thread, hat', hrun, -⟩
    · simp at hanswer
    · obtain ⟨rfl, rfl⟩ := Thread.busy.inj (hat'.symm.trans hat)
      refine ⟨s₀, c₀, s₂, c₂, old, at', m, thread, hagrees₀, hinv₀, hinv₂, hat, hold, hrun, fun value hholds => ?_,
        (hagrees₂.history hrest hproper₃).2 key⟩
      have hfinding : Finding T s₁ t key value :=
        ⟨hholds₁ key value hholds, default, .start, hbegun, fun a ha => by simp [looksAt] at ha⟩
      exact hfinding.history hagrees₁ hmiddle hproper₂ hnot
  refine ⟨fun key value value' hins hins' => ?_, fun key value hins => ?_, ?_, ?_⟩
  · exact hinv.holds_unique (hagrees.inserted key value hins) (hagrees.inserted key value' hins')
  · have hholds := hagrees.inserted key value hins
    exact ⟨hagrees.offered key value hholds, hholds.2.1⟩
  · intro before after t key default result value hfind hins
    obtain ⟨s₀, c₀, s₂, c₂, old, at_, m, thread, hagrees₀, -, hinv₂, hat, -, hrun, hfinding, -⟩ := hstates hfind
    rcases (hfinding value (hagrees₀.inserted key value hins)).runs hinv₂ hat hrun (hinv₂.goes_of_run hat hrun) with
      ⟨hanswer, -⟩ | hanswer
    · simp at hanswer
    · exact (Answer.found.inj hanswer).2
  · intro before after t key default result hfind
    obtain ⟨s₀, c₀, s₂, c₂, old, at_, m, thread, -, -, hinv₂, hat, hold, hrun, -, hholds⟩ := hstates hfind
    rcases hinv₂.finds hat hrun with ⟨hanswer, -⟩ | ⟨result', hanswer, hresult⟩
    · simp at hanswer
    · obtain ⟨-, rfl⟩ := Answer.found.inj hanswer
      rcases hresult with rfl | hempty | hvalue
      · exact Or.inr (hold.imp_right Or.inr)
      · exact Or.inr (Or.inr (Or.inl hempty))
      · have hhere := hholds result hvalue
        exact Or.inl ⟨hagrees.offered key result hhere, fun value hins =>
          hinv.holds_unique hhere (hagrees.inserted key value hins)⟩

/-- A step that answers nothing. -/
def quietly (t : Bool) : Event Bool ℕ ℕ × Answer ℕ ℕ := (.step t, .nothing)

/-- The key 5 is inserted.  The insert of the key 6 begins a migration, which a find of the key 5 joins before the value is
in the new array; the migration ends with both of them. -/
def meeting : List (Event Bool ℕ ℕ × Answer ℕ ℕ) :=
  [(.call false (.insert 5 7), .called), quietly false, quietly false, quietly false, (.step false, .inserted 5 7),
    (.call true (.insert 6 8), .called), quietly true, quietly true, quietly true, quietly true,
    (.call false (.find 5 9), .called), quietly false, quietly true, quietly false, quietly false, quietly true,
    quietly true, quietly true, quietly false, quietly true, quietly true, quietly true, quietly true, quietly true,
    quietly false, quietly false, quietly false, quietly true, quietly true, quietly true, (.step false, .found 5 7),
    quietly true, (.step true, .inserted 6 8)]

theorem proper_meeting : Proper numbers meeting := by
  intro e he t key value heq
  have hall : ∀ event ∈ meeting.map Prod.fst, ∀ t key value, event = .call t (.insert key value) → value ≠ 0 := by
    simp +contextual [meeting, quietly]
  exact hall e.1 (List.mem_map_of_mem he) t key value heq

theorem agreement_two : ∃ s : ConcurrentHashMap Bool ℕ ℕ,
    (machine numbers Bool).History (start numbers Bool) meeting s ∧ Agreement numbers meeting := by
  have hhistory : ∃ s : ConcurrentHashMap Bool ℕ ℕ,
      (machine numbers Bool).History (start numbers Bool) meeting s := ⟨_, rfl⟩
  obtain ⟨s, hhistory⟩ := hhistory
  exact ⟨s, hhistory, agreement hhistory proper_meeting⟩

omit [Fintype ι] in
theorem step_busy (hat : s.threads t = .busy call at_) : step T s (.step t) =
    (run T s.shared call at_).map fun r => (⟨r.1, Function.update s.threads t r.2.1⟩, r.2.2) := by
  unfold step
  simp only [hat]
  rcases run T s.shared call at_ with - | r <;> rfl

omit [Fintype ι] in
theorem step_idle (hidle : s.threads t = .idle) : step T s (.step t) = some (s, .nothing) := by
  unfold step
  dsimp only
  rw [hidle]

omit [Fintype ι] in
theorem call_idle (hidle : s.threads t = .idle) : step T s (.call t call) =
    if Accepts T call then some (⟨s.shared, Function.update s.threads t (.busy call .start)⟩, .called) else none := by
  unfold step
  dsimp only
  rw [hidle]

omit [Fintype ι] in
theorem call_busy {call' : Call K V} (hat : s.threads t = .busy call' at_) :
    step T s (.call t call) = some (s, .nothing) := by
  unfold step
  dsimp only
  rw [hat]

/-- A step of the map fails a check only for a call with a wrong key or value, or when a migration overflows. -/
def Refused (T : Types K V) (s : ConcurrentHashMap ι K V) : Event ι K V → Prop
  | .call t call => s.threads t = .idle ∧ ¬ Accepts T call
  | .step t => ∃ call at_, s.threads t = .busy call at_ ∧ Overflows s.shared at_

theorem Inv.step_eq_none_iff (hinv : Inv T s c) : step T s event = none ↔ Refused T s event := by
  cases event with
  | call t call =>
    cases hat : s.threads t with
    | idle =>
      rw [call_idle hat]
      simp [Refused, hat]
    | busy call' at_ =>
      rw [call_busy hat]
      simp [Refused, hat]
  | step t =>
    cases hat : s.threads t with
    | idle =>
      rw [step_idle hat]
      simp [Refused, hat]
    | busy call at_ =>
      rw [step_busy hat, Option.map_eq_none_iff]
      constructor
      · intro hnone
        rcases hinv.runs hat with ⟨m, thread, answer, hrun, -⟩ | hover
        · rw [hrun] at hnone
          cases hnone
        · exact ⟨call, at_, hat, hover⟩
      · rintro ⟨call', at', hat', hover⟩
        obtain ⟨rfl, rfl⟩ := Thread.busy.inj (hat.symm.trans hat')
        exact run_overflows hover

/-! ### With the hazard pointers -/

section Guarded

variable {g g' : Guarded ι K V} {threadId : ι → ℕ}

/-- A thread without a call has no hazard pointer. -/
def Free (threadId : ι → ℕ) (g : Guarded ι K V) : Prop := ∀ t, g.map.threads t = .idle → g.hazard (threadId t) = .null

omit [DecidableEq K] [DecidableEq V] [Fintype ι] [DecidableEq ι] in
/-- The hazard pointer of a thread is not that of another one. -/
theorem Free.update (h : Free threadId g) (hids : Function.Injective threadId) {map : ConcurrentHashMap ι K V}
    {protecting : ι → Protecting} (value : Hazard) (hother : ∀ t', t' ≠ t → map.threads t' = g.map.threads t')
    (hhere : map.threads t = .idle → value = .null) :
    Free threadId ⟨map, Function.update g.hazard (threadId t) value, protecting⟩ := by
  intro t' hidle
  by_cases ht : t' = t
  · subst ht
    exact (Function.update_self _ _ _).trans (hhere hidle)
  · have hne : threadId t' ≠ threadId t := fun heq => ht (hids heq)
    exact (Function.update_of_ne hne _ _).trans (h t' ((hother t' ht).symm.trans hidle))

omit [Fintype ι] in
theorem guardedStep_run (hstart : ∀ call, g.map.threads t ≠ .busy call .start) (hbusy : g.map.threads t ≠ .idle) :
    guardedStep T threadId g (.step t) = guardedRun T threadId g t := by
  unfold guardedStep
  dsimp only
  rcases hat : g.map.threads t with - | ⟨call, at_⟩
  · exact absurd hat hbusy
  · cases at_ with
    | start => exact absurd hat (hstart call)
    | _ => rfl

omit [Fintype ι] in
/-- A step of the map, with the hazard pointer of the thread. -/
theorem Free.run (h : Free threadId g) (hids : Function.Injective threadId)
    (hrun : guardedRun T threadId g t = some (g', answer)) :
    Free threadId g' ∧ step T g.map (.step t) = some (g'.map, answer) := by
  unfold guardedRun at hrun
  obtain ⟨⟨map, answer'⟩, hstep, hrun⟩ := Option.bind_eq_some_iff.mp hrun
  dsimp only at hrun
  split_ifs at hrun
  cases hrun
  refine ⟨?_, hstep⟩
  have hother : ∀ t', t' ≠ t → map.threads t' = g.map.threads t' := by
    rcases step_cases hstep with ⟨-, rfl, -⟩ | ⟨call, at_, m, thread, -, -, rfl⟩
    · exact fun _ _ => rfl
    · exact fun t' ht => Function.update_of_ne ht _ _
  cases hat : map.threads t with
  | idle => exact h.update hids .null hother fun _ => rfl
  | busy call at_ =>
    intro t' hidle
    have ht : t' ≠ t := by
      rintro rfl
      cases hat.symm.trans hidle
    exact h t' ((hother t' ht).symm.trans hidle)

omit [Fintype ι] in
/-- A step is one of the map, or one of the loop of `protect`. -/
theorem Free.step (h : Free threadId g) (hids : Function.Injective threadId)
    (hstep : guardedStep T threadId g event = some (g', answer)) :
    Free threadId g' ∧ (g'.map = g.map ∨ ConcurrentHashThreads.step T g.map event = some (g'.map, answer)) := by
  cases event with
  | call t call =>
    unfold guardedStep at hstep
    dsimp only at hstep
    cases hat : g.map.threads t with
    | busy call' at_ =>
      rw [hat] at hstep
      cases hstep
      exact ⟨h, Or.inl rfl⟩
    | idle =>
      rw [hat] at hstep
      obtain ⟨⟨map, answer'⟩, hcall, hstep⟩ := Option.bind_eq_some_iff.mp hstep
      obtain ⟨hazard, hholder, hstep⟩ := Option.bind_eq_some_iff.mp hstep
      cases hstep
      unfold newHolder at hholder
      split_ifs at hholder
      cases hholder
      refine ⟨?_, Or.inr hcall⟩
      rw [call_idle hat] at hcall
      split_ifs at hcall
      cases hcall
      exact h.update hids .one (fun t' ht => Function.update_of_ne ht _ _) fun hidle => by simp at hidle
  | step t =>
    by_cases hstart : ∃ call, g.map.threads t = .busy call .start
    · obtain ⟨call, hat⟩ := hstart
      have hbusy : ∀ {P : Prop}, g.map.threads t = .idle → P := fun hidle => by cases hat.symm.trans hidle
      unfold guardedStep guardedProtect at hstep
      simp only [hat] at hstep
      cases hprotecting : g.protecting t with
      | load saved =>
        simp only [hprotecting] at hstep
        split_ifs at hstep with hsaved
        · exact (h.run hids hstep).imp_right Or.inr
        · cases hstep
          exact ⟨h, Or.inl rfl⟩
      | store toSave =>
        simp only [hprotecting] at hstep
        cases hstep
        exact ⟨h.update hids _ (fun _ _ => rfl) hbusy, Or.inl rfl⟩
    · by_cases hidle : g.map.threads t = .idle
      · unfold guardedStep at hstep
        simp only [hidle] at hstep
        cases hstep
        exact ⟨h, Or.inl rfl⟩
      · rw [guardedStep_run (fun call hat => hstart ⟨call, hat⟩) hidle] at hstep
        exact (h.run hids hstep).imp_right Or.inr

/-- The state of the map is that of a run of the map alone. -/
theorem Free.history (hids : Function.Injective threadId) (hproper : Proper T events)
    (hhistory : (guardedMachine T threadId).History (guardedStart T ι) events g) :
    Free threadId g ∧ ∃ c, Inv T g.map c := by
  have hall := Machine.history_of_step (M := guardedMachine T threadId) (s := guardedStart T ι)
    (P := fun events g => Proper T events → Free threadId g ∧ ∃ past, Agrees T past g.map)
    (fun _ => ⟨fun _ _ => rfl, [], agrees_start⟩) (fun events g event g' answer ih hstep hproper => ?_) events hhistory
    hproper
  · exact hall.imp_right fun ⟨_, hagrees⟩ => hagrees.inv
  · obtain ⟨hfree, past, hagrees⟩ := ih fun e he => hproper e (List.mem_append_left _ he)
    obtain ⟨hfree', hmap | hmap⟩ := hfree.step hids hstep
    · exact ⟨hfree', past, hmap ▸ hagrees⟩
    · exact ⟨hfree', _, (hagrees.step hmap fun t key value heq =>
        hproper (event, answer) (List.mem_append_right _ (List.mem_singleton_self _)) t key value heq).1⟩

/-- **Checks.**  Threads with ids of their own below 64 call the map.  Whatever they do in turn, a check fails, of the map
or of its hazard pointers, if and only if a call has a wrong key or value or a migration overflows; no pointer is null where
it is used. -/
theorem fails_iff (hids : Function.Injective threadId) (hlt : ∀ t, threadId t < 64)
    (hhistory : (guardedMachine T threadId).History (guardedStart T ι) events g) (hproper : Proper T events) :
    guardedStep T threadId g event = none ↔ Refused T g.map event := by
  obtain ⟨hfree, c, hinv⟩ := Free.history hids hproper hhistory
  rw [← hinv.step_eq_none_iff]
  have hrun : ∀ t, guardedRun T threadId g t = none ↔ step T g.map (.step t) = none := by
    intro t
    unfold guardedRun
    rcases step T g.map (.step t) with - | ⟨map, answer⟩
    · simp
    · have hthread : threadId t < hazardThreads := hlt t
      simp [hthread]
  cases event with
  | call t call =>
    unfold guardedStep
    dsimp only
    cases hat : g.map.threads t with
    | busy call' at_ => simp [call_busy hat]
    | idle =>
      have hholder : newHolder g.hazard (threadId t) = some (Function.update g.hazard (threadId t) .one) := by
        unfold newHolder
        rw [if_pos (show threadId t < hazardThreads from hlt t), if_pos (hfree t hat)]
      rw [call_idle hat]
      by_cases haccepts : Accepts T call <;> simp [haccepts, hholder]
  | step t =>
    by_cases hstart : ∃ call, g.map.threads t = .busy call .start
    · obtain ⟨call, hat⟩ := hstart
      have hgoes : step T g.map (.step t) ≠ none := by
        rw [step_busy hat, Ne, Option.map_eq_none_iff]
        unfold ConcurrentHashThreads.run
        rcases g.map.shared.hashMap with - | a <;> simp
      refine iff_of_false (fun hnone => ?_) hgoes
      unfold guardedStep guardedProtect at hnone
      simp only [hat] at hnone
      cases hprotecting : g.protecting t with
      | load saved =>
        simp only [hprotecting] at hnone
        split_ifs at hnone with hsaved
        exact hgoes ((hrun t).mp hnone)
      | store toSave =>
        simp only [hprotecting] at hnone
        cases hnone
    · by_cases hidle : g.map.threads t = .idle
      · unfold guardedStep
        simp [hidle, step_idle hidle]
      · rw [guardedStep_run (fun call hat => hstart ⟨call, hat⟩) hidle, hrun]

end Guarded

/-- The key 5 is inserted while another thread protects the array. -/
def protecting : List (Event Bool ℕ ℕ × Answer ℕ ℕ) :=
  [(.call false (.insert 5 7), .called), quietly false, (.call true (.find 5 9), .called), quietly false, quietly true,
    quietly false, quietly true, quietly false, quietly false, (.step false, .inserted 5 7)]

/-- Then the thread calls the map with the empty key. -/
theorem fails_iff_wrong_key : ∃ g : Guarded Bool ℕ ℕ,
    (guardedMachine numbers Bool.toNat).History (guardedStart numbers Bool) protecting g ∧
      guardedStep numbers Bool.toNat g (.call false (.insert 0 9)) = none := by
  have hhistory : ∃ g : Guarded Bool ℕ ℕ, (guardedMachine numbers Bool.toNat).History (guardedStart numbers Bool)
      protecting g ∧ g.map.threads false = .idle := ⟨_, rfl, rfl⟩
  obtain ⟨g, hhistory, hidle⟩ := hhistory
  have hproper : Proper numbers protecting := by
    intro e he t key value heq
    have hall : ∀ event ∈ protecting.map Prod.fst, ∀ t key value, event = .call t (.insert key value) → value ≠ 0 := by
      simp +contextual [protecting, quietly]
    exact hall e.1 (List.mem_map_of_mem he) t key value heq
  have hids : Function.Injective Bool.toNat := fun a b => by cases a <;> cases b <;> simp
  refine ⟨g, hhistory, (fails_iff hids (fun t => by cases t <;> decide) hhistory hproper).mpr ⟨hidle, ?_⟩⟩
  exact fun haccepts => haccepts.1 rfl

/-- A find that reads a slot between the exchanges of its key and of its value may return the value of a migration. -/
theorem find_returns_migrateValue : ∃ s : ConcurrentHashMap (Fin 3) ℕ ℕ,
    (machine ⟨0, id, 0, 1, by decide⟩ (Fin 3)).History (start ⟨0, id, 0, 1, by decide⟩ (Fin 3))
      [(.call 0 (.insert 5 7), .called), (.step 0, .nothing), (.step 0, .nothing), (.step 0, .nothing),
        (.call 2 (.find 5 9), .called), (.step 2, .nothing),
        (.call 1 (.insert 6 8), .called), (.step 1, .nothing), (.step 1, .nothing), (.step 1, .nothing),
        (.step 1, .nothing), (.step 1, .nothing), (.step 1, .nothing), (.step 1, .nothing), (.step 1, .nothing),
        (.step 1, .nothing), (.step 1, .nothing),
        (.step 2, .nothing), (.step 2, .nothing), (.step 2, .nothing), (.step 2, .nothing), (.step 2, .found 5 1)] s :=
  ⟨_, rfl⟩

end Runs

end ConcurrentHashThreads

end TdUtils.Concurrent
