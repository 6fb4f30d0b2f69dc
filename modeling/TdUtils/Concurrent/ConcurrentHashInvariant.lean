import TdUtils.Concurrent.ConcurrentHashThreads
import TdUtils.Lib.Tally

/-!
# Concurrent.ConcurrentHashInvariant — what the arrays and the threads have to do with each other

The arrays are numbered as they are made.  All are emptied up to the one in use, `c`; while it is moved, threads take its
values chunk by chunk to the next one.  A value is in one place: in the array in use, in the hand of one thread, or in the
new array.
-/

namespace TdUtils.Concurrent

open Lib Probing ConcurrentHashTable

namespace ConcurrentHashThreads

variable {ι K V : Type} [DecidableEq K] [DecidableEq V] {T : Types K V}

/-! ### One array -/

section Arrays

variable {A B : HashArray K V} {key : K} {p i : ℕ} {value : V}

def table (T : Types K V) (A : HashArray K V) (p : ℕ) : Option K :=
  if A.key p = T.emptyKey then none else some (A.key p)

/-- The first `i` slots for the key have other keys. -/
abbrev Past (T : Types K V) (A : HashArray K V) (key : K) (i : ℕ) : Prop := Passed (T.path A.size) (table T A) key i

structure ArrayOk (T : Types K V) (A : HashArray K V) : Prop where
  size_pos : 0 < A.size
  probed : Probed (T.path A.size) (window A.size) (table T A)
  stored_key : ∀ p, T.Stored (A.value p) → A.key p ≠ T.emptyKey
  outside : ∀ p, A.size ≤ p → A.value p = T.emptyValue

/-- Keys stay, and a slot with a value never is without one again. -/
structure Grows (T : Types K V) (A B : HashArray K V) : Prop where
  size_eq : B.size = A.size
  key_eq : ∀ p, A.key p ≠ T.emptyKey → B.key p = A.key p
  value_ne : ∀ p, A.value p ≠ T.emptyValue → B.value p ≠ T.emptyValue

omit [DecidableEq V] in
theorem table_eq_some_iff : table T A p = some key ↔ A.key p = key ∧ key ≠ T.emptyKey := by
  unfold table
  split_ifs with hempty
  · exact ⟨False.elim, fun ⟨heq, hne⟩ => absurd (heq.symm.trans hempty) hne⟩
  · exact ⟨fun h => Option.some.inj h ▸ ⟨rfl, hempty⟩, fun ⟨heq, _⟩ => congrArg some heq⟩

omit [DecidableEq V] in
theorem table_eq_none_iff : table T A p = none ↔ A.key p = T.emptyKey := by
  unfold table
  split_ifs with hempty
  · exact ⟨fun _ => hempty, fun _ => rfl⟩
  · exact ⟨False.elim, fun h => absurd h hempty⟩

omit [DecidableEq V] in
theorem table_setKey (hkey : key ≠ T.emptyKey) :
    table T (A.setKey p key) = Function.update (table T A) p (some key) := by
  funext q
  by_cases hq : q = p
  · subst hq
    rw [Function.update_self]
    exact table_eq_some_iff.mpr ⟨Function.update_self _ _ _, hkey⟩
  · rw [Function.update_of_ne hq]
    have hsame : (A.setKey p key).key q = A.key q := Function.update_of_ne hq _ _
    unfold table
    simp only [hsame]

omit [DecidableEq V] in
/-- A key is in one slot. -/
theorem ArrayOk.unique (h : ArrayOk T A) {q : ℕ} (hkey : A.key p ≠ T.emptyKey) (heq : A.key q = A.key p) : q = p :=
  h.probed.unique (table_eq_some_iff.mpr ⟨heq, hkey⟩) (table_eq_some_iff.mpr ⟨rfl, hkey⟩)

omit [DecidableEq K] [DecidableEq V] in
theorem slotAt_lt (h : 0 < A.size) (key : K) (i : ℕ) : slotAt T A key i < A.size := Nat.mod_lt _ h

omit [DecidableEq V] in
theorem arrayOk_newArray {n : ℕ} (hn : 0 < n) : ArrayOk T (newArray T n) where
  size_pos := hn
  probed := fun _ _ hk => absurd (table_eq_some_iff.mp hk).1.symm (table_eq_some_iff.mp hk).2
  stored_key := fun _ hstored => absurd rfl hstored.1
  outside := fun _ _ => rfl

omit [DecidableEq V] in
theorem ArrayOk.setKey (h : ArrayOk T A) (hpast : Past T A key i) (hi : i < window A.size) (hkey : key ≠ T.emptyKey)
    (hfree : A.key (slotAt T A key i) = T.emptyKey) : ArrayOk T (A.setKey (slotAt T A key i) key) := by
  refine ⟨h.size_pos, ?_, fun p hstored => ?_, h.outside⟩
  · rw [table_setKey hkey]
    exact h.probed.put hpast hi (table_eq_none_iff.mpr hfree)
  · by_cases hp : p = slotAt T A key i
    · subst hp
      exact (Function.update_self _ _ _).trans_ne hkey
    · exact (Function.update_of_ne hp _ _).trans_ne (h.stored_key p hstored)

omit [DecidableEq V] in
theorem ArrayOk.setValue (h : ArrayOk T A) (hp : p < A.size) (hkey : T.Stored value → A.key p ≠ T.emptyKey) :
    ArrayOk T (A.setValue p value) := by
  refine ⟨h.size_pos, h.probed, fun q hstored => ?_, fun q hq => ?_⟩
  · by_cases hqp : q = p
    · subst hqp
      exact hkey ((Function.update_self q value A.value) ▸ hstored)
    · exact h.stored_key q ((Function.update_of_ne hqp value A.value) ▸ hstored)
  · have hout : A.size ≤ q := hq
    exact (Function.update_of_ne (show q ≠ p by omega) value A.value).trans (h.outside q hout)

omit [DecidableEq K] [DecidableEq V] in
theorem Grows.refl (A : HashArray K V) : Grows T A A := ⟨rfl, fun _ _ => rfl, fun _ h => h⟩

omit [DecidableEq K] [DecidableEq V] in
theorem Grows.trans {C : HashArray K V} (h : Grows T A B) (h' : Grows T B C) : Grows T A C where
  size_eq := h'.size_eq.trans h.size_eq
  key_eq p hp := (h'.key_eq p ((h.key_eq p hp).trans_ne hp)).trans (h.key_eq p hp)
  value_ne p hp := h'.value_ne p (h.value_ne p hp)

omit [DecidableEq K] [DecidableEq V] in
theorem grows_setKey (hfree : A.key p = T.emptyKey) : Grows T A (A.setKey p key) :=
  ⟨rfl, fun _ hq => Function.update_of_ne (fun heq => hq (by rw [heq, hfree])) _ _, fun _ h => h⟩

omit [DecidableEq K] [DecidableEq V] in
theorem grows_setValue (hvalue : value ≠ T.emptyValue) : Grows T A (A.setValue p value) := by
  refine ⟨rfl, fun _ _ => rfl, fun q hq => ?_⟩
  by_cases hqp : q = p
  · subst hqp
    exact (Function.update_self _ _ _).trans_ne hvalue
  · exact (Function.update_of_ne hqp _ _).trans_ne hq

omit [DecidableEq V] in
theorem Past.grows (h : Past T A key i) (hgrows : Grows T A B) : Past T B key i := by
  intro j hj
  obtain ⟨other, hother, hne⟩ := h j hj
  obtain ⟨hkey, hother⟩ := table_eq_some_iff.mp hother
  refine ⟨other, table_eq_some_iff.mpr ⟨?_, hother⟩, hne⟩
  rw [hgrows.size_eq]
  exact (hgrows.key_eq _ (hkey.trans_ne hother)).trans hkey

end Arrays

/-! ### One thread -/

/-- The places of its task that a thread has still to take. -/
def Covers : Thread K V → ℕ → Prop
  | .busy _ (.take _ j end_), p => j ≤ p ∧ p < end_
  | .busy _ (.load _ j end_ _), p | .busy _ (.moveProbe _ j end_ _ _ _), p | .busy _ (.moveClaim _ j end_ _ _ _), p
  | .busy _ (.moveStore _ j end_ _ _ _), p => j < p ∧ p < end_
  | _, _ => False

/-- The place and the value that a thread has taken and not put yet. -/
def hand : Thread K V → Option (ℕ × V)
  | .busy _ (.load _ j _ old) | .busy _ (.moveProbe _ j _ old _ _) | .busy _ (.moveClaim _ j _ old _ _)
  | .busy _ (.moveStore _ j _ old _ _) => some (j, old)
  | _ => none

/-- A thread between the critical sections of `do_migrate`. -/
def migrates : Thread K V → Bool
  | .busy _ (.create _) | .busy _ (.take ..) | .busy _ (.load ..) | .busy _ (.moveProbe ..) | .busy _ (.moveClaim ..)
  | .busy _ (.moveStore ..) | .busy _ (.leave _) => true
  | _ => false

/-- No key is empty, and what is to be inserted can be stored. -/
def CallOk (T : Types K V) (call : Call K V) : Prop :=
  call.key ≠ T.emptyKey ∧ ∀ key value, call = .insert key value → T.Stored value

def AtOk (T : Types K V) (m : Shared K V) (c : ℕ) (call : Call K V) : At K V → Prop
  | .probe a i => a ≤ c ∧ Past T (m.arrays a) call.key i
  | .claim a i => a ≤ c ∧ Past T (m.arrays a) call.key i ∧ i < window (m.arrays a).size ∧
      ∃ key value, call = .insert key value
  | .use a i => a ≤ c ∧ (m.arrays a).key (slotAt T (m.arrays a) call.key i) = call.key
  | .moveProbe _ j _ _ key i => key ≠ T.emptyKey ∧ (m.arrays c).key j = key ∧ Past T (m.arrays (c + 1)) key i
  | .moveClaim _ j _ _ key i => key ≠ T.emptyKey ∧ (m.arrays c).key j = key ∧ Past T (m.arrays (c + 1)) key i ∧
      i < window (m.arrays (c + 1)).size
  | .moveStore _ j _ _ key i => key ≠ T.emptyKey ∧ (m.arrays c).key j = key ∧
      (m.arrays (c + 1)).key (slotAt T (m.arrays (c + 1)) key i) = key
  | .leave _ => (m.arrays c).size ≤ m.taskPos * 100
  | _ => True

def ThreadOk (T : Types K V) (m : Shared K V) (c : ℕ) : Thread K V → Prop
  | .idle => True
  | .busy call at_ => CallOk T call ∧ AtOk T m c call at_

omit [DecidableEq V] in
/-- What is known of a thread stays when arrays grow, as long as it does not move values to a new array. -/
theorem ThreadOk.mono {m m' : Shared K V} {c c' : ℕ} {thread : Thread K V} (h : ThreadOk T m c thread) (hle : c ≤ c')
    (hgrows : ∀ a ≤ c, Grows T (m.arrays a) (m'.arrays a))
    (hmoves : migrates thread = true →
      c' = c ∧ Grows T (m.arrays (c + 1)) (m'.arrays (c + 1)) ∧ m.taskPos ≤ m'.taskPos) : ThreadOk T m' c' thread := by
  cases thread with
  | idle => trivial
  | busy call at_ =>
    refine ⟨h.1, ?_⟩
    have hat := h.2
    cases at_ with
    | start => trivial
    | probe a i => exact ⟨hat.1.trans hle, hat.2.grows (hgrows a hat.1)⟩
    | claim a i =>
      obtain ⟨ha, hpast, hi, hcall⟩ := hat
      exact ⟨ha.trans hle, hpast.grows (hgrows a ha), (hgrows a ha).size_eq.symm ▸ hi, hcall⟩
    | use a i =>
      obtain ⟨ha, hkey⟩ := hat
      refine ⟨ha.trans hle, ?_⟩
      unfold slotAt at hkey ⊢
      rw [(hgrows a ha).size_eq, (hgrows a ha).key_eq _ (hkey.trans_ne h.1.1), hkey]
    | enter _ => trivial
    | create _ => trivial
    | take => trivial
    | load => trivial
    | moveProbe _ j _ _ key i =>
      obtain ⟨rfl, hnext, -⟩ := hmoves rfl
      obtain ⟨hne, hkey, hpast⟩ := hat
      exact ⟨hne, ((hgrows _ le_rfl).key_eq j (hkey.trans_ne hne)).trans hkey, hpast.grows hnext⟩
    | moveClaim _ j _ _ key i =>
      obtain ⟨rfl, hnext, -⟩ := hmoves rfl
      obtain ⟨hne, hkey, hpast, hi⟩ := hat
      exact ⟨hne, ((hgrows _ le_rfl).key_eq j (hkey.trans_ne hne)).trans hkey, hpast.grows hnext,
        hnext.size_eq.symm ▸ hi⟩
    | moveStore _ j _ _ key i =>
      obtain ⟨rfl, hnext, -⟩ := hmoves rfl
      obtain ⟨hne, hkey, hslot⟩ := hat
      refine ⟨hne, ((hgrows _ le_rfl).key_eq j (hkey.trans_ne hne)).trans hkey, ?_⟩
      unfold slotAt at hslot ⊢
      rw [hnext.size_eq, hnext.key_eq _ (hslot.trans_ne hne), hslot]
    | leave _ =>
      obtain ⟨rfl, -, hpos⟩ := hmoves rfl
      have hsize := (hgrows _ le_rfl).size_eq
      change (m'.arrays c').size ≤ m'.taskPos * 100
      have hat : (m.arrays c').size ≤ m.taskPos * 100 := hat
      omega
    | wait _ => trivial

/-! ### All of them -/

/-- No array is moved. -/
structure Quiet (m : Shared K V) (c : ℕ) : Prop where
  hashMap : m.hashMap = some c
  migrateFrom : m.migrateFrom = none
  migrateTo : m.migrateTo = none
  migrateCnt : m.migrateCnt = 0
  allocated : m.allocated = c + 1

/-- The array is moved to the next one. -/
structure Moving (m : Shared K V) (c : ℕ) : Prop where
  hashMap : m.hashMap = none
  migrateFrom : m.migrateFrom = some c
  migrateTo : m.migrateTo = some (c + 1)
  allocated : m.allocated = c + 2
  taskSize : m.taskSize = (m.arrays c).size

structure SharedOk (T : Types K V) (m : Shared K V) (c : ℕ) : Prop where
  arrays : ∀ a, ArrayOk T (m.arrays a)
  old : ∀ a < c, ∀ p < (m.arrays a).size, (m.arrays a).value p = T.migrateValue
  stage : Quiet m c ∨ Moving m c
  quiet_value : Quiet m c → ∀ p, (m.arrays c).value p ≠ T.migrateValue
  moving_value : Moving m c → ∀ p, (m.arrays (c + 1)).value p ≠ T.migrateValue

/-- What has been taken was in a task and is not covered any more, each value by one thread, and it gets to the slot of its
key in the new array. -/
structure MovesOk (T : Types K V) (m : Shared K V) (c : ℕ) (threads : ι → Thread K V) : Prop where
  covers_lt : ∀ t p, Covers (threads t) p → p < m.taskPos * 100 ∧ p < (m.arrays c).size
  disjoint : ∀ t t' p, t ≠ t' → Covers (threads t) p → ¬ Covers (threads t') p
  taken_iff : ∀ p < (m.arrays c).size, (m.arrays c).value p = T.migrateValue ↔
    p < m.taskPos * 100 ∧ ∀ t, ¬ Covers (threads t) p
  hands : ∀ t j old, hand (threads t) = some (j, old) → j < (m.arrays c).size ∧
    (m.arrays c).value j = T.migrateValue ∧ T.Stored old ∧ (m.arrays c).key j ≠ T.emptyKey ∧
    ∀ p, (m.arrays (c + 1)).key p = (m.arrays c).key j → (m.arrays (c + 1)).value p = T.emptyValue
  hands_ne : ∀ t t' j old old', t ≠ t' → hand (threads t) = some (j, old) → hand (threads t') ≠ some (j, old')
  made : ∀ p, (m.arrays (c + 1)).key p ≠ T.emptyKey →
    ∃ j, (m.arrays c).key j = (m.arrays (c + 1)).key p ∧ (m.arrays c).value j = T.migrateValue

structure Inv [Fintype ι] (T : Types K V) (s : ConcurrentHashMap ι K V) (c : ℕ) : Prop where
  shared : SharedOk T s.shared c
  threads : ∀ t, ThreadOk T s.shared c (s.threads t)
  count : tally migrates s.threads = s.shared.migrateCnt
  moves : Moving s.shared c → MovesOk T s.shared c s.threads

/-- The value of a key: in an array, or in the hand of a thread. -/
def Holds (T : Types K V) (s : ConcurrentHashMap ι K V) (key : K) (value : V) : Prop :=
  key ≠ T.emptyKey ∧ T.Stored value ∧
    ((∃ a < s.shared.allocated, ∃ p, (s.shared.arrays a).key p = key ∧ (s.shared.arrays a).value p = value) ∨
      ∃ t j a, hand (s.threads t) = some (j, value) ∧ s.shared.migrateFrom = some a ∧ (s.shared.arrays a).key j = key)

section Facts

variable [Fintype ι] {s : ConcurrentHashMap ι K V} {c : ℕ} {key : K} {value : V}

omit [DecidableEq K] [DecidableEq V] in
theorem not_quiet_of_moving {m : Shared K V} {c c' : ℕ} (h : Moving m c) : ¬ Quiet m c' := fun hquiet =>
  absurd (hquiet.hashMap.symm.trans h.hashMap) (Option.some_ne_none _)

omit [DecidableEq V] in
theorem Inv.moving_of_migrates (h : Inv T s c) {t : ι} (ht : migrates (s.threads t) = true) : Moving s.shared c := by
  refine h.shared.stage.resolve_left fun hquiet => ?_
  have hpos := tally_pos ht
  rw [h.count, hquiet.migrateCnt] at hpos
  exact absurd hpos (Nat.lt_irrefl 0)

omit [DecidableEq K] [DecidableEq V] in
theorem migrates_of_hand {thread : Thread K V} {x : ℕ × V} (h : hand thread = some x) : migrates thread = true := by
  unfold hand at h
  split at h
  · rfl
  · rfl
  · rfl
  · rfl
  · exact absurd h.symm (Option.some_ne_none _)

omit [DecidableEq K] [DecidableEq V] in
theorem migrates_of_covers {thread : Thread K V} {p : ℕ} (h : Covers thread p) : migrates thread = true := by
  unfold Covers at h
  split at h
  · rfl
  · rfl
  · rfl
  · rfl
  · rfl
  · exact h.elim

omit [DecidableEq V] in
/-- A value is in the array in use, or in the one that takes its place. -/
theorem Inv.live (h : Inv T s c) {a p : ℕ} (ha : a < s.shared.allocated)
    (hvalue : T.Stored ((s.shared.arrays a).value p)) : a = c ∨ Moving s.shared c ∧ a = c + 1 := by
  have hle : c ≤ a := by
    by_contra hlt
    rcases Nat.lt_or_ge p (s.shared.arrays a).size with hp | hp
    · exact hvalue.2 (h.shared.old a (by omega) p hp)
    · exact hvalue.1 ((h.shared.arrays a).outside p hp)
  rcases h.shared.stage with hquiet | hmoving
  · rw [hquiet.allocated] at ha
    exact Or.inl (by omega)
  · rw [hmoving.allocated] at ha
    rcases Nat.eq_or_lt_of_le hle with heq | hlt
    · exact Or.inl heq.symm
    · exact Or.inr ⟨hmoving, by omega⟩

omit [DecidableEq V] in
/-- Where the value of a key is. -/
theorem Inv.holds_cases (h : Inv T s c) (hholds : Holds T s key value) :
    (∃ p, (s.shared.arrays c).key p = key ∧ (s.shared.arrays c).value p = value) ∨
      Moving s.shared c ∧ ((∃ t j, hand (s.threads t) = some (j, value) ∧ (s.shared.arrays c).key j = key) ∨
        ∃ p, (s.shared.arrays (c + 1)).key p = key ∧ (s.shared.arrays (c + 1)).value p = value) := by
  obtain ⟨-, hstored, ⟨a, ha, p, hkey, hvalue⟩ | ⟨t, j, a, hhand, hfrom, hkey⟩⟩ := hholds
  · rcases h.live ha (hvalue.symm ▸ hstored) with rfl | ⟨hmoving, rfl⟩
    · exact Or.inl ⟨p, hkey, hvalue⟩
    · exact Or.inr ⟨hmoving, Or.inr ⟨p, hkey, hvalue⟩⟩
  · have hmoving := h.moving_of_migrates (migrates_of_hand hhand)
    rw [hmoving.migrateFrom] at hfrom
    obtain rfl := Option.some.inj hfrom
    exact Or.inr ⟨hmoving, Or.inl ⟨t, j, hhand, hkey⟩⟩

omit [DecidableEq V] in
/-- A key has one value. -/
theorem Inv.holds_unique (h : Inv T s c) {value' : V} (hholds : Holds T s key value) (hholds' : Holds T s key value') :
    value = value' := by
  have hne := hholds.1
  have hstored := hholds.2.1
  have hstored' := hholds'.2.1
  -- a value in the array in use has not been taken
  have hhere : ∀ {v v' : V} {p : ℕ}, T.Stored v → T.Stored v' → (s.shared.arrays c).key p = key →
      (s.shared.arrays c).value p = v → Moving s.shared c →
      ((∃ t j, hand (s.threads t) = some (j, v') ∧ (s.shared.arrays c).key j = key) ∨
        ∃ p, (s.shared.arrays (c + 1)).key p = key ∧ (s.shared.arrays (c + 1)).value p = v') → False := by
    intro v v' p hv hv' hkey hvalue hmoving hother
    obtain ⟨j, hj, htaken⟩ : ∃ j, (s.shared.arrays c).key j = key ∧ (s.shared.arrays c).value j = T.migrateValue := by
      rcases hother with ⟨t, j, hhand, hj⟩ | ⟨q, hq, -⟩
      · exact ⟨j, hj, ((h.moves hmoving).hands t j v' hhand).2.1⟩
      · obtain ⟨j, hj, htaken⟩ := (h.moves hmoving).made q (hq.trans_ne hne)
        exact ⟨j, hj.trans hq, htaken⟩
    obtain rfl := (h.shared.arrays c).unique (hkey.trans_ne hne) (hj.trans hkey.symm)
    exact hv.2 (hvalue.symm.trans htaken)
  rcases h.holds_cases hholds with ⟨p, hkey, hvalue⟩ | ⟨hmoving, hother⟩ <;>
    rcases h.holds_cases hholds' with ⟨p', hkey', hvalue'⟩ | ⟨hmoving', hother'⟩
  · obtain rfl := (h.shared.arrays c).unique (hkey'.trans_ne hne) (hkey.trans hkey'.symm)
    exact hvalue.symm.trans hvalue'
  · exact (hhere hstored hstored' hkey hvalue hmoving' hother').elim
  · exact (hhere hstored' hstored hkey' hvalue' hmoving hother).elim
  · have hmoves := h.moves hmoving
    rcases hother with ⟨t, j, hhand, hj⟩ | ⟨q, hq, hvalue⟩ <;> rcases hother' with ⟨t', j', hhand', hj'⟩ | ⟨q', hq', hvalue'⟩
    · obtain rfl := (h.shared.arrays c).unique (hj'.trans_ne hne) (hj.trans hj'.symm)
      by_cases ht : t = t'
      · subst ht
        exact (Prod.mk.inj (Option.some.inj (hhand.symm.trans hhand'))).2
      · exact absurd hhand' (hmoves.hands_ne t t' j value value' ht hhand)
    · have hempty := (hmoves.hands t j value hhand).2.2.2.2 q' (hq'.trans hj.symm)
      exact absurd (hvalue'.symm.trans hempty) hstored'.1
    · have hempty := (hmoves.hands t' j' value' hhand').2.2.2.2 q (hq.trans hj'.symm)
      exact absurd (hvalue.symm.trans hempty) hstored.1
    · obtain rfl := (h.shared.arrays (c + 1)).unique (hq'.trans_ne hne) (hq.trans hq'.symm)
      exact hvalue.symm.trans hvalue'

end Facts

end ConcurrentHashThreads

end TdUtils.Concurrent
