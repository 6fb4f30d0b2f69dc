import TdUtils.Concurrent.ConcurrentHashInvariant

/-!
# Concurrent.ConcurrentHashSteps — what each step of a thread keeps

A value that a key has once is the value of this key for ever: it is taken from one array only to be put in the next one.
-/

namespace TdUtils.Concurrent

open Lib Probing ConcurrentHashTable

namespace ConcurrentHashThreads

/-! ### Changes of the memory -/

section Memory

variable {K V : Type} {T : Types K V} {m : Shared K V} {key : K} {value : V} {a b p : ℕ}

theorem setKey_value : ((m.setKey a p key).arrays b).value = (m.arrays b).value := by
  unfold Shared.setKey
  by_cases hb : b = a
  · subst hb
    simp [HashArray.setKey]
  · simp [hb]

theorem setKey_size : ((m.setKey a p key).arrays b).size = (m.arrays b).size := by
  unfold Shared.setKey
  by_cases hb : b = a
  · subst hb
    simp [HashArray.setKey]
  · simp [hb]

theorem setKey_arrays : (m.setKey a p key).arrays a = (m.arrays a).setKey p key := Function.update_self _ _ _

theorem setKey_arrays_ne (hb : b ≠ a) : (m.setKey a p key).arrays b = m.arrays b := Function.update_of_ne hb _ _

theorem setKey_self : ((m.setKey a p key).arrays a).key p = key := by
  rw [setKey_arrays]
  exact Function.update_self _ _ _

theorem setKey_other {q : ℕ} (h : ¬ (b = a ∧ q = p)) : ((m.setKey a p key).arrays b).key q = (m.arrays b).key q := by
  by_cases hb : b = a
  · subst hb
    rw [setKey_arrays]
    exact Function.update_of_ne (fun heq => h ⟨rfl, heq⟩) _ _
  · rw [setKey_arrays_ne hb]

theorem setKey_grows (hfree : (m.arrays a).key p = T.emptyKey) (b : ℕ) :
    Grows T (m.arrays b) ((m.setKey a p key).arrays b) := by
  by_cases hb : b = a
  · subst hb
    rw [setKey_arrays]
    exact grows_setKey hfree
  · rw [setKey_arrays_ne hb]
    exact .refl _

theorem setValue_key : ((m.setValue a p value).arrays b).key = (m.arrays b).key := by
  unfold Shared.setValue
  by_cases hb : b = a
  · subst hb
    simp [HashArray.setValue]
  · simp [hb]

theorem setValue_size : ((m.setValue a p value).arrays b).size = (m.arrays b).size := by
  unfold Shared.setValue
  by_cases hb : b = a
  · subst hb
    simp [HashArray.setValue]
  · simp [hb]

theorem setValue_arrays : (m.setValue a p value).arrays a = (m.arrays a).setValue p value := Function.update_self _ _ _

theorem setValue_arrays_ne (hb : b ≠ a) : (m.setValue a p value).arrays b = m.arrays b := Function.update_of_ne hb _ _

theorem setValue_self : ((m.setValue a p value).arrays a).value p = value := by
  rw [setValue_arrays]
  exact Function.update_self _ _ _

theorem setValue_other {q : ℕ} (h : b ≠ a ∨ q ≠ p) : ((m.setValue a p value).arrays b).value q = (m.arrays b).value q := by
  by_cases hb : b = a
  · subst hb
    rw [setValue_arrays]
    exact Function.update_of_ne (h.resolve_left fun hne => hne rfl) _ _
  · rw [setValue_arrays_ne hb]

theorem setValue_grows (hvalue : value ≠ T.emptyValue) (b : ℕ) :
    Grows T (m.arrays b) ((m.setValue a p value).arrays b) := by
  by_cases hb : b = a
  · subst hb
    rw [setValue_arrays]
    exact grows_setValue hvalue
  · rw [setValue_arrays_ne hb]
    exact .refl _

end Memory

/-! ### Steps that keep what holds -/

variable {ι K V : Type} [DecidableEq K] [DecidableEq V] [Fintype ι] [DecidableEq ι] {T : Types K V}
  {s s' s'' : ConcurrentHashMap ι K V} {m : Shared K V} {c : ℕ} {t : ι} {key : K} {value : V}

/-- What holds from one state to a later one. -/
structure Keeps (T : Types K V) (t : ι) (s s' : ConcurrentHashMap ι K V) : Prop where
  inv : ∃ c', Inv T s' c'
  holds : ∀ key value, Holds T s key value → Holds T s' key value
  origin : ∀ key value, Holds T s' key value → Holds T s key value ∨ ∃ at_, s.threads t = .busy (.insert key value) at_
  grows : ∀ a < s.shared.allocated, Grows T (s.shared.arrays a) (s'.shared.arrays a)
  allocated_le : s.shared.allocated ≤ s'.shared.allocated

omit [DecidableEq V] [DecidableEq ι] in
theorem Keeps.trans (h : Keeps T t s s') (h' : Keeps T t s' s'') (hsame : ∀ key value at_,
    s'.threads t = .busy (.insert key value) at_ → ∃ at_, s.threads t = .busy (.insert key value) at_) :
    Keeps T t s s'' where
  inv := h'.inv
  holds key value hholds := h'.holds key value (h.holds key value hholds)
  origin key value hholds := by
    rcases h'.origin key value hholds with hholds | ⟨at_, hat⟩
    · exact h.origin key value hholds
    · exact Or.inr (hsame key value at_ hat)
  grows a ha := (h.grows a ha).trans (h'.grows a (ha.trans_le h.allocated_le))
  allocated_le := h.allocated_le.trans h'.allocated_le

omit [DecidableEq K] [DecidableEq V] [Fintype ι] [DecidableEq ι] in
theorem MovesOk.congr {threads threads' : ι → Thread K V} (h : MovesOk T m c threads)
    (hcovers : ∀ t p, Covers (threads' t) p ↔ Covers (threads t) p) (hhand : ∀ t, hand (threads' t) = hand (threads t)) :
    MovesOk T m c threads' where
  covers_lt t p hp := h.covers_lt t p ((hcovers t p).mp hp)
  disjoint t t' p hne hp hp' := h.disjoint t t' p hne ((hcovers t p).mp hp) ((hcovers t' p).mp hp')
  taken_iff p hp := (h.taken_iff p hp).trans (and_congr_right fun _ => forall_congr' fun t => not_congr (hcovers t p).symm)
  hands t j old hj := h.hands t j old ((hhand t).symm.trans hj)
  hands_ne t t' j old old' hne hj hj' := h.hands_ne t t' j old old' hne ((hhand t).symm.trans hj) ((hhand t').symm.trans hj')
  made := h.made

omit [DecidableEq K] [DecidableEq V] [Fintype ι] in
theorem covers_update {threads : ι → Thread K V} {thread : Thread K V} (h : ∀ p, Covers thread p ↔ Covers (threads t) p)
    (t' : ι) (p : ℕ) : Covers (Function.update threads t thread t') p ↔ Covers (threads t') p := by
  by_cases ht : t' = t
  · subst ht
    rw [Function.update_self]
    exact h p
  · rw [Function.update_of_ne ht]

omit [DecidableEq K] [DecidableEq V] [Fintype ι] in
theorem hand_update {threads : ι → Thread K V} {thread : Thread K V} (h : hand thread = hand (threads t)) (t' : ι) :
    hand (Function.update threads t thread t') = hand (threads t') := by
  by_cases ht : t' = t
  · subst ht
    rw [Function.update_self]
    exact h
  · rw [Function.update_of_ne ht]

omit [DecidableEq V] [Fintype ι] in
theorem threadOk_update {threads : ι → Thread K V} {thread : Thread K V} (h : ∀ t, ThreadOk T m c (threads t))
    (hthread : ThreadOk T m c thread) (t' : ι) : ThreadOk T m c (Function.update threads t thread t') := by
  by_cases ht : t' = t
  · subst ht
    rw [Function.update_self]
    exact hthread
  · rw [Function.update_of_ne ht]
    exact h t'

omit [DecidableEq V] [DecidableEq ι] in
theorem Keeps.of_same (hinv : Inv T s' c) (harrays : s'.shared.arrays = s.shared.arrays)
    (hallocated : s'.shared.allocated = s.shared.allocated) (hfrom : s'.shared.migrateFrom = s.shared.migrateFrom)
    (hhand : ∀ t, hand (s'.threads t) = hand (s.threads t)) : Keeps T t s s' := by
  have hholds : ∀ key value, Holds T s' key value ↔ Holds T s key value := by
    intro key value
    unfold Holds
    simp only [harrays, hallocated, hfrom, hhand]
  refine ⟨⟨c, hinv⟩, fun key value => (hholds key value).mpr, fun key value h => Or.inl ((hholds key value).mp h), ?_, ?_⟩
  · intro a _
    rw [harrays]
    exact .refl _
  · exact hallocated.ge

omit [DecidableEq V] in
/-- A thread goes on without a change of the memory. -/
theorem Inv.setThread (h : Inv T s c) {thread thread' : Thread K V} (hat : s.threads t = thread)
    (hok : ThreadOk T s.shared c thread') (hmigrates : migrates thread' = migrates thread)
    (hcovers : ∀ p, Covers thread' p ↔ Covers thread p) (hhand : hand thread' = hand thread) :
    Inv T ⟨s.shared, Function.update s.threads t thread'⟩ c ∧
      Keeps T t s ⟨s.shared, Function.update s.threads t thread'⟩ := by
  subst hat
  have hinv : Inv T ⟨s.shared, Function.update s.threads t thread'⟩ c := by
    refine ⟨h.shared, threadOk_update h.threads hok, ?_, fun hmoving => ?_⟩
    · have htally := tally_update migrates s.threads t thread'
      rw [hmigrates] at htally
      exact (Nat.add_right_cancel htally).trans h.count
    · exact (h.moves hmoving).congr (covers_update hcovers) (hand_update hhand)
  exact ⟨hinv, .of_same hinv rfl rfl rfl (hand_update hhand)⟩

omit [DecidableEq ι] in
/-- A key gets its slot: in an array that was in use, or in the new one for a value that was taken. -/
theorem Inv.claimed (h : Inv T s c) (t : ι) {a i : ℕ} (hkey : key ≠ T.emptyKey) (hpast : Past T (s.shared.arrays a) key i)
    (hi : i < window (s.shared.arrays a).size)
    (hfree : (s.shared.arrays a).key (slotAt T (s.shared.arrays a) key i) = T.emptyKey)
    (ha : a ≤ c ∨ a = c + 1 ∧ Moving s.shared c ∧
      ∃ j, (s.shared.arrays c).key j = key ∧ (s.shared.arrays c).value j = T.migrateValue) :
    Inv T ⟨s.shared.setKey a (slotAt T (s.shared.arrays a) key i) key, s.threads⟩ c ∧
      Keeps T t s ⟨s.shared.setKey a (slotAt T (s.shared.arrays a) key i) key, s.threads⟩ := by
  set p := slotAt T (s.shared.arrays a) key i with hp
  have hgrows : ∀ b, Grows T (s.shared.arrays b) ((s.shared.setKey a p key).arrays b) := setKey_grows hfree
  have hstage : Moving (s.shared.setKey a p key) c → Moving s.shared c := fun hmoving =>
    ⟨hmoving.hashMap, hmoving.migrateFrom, hmoving.migrateTo, hmoving.allocated, hmoving.taskSize.trans setKey_size⟩
  have hinv : Inv T ⟨s.shared.setKey a p key, s.threads⟩ c := by
    refine ⟨⟨fun b => ?_, fun b hb q hq => ?_, ?_, fun hquiet => ?_, fun hmoving => ?_⟩, fun t => ?_, h.count,
      fun hmoving => ?_⟩
    · by_cases hb : b = a
      · subst hb
        rw [setKey_arrays]
        exact (h.shared.arrays b).setKey hpast hi hkey hfree
      · rw [setKey_arrays_ne hb]
        exact h.shared.arrays b
    · rw [setKey_size] at hq
      rw [setKey_value]
      exact h.shared.old b hb q hq
    · refine h.shared.stage.imp (fun hquiet => ?_) fun hmoving => ?_
      · exact ⟨hquiet.hashMap, hquiet.migrateFrom, hquiet.migrateTo, hquiet.migrateCnt, hquiet.allocated⟩
      · exact ⟨hmoving.hashMap, hmoving.migrateFrom, hmoving.migrateTo, hmoving.allocated,
          hmoving.taskSize.trans setKey_size.symm⟩
    · rw [setKey_value]
      exact h.shared.quiet_value ⟨hquiet.hashMap, hquiet.migrateFrom, hquiet.migrateTo, hquiet.migrateCnt, hquiet.allocated⟩
    · rw [setKey_value]
      exact h.shared.moving_value (hstage hmoving)
    · exact (h.threads t).mono le_rfl (fun b _ => hgrows b) fun _ => ⟨rfl, hgrows _, le_rfl⟩
    · have hmoves := h.moves (hstage hmoving)
      refine ⟨fun t q hq => ?_, hmoves.disjoint, fun q hq => ?_, fun t j old hj => ?_, hmoves.hands_ne, fun q hq => ?_⟩
      · rw [setKey_size]
        exact hmoves.covers_lt t q hq
      · rw [setKey_size] at hq
        rw [setKey_value]
        exact hmoves.taken_iff q hq
      · obtain ⟨hlt, htaken, hstored, hne, hslots⟩ := hmoves.hands t j old hj
        rw [setKey_size, setKey_value, setKey_value, (hgrows c).key_eq j hne]
        refine ⟨hlt, htaken, hstored, hne, fun q hq => ?_⟩
        by_cases hnew : c + 1 = a ∧ q = p
        · -- a slot without a key has no value
          obtain ⟨rfl, rfl⟩ := hnew
          by_contra hvalue
          exact (h.shared.arrays (c + 1)).stored_key _ ⟨hvalue, h.shared.moving_value (hstage hmoving) _⟩ hfree
        · exact hslots q ((setKey_other hnew).symm.trans hq)
      · by_cases hnew : c + 1 = a ∧ q = p
        · obtain ⟨rfl, rfl⟩ := hnew
          obtain ⟨-, -, j, hj, htaken⟩ := ha.resolve_left (by omega)
          refine ⟨j, ?_, by rwa [setKey_value]⟩
          rw [(hgrows c).key_eq j (hj.trans_ne hkey), hj, setKey_self]
        · rw [setKey_other hnew] at hq ⊢
          obtain ⟨j, hj, htaken⟩ := hmoves.made q hq
          exact ⟨j, ((hgrows c).key_eq j (hj.trans_ne hq)).trans hj, by rwa [setKey_value]⟩
  refine ⟨hinv, ⟨c, hinv⟩, fun key' value => ?_, fun key' value => ?_, fun b _ => hgrows b, le_rfl⟩
  · rintro ⟨hne, hstored, ⟨b, hb, q, hq, hvalue⟩ | ⟨t', j, b, hj, hfrom, hb⟩⟩
    · exact ⟨hne, hstored, Or.inl ⟨b, hb, q, ((hgrows b).key_eq q (hq.trans_ne hne)).trans hq, by rwa [setKey_value]⟩⟩
    · exact ⟨hne, hstored, Or.inr ⟨t', j, b, hj, hfrom, ((hgrows b).key_eq j (hb.trans_ne hne)).trans hb⟩⟩
  · rintro ⟨hne, hstored, ⟨b, hb, q, hq, hvalue⟩ | ⟨t', j, b, hj, hfrom, hb⟩⟩
    · rw [setKey_value] at hvalue
      have hold := (h.shared.arrays b).stored_key q (hvalue.symm ▸ hstored)
      exact Or.inl ⟨hne, hstored, Or.inl ⟨b, hb, q, ((hgrows b).key_eq q hold).symm.trans hq, hvalue⟩⟩
    · have hmoving := h.moving_of_migrates (migrates_of_hand hj)
      obtain rfl := Option.some.inj (hmoving.migrateFrom.symm.trans hfrom)
      have hold := ((h.moves hmoving).hands t' j value hj).2.2.2.1
      exact Or.inl ⟨hne, hstored, Or.inr ⟨t', j, c, hj, hfrom, ((hgrows c).key_eq j hold).symm.trans hb⟩⟩

omit [DecidableEq V] [DecidableEq ι] in
/-- A slot that is empty in the array in use or in the one that is moved gets a value. -/
theorem Inv.stored (h : Inv T s c) {a p : ℕ} {at_ : At K V} (hcall : s.threads t = .busy (.insert key value) at_)
    (hvalue : T.Stored value) (ha : a ≤ c) (hp : p < (s.shared.arrays a).size) (hkey : (s.shared.arrays a).key p = key)
    (hne : key ≠ T.emptyKey) (hempty : (s.shared.arrays a).value p = T.emptyValue) :
    Inv T ⟨s.shared.setValue a p value, s.threads⟩ c ∧ Keeps T t s ⟨s.shared.setValue a p value, s.threads⟩ ∧
      Holds T ⟨s.shared.setValue a p value, s.threads⟩ key value := by
  obtain rfl : a = c := by
    by_contra hac
    exact T.values_ne (hempty.symm.trans (h.shared.old a (by omega) p hp))
  have hgrows := setValue_grows (m := s.shared) (a := a) (p := p) hvalue.1
  have hquiet_iff : ∀ hquiet : Quiet (s.shared.setValue a p value) a, Quiet s.shared a := fun hquiet =>
    ⟨hquiet.hashMap, hquiet.migrateFrom, hquiet.migrateTo, hquiet.migrateCnt, hquiet.allocated⟩
  have hmoving_iff : Moving (s.shared.setValue a p value) a → Moving s.shared a := fun hmoving =>
    ⟨hmoving.hashMap, hmoving.migrateFrom, hmoving.migrateTo, hmoving.allocated, hmoving.taskSize.trans setValue_size⟩
  -- the slot had no value to be taken, and has none now
  have htaken_iff : ∀ q, ((s.shared.setValue a p value).arrays a).value q = T.migrateValue ↔
      (s.shared.arrays a).value q = T.migrateValue := by
    intro q
    by_cases hq : q = p
    · subst hq
      rw [setValue_self, hempty]
      exact iff_of_false hvalue.2 T.values_ne
    · rw [setValue_other (Or.inr hq)]
  have hinv : Inv T ⟨s.shared.setValue a p value, s.threads⟩ a := by
    refine ⟨⟨fun b => ?_, fun b hb q hq => ?_, ?_, fun hquiet q => ?_, fun hmoving => ?_⟩, fun t => ?_, h.count,
      fun hmoving => ?_⟩
    · by_cases hb : b = a
      · subst hb
        rw [setValue_arrays]
        exact (h.shared.arrays b).setValue hp fun _ => hkey.trans_ne hne
      · rw [setValue_arrays_ne hb]
        exact h.shared.arrays b
    · rw [setValue_size] at hq
      rw [setValue_other (Or.inl (Nat.ne_of_lt hb))]
      exact h.shared.old b hb q hq
    · refine h.shared.stage.imp (fun hquiet => ?_) fun hmoving => ?_
      · exact ⟨hquiet.hashMap, hquiet.migrateFrom, hquiet.migrateTo, hquiet.migrateCnt, hquiet.allocated⟩
      · exact ⟨hmoving.hashMap, hmoving.migrateFrom, hmoving.migrateTo, hmoving.allocated,
          hmoving.taskSize.trans setValue_size.symm⟩
    · exact fun htaken => h.shared.quiet_value (hquiet_iff hquiet) q ((htaken_iff q).mp htaken)
    · rw [setValue_arrays_ne (Nat.succ_ne_self a)]
      exact h.shared.moving_value (hmoving_iff hmoving)
    · exact (h.threads t).mono le_rfl (fun b _ => hgrows b) fun _ => ⟨rfl, hgrows _, le_rfl⟩
    · have hmoves := h.moves (hmoving_iff hmoving)
      refine ⟨fun t q hq => ?_, hmoves.disjoint, fun q hq => ?_, fun t j old hj => ?_, hmoves.hands_ne, fun q hq => ?_⟩
      · rw [setValue_size]
        exact hmoves.covers_lt t q hq
      · rw [setValue_size] at hq
        exact (htaken_iff q).trans (hmoves.taken_iff q hq)
      · rw [setValue_size, htaken_iff, setValue_key, setValue_arrays_ne (Nat.succ_ne_self a)]
        exact hmoves.hands t j old hj
      · rw [setValue_arrays_ne (Nat.succ_ne_self a)] at hq ⊢
        obtain ⟨j, hj, htaken⟩ := hmoves.made q hq
        exact ⟨j, by rwa [setValue_key], (htaken_iff j).mpr htaken⟩
  refine ⟨hinv, ⟨⟨a, hinv⟩, fun key' value' => ?_, fun key' value' => ?_, fun b _ => hgrows b, le_rfl⟩, ?_⟩
  · rintro ⟨hne', hstored, ⟨b, hb, q, hq, hvalue'⟩ | ⟨t', j, b, hj, hfrom, hb⟩⟩
    · have hother : b ≠ a ∨ q ≠ p := by
        by_contra hboth
        obtain ⟨rfl, rfl⟩ : b = a ∧ q = p := by omega
        exact hstored.1 (hvalue'.symm.trans hempty)
      exact ⟨hne', hstored, Or.inl ⟨b, hb, q, by rwa [setValue_key], by rwa [setValue_other hother]⟩⟩
    · exact ⟨hne', hstored, Or.inr ⟨t', j, b, hj, hfrom, by rwa [setValue_key]⟩⟩
  · rintro ⟨hne', hstored, ⟨b, hb, q, hq, hvalue'⟩ | ⟨t', j, b, hj, hfrom, hb⟩⟩
    · rw [setValue_key] at hq
      by_cases hsame : b = a ∧ q = p
      · obtain ⟨rfl, rfl⟩ := hsame
        rw [setValue_self] at hvalue'
        obtain rfl := hkey.symm.trans hq
        obtain rfl := hvalue'
        exact Or.inr ⟨at_, hcall⟩
      · rw [setValue_other (by omega)] at hvalue'
        exact Or.inl ⟨hne', hstored, Or.inl ⟨b, hb, q, hq, hvalue'⟩⟩
    · rw [setValue_key] at hb
      exact Or.inl ⟨hne', hstored, Or.inr ⟨t', j, b, hj, hfrom, hb⟩⟩
  · have hallocated : a < s.shared.allocated := by
      rcases h.shared.stage with hquiet | hmoving
      · rw [hquiet.allocated]
        exact Nat.lt_succ_self a
      · rw [hmoving.allocated]
        omega
    exact ⟨hne, hvalue, Or.inl ⟨a, hallocated, p, by rwa [setValue_key], setValue_self⟩⟩

omit [DecidableEq V] [DecidableEq ι] in
theorem Inv.not_migrates (h : Inv T s c) (hcnt : s.shared.migrateCnt = 0) (t : ι) : migrates (s.threads t) = false := by
  rw [← Bool.not_eq_true]
  intro ht
  have hpos := tally_pos ht
  rw [h.count, hcnt] at hpos
  exact absurd hpos (Nat.lt_irrefl 0)

omit [DecidableEq V] [DecidableEq ι] in
/-- The next array is made. -/
theorem Inv.begun (h : Inv T s c) (t : ι) (hquiet : Quiet s.shared c) :
    Moving (beginMigrate T s.shared c) c ∧ Inv T ⟨beginMigrate T s.shared c, s.threads⟩ c ∧
      Keeps T t s ⟨beginMigrate T s.shared c, s.threads⟩ := by
  have hnone : ∀ t, migrates (s.threads t) = false := h.not_migrates hquiet.migrateCnt
  have hno : ∀ {t : ι} {P : Prop}, migrates (s.threads t) = true → P := fun {t} _ ht =>
    absurd ((hnone t).symm.trans ht) Bool.false_ne_true
  have hsame : ∀ {b : ℕ}, b ≤ c → (beginMigrate T s.shared c).arrays b = s.shared.arrays b := fun {b} hb =>
    Function.update_of_ne (by rw [hquiet.allocated]; omega) _ _
  have hnew : (beginMigrate T s.shared c).arrays (c + 1) = newArray T ((s.shared.arrays c).size * 2) := by
    rw [← hquiet.allocated]
    exact Function.update_self _ _ _
  have hmoving : Moving (beginMigrate T s.shared c) c :=
    ⟨rfl, rfl, congrArg some hquiet.allocated, congrArg (· + 1) hquiet.allocated, by rw [hsame le_rfl]; rfl⟩
  have hinv : Inv T ⟨beginMigrate T s.shared c, s.threads⟩ c := by
    refine ⟨⟨fun b => ?_, fun b hb => ?_, Or.inr hmoving, fun hquiet' => absurd hquiet' (not_quiet_of_moving hmoving),
      fun _ p => ?_⟩, fun t => ?_, h.count, fun _ => ?_⟩
    · by_cases hb : b = s.shared.allocated
      · rw [hb, hquiet.allocated, hnew]
        have hpos := (h.shared.arrays c).size_pos
        exact arrayOk_newArray (by omega)
      · have hother : (beginMigrate T s.shared c).arrays b = s.shared.arrays b := Function.update_of_ne hb _ _
        dsimp only
        rw [hother]
        exact h.shared.arrays b
    · dsimp only
      rw [hsame hb.le]
      exact h.shared.old b hb
    · dsimp only
      rw [hnew]
      exact T.values_ne
    · exact (h.threads t).mono le_rfl (fun b hb => by dsimp only; rw [hsame hb]; exact .refl _) fun ht => hno ht
    · refine ⟨fun t p hp => hno (migrates_of_covers hp), fun t t' p _ hp => hno (migrates_of_covers hp), fun p _ => ?_,
        fun t j old hj => hno (migrates_of_hand hj), fun t t' j old old' _ hj => hno (migrates_of_hand hj),
        fun p hp => ?_⟩
      · dsimp only
        rw [hsame le_rfl]
        exact iff_of_false (h.shared.quiet_value hquiet p) fun hp => Nat.not_lt_zero _ (Nat.zero_mul 100 ▸ hp.1)
      · dsimp only at hp
        rw [hnew] at hp
        exact absurd rfl hp
  have hbelow : ∀ {b : ℕ}, b < s.shared.allocated → b ≤ c := fun {b} hb => by
    rw [hquiet.allocated] at hb
    omega
  refine ⟨hmoving, hinv, ⟨c, hinv⟩, fun key value => ?_, fun key value => ?_, fun b hb => ?_, Nat.le_succ _⟩
  · rintro ⟨hne, hstored, ⟨b, hb, p, hp, hvalue⟩ | ⟨t', j, b, hj, -, -⟩⟩
    · refine ⟨hne, hstored, Or.inl ⟨b, Nat.lt_succ_of_lt hb, p, ?_⟩⟩
      dsimp only
      rw [hsame (hbelow hb)]
      exact ⟨hp, hvalue⟩
    · exact hno (migrates_of_hand hj)
  · rintro ⟨hne, hstored, ⟨b, hb, p, hp, hvalue⟩ | ⟨t', j, b, hj, -, -⟩⟩
    · dsimp only at hp hvalue
      have hb' : b < s.shared.allocated := by
        refine Nat.lt_of_le_of_ne (Nat.lt_succ_iff.mp hb) fun heq => ?_
        rw [heq, hquiet.allocated, hnew] at hvalue
        exact hstored.1 hvalue.symm
      rw [hsame (hbelow hb')] at hp hvalue
      exact Or.inl ⟨hne, hstored, Or.inl ⟨b, hb', p, hp, hvalue⟩⟩
    · exact hno (migrates_of_hand hj)
  · dsimp only
    rw [hsame (hbelow hb)]
    exact .refl _

/-! ### Steps of a migration -/

omit [DecidableEq V] in
/-- A thread takes part in the migration. -/
theorem Inv.entered (h : Inv T s c) {call : Call K V} {ptr : Option ℕ} (hat : s.threads t = .busy call (.enter ptr))
    (generation : ℕ) : 
    let s' : ConcurrentHashMap ι K V := ⟨{ s.shared with migrateCnt := s.shared.migrateCnt + 1 },
      Function.update s.threads t (.busy call (.create generation))⟩
    Moving s.shared c → Inv T s' c ∧ Keeps T t s s' := by
  intro s' hmoving
  have hcovers : ∀ p, Covers (Thread.busy call (.create generation)) p ↔ Covers (s.threads t) p := by
    rw [hat]
    exact fun _ => Iff.rfl
  have hhand : hand (Thread.busy call (.create generation)) = hand (s.threads t) := by
    rw [hat]
    rfl
  have hok : ThreadOk T s.shared c (Thread.busy call (.create generation)) := by
    have hthread := h.threads t
    rw [hat] at hthread
    exact ⟨hthread.1, trivial⟩
  have hmoving' : Moving s'.shared c :=
    ⟨hmoving.hashMap, hmoving.migrateFrom, hmoving.migrateTo, hmoving.allocated, hmoving.taskSize⟩
  have hinv : Inv T s' c := by
    refine ⟨⟨h.shared.arrays, h.shared.old, Or.inr hmoving', fun hquiet => absurd hquiet (not_quiet_of_moving hmoving'),
      fun _ => h.shared.moving_value hmoving⟩, fun t' => ?_, ?_, fun _ => ?_⟩
    · exact (threadOk_update h.threads hok t').mono le_rfl (fun _ _ => .refl _) fun _ => ⟨rfl, .refl _, le_rfl⟩
    · have htally := tally_update migrates s.threads t (.busy call (.create generation))
      rw [hat, h.count] at htally
      exact htally
    · have hmoves := (h.moves hmoving).congr (covers_update hcovers) (hand_update hhand)
      exact ⟨hmoves.covers_lt, hmoves.disjoint, hmoves.taken_iff, hmoves.hands, hmoves.hands_ne, hmoves.made⟩
  exact ⟨hinv, .of_same hinv rfl rfl rfl (hand_update hhand)⟩

omit [DecidableEq K] [DecidableEq V] in
/-- The fields of a stage that no atomic step changes. -/
theorem Moving.congr {m' : Shared K V} (h : Moving m c) (hmap : m'.hashMap = m.hashMap)
    (hfrom : m'.migrateFrom = m.migrateFrom) (hto : m'.migrateTo = m.migrateTo) (hallocated : m'.allocated = m.allocated)
    (htask : m'.taskSize = m.taskSize) (hsize : (m'.arrays c).size = (m.arrays c).size) : Moving m' c :=
  ⟨hmap.trans h.hashMap, hfrom.trans h.migrateFrom, hto.trans h.migrateTo, hallocated.trans h.allocated,
    (htask.trans h.taskSize).trans hsize.symm⟩

omit [DecidableEq V] in
/-- A thread gets the next chunk, or leaves if there is none. -/
theorem Inv.created (h : Inv T s c) {call : Call K V} {generation : ℕ} (hat : s.threads t = .busy call (.create generation)) :
    let task := createTask s.shared.taskSize s.shared.taskPos
    let s' : ConcurrentHashMap ι K V := ⟨{ s.shared with taskPos := s.shared.taskPos + 1 }, Function.update s.threads t
      (.busy call (if task.empty then .leave generation else .take generation task.begin_ task.end_))⟩
    Inv T s' c ∧ Keeps T t s s' := by
  intro task s'
  have hmoving := h.moving_of_migrates (t := t) (by rw [hat]; rfl)
  have hmoving' : Moving s'.shared c := hmoving.congr rfl rfl rfl rfl rfl rfl
  have hmoves := h.moves hmoving
  have hthread := h.threads t
  rw [hat] at hthread
  have hbegin : task.begin_ = s.shared.taskPos * 100 := rfl
  have hend : task.end_ = min (s.shared.taskPos * 100 + 100) (s.shared.arrays c).size := by
    rw [← hmoving.taskSize]
    rfl
  -- the thread gets the places of the chunk that are in the array
  obtain ⟨next, hnext, hcovers, hmigrates, hhand, hok⟩ : ∃ next : Thread K V, s'.threads = Function.update s.threads t next ∧
      (∀ p, Covers next p ↔ s.shared.taskPos * 100 ≤ p ∧ p < s.shared.taskPos * 100 + 100 ∧ p < (s.shared.arrays c).size) ∧
      migrates next = true ∧ hand next = none ∧ ThreadOk T s'.shared c next := by
    refine ⟨_, rfl, ?_⟩
    cases hempty : task.empty with
    | true =>
      have hle : task.end_ ≤ task.begin_ := of_decide_eq_true hempty
      rw [if_pos rfl]
      refine ⟨fun p => ⟨False.elim, fun hp => ?_⟩, rfl, rfl, hthread.1, ?_⟩
      · omega
      · change (s.shared.arrays c).size ≤ (s.shared.taskPos + 1) * 100
        omega
    | false =>
      have hlt : ¬ task.end_ ≤ task.begin_ := of_decide_eq_false hempty
      rw [if_neg Bool.false_ne_true]
      refine ⟨fun p => ?_, rfl, rfl, hthread.1, trivial⟩
      change task.begin_ ≤ p ∧ p < task.end_ ↔ _
      omega
  have hcovers' : ∀ t' p, Covers (s'.threads t') p ↔ t' = t ∧ s.shared.taskPos * 100 ≤ p ∧
      p < s.shared.taskPos * 100 + 100 ∧ p < (s.shared.arrays c).size ∨ Covers (s.threads t') p := by
    intro t' p
    rw [hnext]
    by_cases ht : t' = t
    · subst ht
      rw [Function.update_self, hcovers, hat]
      simp [Covers]
    · rw [Function.update_of_ne ht]
      simp [ht]
  have hhand' : ∀ t', hand (s'.threads t') = hand (s.threads t') := by
    intro t'
    rw [hnext]
    exact hand_update (hhand.trans (by rw [hat]; rfl)) t'
  have hinv : Inv T s' c := by
    refine ⟨⟨h.shared.arrays, h.shared.old, Or.inr hmoving', fun hquiet => absurd hquiet (not_quiet_of_moving hmoving'),
      fun _ => h.shared.moving_value hmoving⟩, fun t' => ?_, ?_, fun _ => ?_⟩
    · rw [hnext]
      by_cases ht : t' = t
      · subst ht
        rw [Function.update_self]
        exact hok
      · rw [Function.update_of_ne ht]
        exact (h.threads t').mono le_rfl (fun _ _ => .refl _) fun _ => ⟨rfl, .refl _, Nat.le_succ _⟩
    · have htally := tally_update migrates s.threads t next
      rw [hat, hmigrates, show migrates (Thread.busy call (At.create generation)) = true from rfl] at htally
      rw [hnext]
      exact (Nat.add_right_cancel htally).trans h.count
    · refine ⟨fun t' p hp => ?_, fun t₁ t₂ p hne hp hp' => ?_, fun p hp => ?_, fun t' j old hj => ?_,
        fun t₁ t₂ j old old' hne hj => ?_, hmoves.made⟩
      · change p < (s.shared.taskPos + 1) * 100 ∧ p < (s.shared.arrays c).size
        rcases (hcovers' t' p).mp hp with ⟨-, hp⟩ | hp
        · omega
        · have := hmoves.covers_lt t' p hp
          omega
      · rcases (hcovers' t₁ p).mp hp with ⟨h₁, hnew₁⟩ | hold₁ <;>
          rcases (hcovers' t₂ p).mp hp' with ⟨h₂, hnew₂⟩ | hold₂
        · exact hne (h₁.trans h₂.symm)
        · have := hmoves.covers_lt t₂ p hold₂
          omega
        · have := hmoves.covers_lt t₁ p hold₁
          omega
        · exact hmoves.disjoint t₁ t₂ p hne hold₁ hold₂
      · have hsize : p < (s.shared.arrays c).size := hp
        refine (hmoves.taken_iff p hp).trans ?_
        change _ ↔ p < (s.shared.taskPos + 1) * 100 ∧ _
        constructor
        · rintro ⟨hlt, hnot⟩
          refine ⟨by omega, fun t' hp' => ?_⟩
          rcases (hcovers' t' p).mp hp' with ⟨-, hp'⟩ | hp'
          · omega
          · exact hnot t' hp'
        · rintro ⟨hlt, hnot⟩
          have hhere := hnot t
          rw [hcovers'] at hhere
          refine ⟨?_, fun t' hp' => hnot t' ((hcovers' t' p).mpr (Or.inr hp'))⟩
          by_contra hge
          exact hhere (Or.inl ⟨rfl, by omega, by omega, hsize⟩)
      · exact hmoves.hands t' j old ((hhand' t').symm.trans hj)
      · rw [hhand']
        exact hmoves.hands_ne t₁ t₂ j old old' hne ((hhand' t₁).symm.trans hj)
  exact ⟨hinv, .of_same hinv rfl rfl rfl hhand'⟩

/-- A thread takes the value of the next place of its task. -/
theorem Inv.took (h : Inv T s c) {call : Call K V} {generation j end_ : ℕ}
    (hat : s.threads t = .busy call (.take generation j end_)) (hj : j < end_) :
    let old := (s.shared.arrays c).value j
    let s' : ConcurrentHashMap ι K V := ⟨s.shared.setValue c j T.migrateValue, Function.update s.threads t
      (.busy call (if old = T.emptyValue then .take generation (j + 1) end_ else .load generation j end_ old))⟩
    Inv T s' c ∧ Keeps T t s s' := by
  intro old s'
  have hmoving := h.moving_of_migrates (t := t) (by rw [hat]; rfl)
  have hmoving' : Moving s'.shared c := hmoving.congr rfl rfl rfl rfl rfl setValue_size
  have hmoves := h.moves hmoving
  have hthread := h.threads t
  rw [hat] at hthread
  have hcover : Covers (s.threads t) j := by
    rw [hat]
    exact ⟨le_rfl, hj⟩
  have hsize := (hmoves.covers_lt t j hcover).2
  have hpos := (hmoves.covers_lt t j hcover).1
  have hnew : old ≠ T.migrateValue := fun htaken => ((hmoves.taken_iff j hsize).mp htaken).2 t hcover
  have hgrows := setValue_grows (m := s.shared) (a := c) (p := j) T.values_ne.symm
  obtain ⟨next, hnext, hcovers, hmigrates, hhand, hok⟩ : ∃ next : Thread K V, s'.threads = Function.update s.threads t next ∧
      (∀ p, Covers next p ↔ j < p ∧ p < end_) ∧ migrates next = true ∧
      hand next = (if old = T.emptyValue then none else some (j, old)) ∧ ThreadOk T s'.shared c next := by
    refine ⟨_, rfl, ?_⟩
    split_ifs with hempty
    · exact ⟨fun p => Iff.rfl, rfl, rfl, hthread.1, trivial⟩
    · exact ⟨fun p => Iff.rfl, rfl, rfl, hthread.1, trivial⟩
  have hcovers' : ∀ t' p, Covers (s'.threads t') p ↔ Covers (s.threads t') p ∧ p ≠ j := by
    intro t' p
    rw [hnext]
    by_cases ht : t' = t
    · subst ht
      rw [Function.update_self, hcovers, hat]
      change _ ↔ (j ≤ p ∧ p < end_) ∧ p ≠ j
      omega
    · rw [Function.update_of_ne ht]
      exact (and_iff_left_of_imp fun hp (heq : p = j) => hmoves.disjoint t' t p ht hp (by rwa [heq])).symm
  have hhand' : ∀ t' j' old', hand (s'.threads t') = some (j', old') ↔
      t' = t ∧ old ≠ T.emptyValue ∧ j' = j ∧ old' = old ∨ hand (s.threads t') = some (j', old') := by
    intro t' j' old'
    rw [hnext]
    by_cases ht : t' = t
    · subst ht
      rw [Function.update_self, hhand, hat]
      split_ifs with hempty
      · simp [hempty, hand]
      · simp only [hempty, hand, ne_eq, not_false_eq_true, true_and, Option.some.injEq, Prod.mk.injEq, reduceCtorEq, or_false]
        exact ⟨fun heq => ⟨heq.1.symm, heq.2.symm⟩, fun heq => ⟨heq.1.symm, heq.2.symm⟩⟩
    · rw [Function.update_of_ne ht]
      simp [ht]
  have hcount : tally migrates s'.threads = s.shared.migrateCnt := by
    have htally := tally_update migrates s.threads t next
    rw [hat, hmigrates, show migrates (Thread.busy call (At.take generation j end_)) = true from rfl] at htally
    rw [hnext]
    exact (Nat.add_right_cancel htally).trans h.count
  have hnext_arrays : s'.shared.arrays (c + 1) = s.shared.arrays (c + 1) := setValue_arrays_ne (Nat.succ_ne_self c)
  have htaken : ∀ p, (s'.shared.arrays c).value p = T.migrateValue ↔ p = j ∨ (s.shared.arrays c).value p = T.migrateValue := by
    intro p
    by_cases hp : p = j
    · subst hp
      exact iff_of_true setValue_self (Or.inl rfl)
    · rw [show (s'.shared.arrays c).value p = (s.shared.arrays c).value p from setValue_other (Or.inr hp)]
      simp [hp]
  -- a value that has not been taken is not in the new array
  have hfresh : old ≠ T.emptyValue → ∀ p, (s.shared.arrays (c + 1)).key p ≠ (s.shared.arrays c).key j := by
    intro hempty p hp
    have hkey := (h.shared.arrays c).stored_key j ⟨hempty, hnew⟩
    obtain ⟨j', hj', htaken'⟩ := hmoves.made p (hp.trans_ne hkey)
    obtain rfl := (h.shared.arrays c).unique hkey (hj'.trans hp)
    exact hnew htaken'
  have hinv : Inv T s' c := by
    refine ⟨⟨fun b => ?_, fun b hb q hq => ?_, Or.inr hmoving', fun hquiet => absurd hquiet (not_quiet_of_moving hmoving'),
      fun _ => ?_⟩, fun t' => ?_, hcount, fun _ => ?_⟩
    · by_cases hb : b = c
      · subst hb
        change ArrayOk T ((s.shared.setValue b j T.migrateValue).arrays b)
        rw [setValue_arrays]
        exact (h.shared.arrays b).setValue hsize fun hstored => absurd rfl hstored.2
      · change ArrayOk T ((s.shared.setValue c j T.migrateValue).arrays b)
        rw [setValue_arrays_ne hb]
        exact h.shared.arrays b
    · change q < ((s.shared.setValue c j T.migrateValue).arrays b).size at hq
      rw [setValue_size] at hq
      exact (setValue_other (Or.inl (Nat.ne_of_lt hb))).trans (h.shared.old b hb q hq)
    · rw [hnext_arrays]
      exact h.shared.moving_value hmoving
    · rw [hnext]
      by_cases ht : t' = t
      · subst ht
        rw [Function.update_self]
        exact hok
      · rw [Function.update_of_ne ht]
        exact (h.threads t').mono le_rfl (fun b _ => hgrows b) fun _ => ⟨rfl, hgrows _, le_rfl⟩
    · refine ⟨fun t' p hp => ?_, fun t₁ t₂ p hne hp hp' => ?_, fun p hp => ?_, fun t' j' old' hj' => ?_,
        fun t₁ t₂ j' old₁ old₂ hne hj₁ hj₂ => ?_, fun p hp => ?_⟩
      · rw [show (s'.shared.arrays c).size = (s.shared.arrays c).size from setValue_size]
        exact hmoves.covers_lt t' p ((hcovers' t' p).mp hp).1
      · exact hmoves.disjoint t₁ t₂ p hne ((hcovers' t₁ p).mp hp).1 ((hcovers' t₂ p).mp hp').1
      · rw [show (s'.shared.arrays c).size = (s.shared.arrays c).size from setValue_size] at hp
        rw [htaken, hmoves.taken_iff p hp]
        constructor
        · rintro (rfl | ⟨hlt, hnot⟩)
          · exact ⟨hpos, fun t' hp' => ((hcovers' t' p).mp hp').2 rfl⟩
          · exact ⟨hlt, fun t' hp' => hnot t' ((hcovers' t' p).mp hp').1⟩
        · rintro ⟨hlt, hnot⟩
          by_cases heq : p = j
          · exact Or.inl heq
          · exact Or.inr ⟨hlt, fun t' hp' => hnot t' ((hcovers' t' p).mpr ⟨hp', heq⟩)⟩
      · rw [show (s'.shared.arrays c).size = (s.shared.arrays c).size from setValue_size, htaken, hnext_arrays,
          show (s'.shared.arrays c).key = (s.shared.arrays c).key from setValue_key]
        rcases (hhand' t' j' old').mp hj' with ⟨-, hempty, rfl, rfl⟩ | hj'
        · exact ⟨hsize, Or.inl rfl, ⟨hempty, hnew⟩, (h.shared.arrays c).stored_key _ ⟨hempty, hnew⟩,
            fun p hp => absurd hp (hfresh hempty p)⟩
        · obtain ⟨hlt, htaken', hstored, hne, hslots⟩ := hmoves.hands t' j' old' hj'
          exact ⟨hlt, Or.inr htaken', hstored, hne, hslots⟩
      · rcases (hhand' t₁ j' old₁).mp hj₁ with ⟨h₁, -, hj₁', -⟩ | hj₁ <;>
          rcases (hhand' t₂ j' old₂).mp hj₂ with ⟨h₂, -, hj₂', -⟩ | hj₂
        · exact hne (h₁.trans h₂.symm)
        · rw [hj₁'] at hj₂
          exact hnew (hmoves.hands t₂ j old₂ hj₂).2.1
        · rw [hj₂'] at hj₁
          exact hnew (hmoves.hands t₁ j old₁ hj₁).2.1
        · exact hmoves.hands_ne t₁ t₂ j' old₁ old₂ hne hj₁ hj₂
      · rw [hnext_arrays] at hp ⊢
        obtain ⟨j', hj', htaken'⟩ := hmoves.made p hp
        exact ⟨j', (congrFun setValue_key j').trans hj', (htaken j').mpr (Or.inr htaken')⟩
  have hkeys : ∀ b, (s'.shared.arrays b).key = (s.shared.arrays b).key := fun b => setValue_key
  refine ⟨hinv, ⟨c, hinv⟩, fun key value => ?_, fun key value => ?_, fun b _ => hgrows b, le_rfl⟩
  · rintro ⟨hne, hstored, ⟨b, hb, q, hq, hvalue⟩ | ⟨t', j', b, hj', hfrom, hb⟩⟩
    · by_cases hsame : b = c ∧ q = j
      · obtain ⟨rfl, rfl⟩ := hsame
        have hold : old ≠ T.emptyValue := fun heq => hstored.1 (hvalue.symm.trans heq)
        exact ⟨hne, hstored, Or.inr ⟨t, q, b, (hhand' t q value).mpr (Or.inl ⟨rfl, hold, rfl, hvalue.symm⟩),
          hmoving.migrateFrom, by rwa [hkeys]⟩⟩
      · exact ⟨hne, hstored, Or.inl ⟨b, hb, q, by rwa [hkeys], (setValue_other (by omega)).trans hvalue⟩⟩
    · exact ⟨hne, hstored, Or.inr ⟨t', j', b, (hhand' t' j' value).mpr (Or.inr hj'), hfrom, by rwa [hkeys]⟩⟩
  · rintro ⟨hne, hstored, ⟨b, hb, q, hq, hvalue⟩ | ⟨t', j', b, hj', hfrom, hb⟩⟩
    · rw [hkeys] at hq
      have hother : ¬ (b = c ∧ q = j) := by
        rintro ⟨rfl, rfl⟩
        exact hstored.2 (hvalue.symm.trans setValue_self)
      exact Or.inl ⟨hne, hstored, Or.inl ⟨b, hb, q, hq, (setValue_other (by omega)).symm.trans hvalue⟩⟩
    · rw [hkeys] at hb
      have hfrom : s.shared.migrateFrom = some b := hfrom
      obtain rfl := Option.some.inj (hmoving.migrateFrom.symm.trans hfrom)
      rcases (hhand' t' j' value).mp hj' with ⟨-, -, rfl, rfl⟩ | hj'
      · exact Or.inl ⟨hne, hstored, Or.inl ⟨c, by rw [hmoving.allocated]; omega, j', hb, rfl⟩⟩
      · exact Or.inl ⟨hne, hstored, Or.inr ⟨t', j', c, hj', hfrom, hb⟩⟩

omit [DecidableEq V] in
/-- A thread puts the value that it has taken in the slot of its key. -/
theorem Inv.put (h : Inv T s c) {call : Call K V} {generation j end_ i : ℕ} {old : V}
    (hat : s.threads t = .busy call (.moveStore generation j end_ old key i)) :
    let p := slotAt T (s.shared.arrays (c + 1)) key i
    let s' : ConcurrentHashMap ι K V := ⟨s.shared.setValue (c + 1) p old, Function.update s.threads t
      (.busy call (.take generation (j + 1) end_))⟩
    Inv T s' c ∧ Keeps T t s s' := by
  intro p s'
  have hmoving := h.moving_of_migrates (t := t) (by rw [hat]; rfl)
  have hc : c ≠ c + 1 := (Nat.succ_ne_self c).symm
  have harray : s'.shared.arrays c = s.shared.arrays c := setValue_arrays_ne hc
  have hmoving' : Moving s'.shared c := hmoving.congr rfl rfl rfl rfl rfl setValue_size
  have hmoves := h.moves hmoving
  have hthread := h.threads t
  rw [hat] at hthread
  obtain ⟨hcall, hne, hkeyj, hslot⟩ := hthread
  have hhere : hand (s.threads t) = some (j, old) := by
    rw [hat]
    rfl
  obtain ⟨-, -, hstored, -, hslots⟩ := hmoves.hands t j old hhere
  have hempty : (s.shared.arrays (c + 1)).value p = T.emptyValue := hslots p (hslot.trans hkeyj.symm)
  have hgrows := setValue_grows (m := s.shared) (a := c + 1) (p := p) hstored.1
  have hcovers : ∀ t' q, Covers (s'.threads t') q ↔ Covers (s.threads t') q := by
    refine covers_update fun q => ?_
    rw [hat]
    exact Iff.and Nat.succ_le_iff Iff.rfl
  have hhand' : ∀ t' j' old', hand (s'.threads t') = some (j', old') ↔ t' ≠ t ∧ hand (s.threads t') = some (j', old') := by
    intro t' j' old'
    by_cases ht : t' = t
    · subst ht
      change hand (Function.update s.threads t' _ t') = _ ↔ _
      rw [Function.update_self]
      simp [hand]
    · change hand (Function.update s.threads t _ t') = _ ↔ _
      rw [Function.update_of_ne ht]
      simp [ht]
  have hkeys : ∀ b, (s'.shared.arrays b).key = (s.shared.arrays b).key := fun b => setValue_key
  have hinv : Inv T s' c := by
    refine ⟨⟨fun b => ?_, fun b hb q hq => ?_, Or.inr hmoving', fun hquiet => absurd hquiet (not_quiet_of_moving hmoving'),
      fun _ q => ?_⟩, fun t' => ?_, ?_, fun _ => ?_⟩
    · by_cases hb : b = c + 1
      · subst hb
        change ArrayOk T ((s.shared.setValue (c + 1) p old).arrays (c + 1))
        rw [setValue_arrays]
        exact (h.shared.arrays _).setValue (slotAt_lt (h.shared.arrays _).size_pos key i) fun _ => hslot.trans_ne hne
      · change ArrayOk T ((s.shared.setValue (c + 1) p old).arrays b)
        rw [setValue_arrays_ne hb]
        exact h.shared.arrays b
    · change q < ((s.shared.setValue (c + 1) p old).arrays b).size at hq
      rw [setValue_size] at hq
      exact (setValue_other (Or.inl (by omega))).trans (h.shared.old b hb q hq)
    · by_cases hq : q = p
      · subst hq
        exact setValue_self.trans_ne hstored.2
      · exact (setValue_other (Or.inr hq)).trans_ne (h.shared.moving_value hmoving q)
    · by_cases ht : t' = t
      · subst ht
        change ThreadOk T _ c (Function.update s.threads t' _ t')
        rw [Function.update_self]
        exact ⟨hcall, trivial⟩
      · change ThreadOk T _ c (Function.update s.threads t _ t')
        rw [Function.update_of_ne ht]
        exact (h.threads t').mono le_rfl (fun b _ => hgrows b) fun _ => ⟨rfl, hgrows _, le_rfl⟩
    · have htally := tally_update migrates s.threads t (.busy call (.take generation (j + 1) end_))
      rw [hat] at htally
      exact (Nat.add_right_cancel htally).trans h.count
    · refine ⟨fun t' q hq => ?_, fun t₁ t₂ q hne hq hq' => ?_, fun q hq => ?_, fun t' j' old' hj' => ?_,
        fun t₁ t₂ j' old₁ old₂ hne hj₁ hj₂ => ?_, fun q hq => ?_⟩
      · rw [harray]
        exact hmoves.covers_lt t' q ((hcovers t' q).mp hq)
      · exact hmoves.disjoint t₁ t₂ q hne ((hcovers t₁ q).mp hq) ((hcovers t₂ q).mp hq')
      · rw [harray] at hq ⊢
        exact (hmoves.taken_iff q hq).trans (and_congr_right fun _ => forall_congr' fun t' => not_congr (hcovers t' q).symm)
      · obtain ⟨ht, hj'⟩ := (hhand' t' j' old').mp hj'
        rw [harray, hkeys]
        obtain ⟨hlt, htaken, hstored', hne', hslots'⟩ := hmoves.hands t' j' old' hj'
        refine ⟨hlt, htaken, hstored', hne', fun q hq => ?_⟩
        -- another thread has another key
        have hqp : q ≠ p := by
          rintro rfl
          obtain rfl := (h.shared.arrays c).unique hne' (hkeyj.trans (hslot.symm.trans hq))
          exact hmoves.hands_ne t t' j old old' (Ne.symm ht) hhere hj'
        exact (setValue_other (Or.inr hqp)).trans (hslots' q hq)
      · exact hmoves.hands_ne t₁ t₂ j' old₁ old₂ hne ((hhand' t₁ j' old₁).mp hj₁).2 ((hhand' t₂ j' old₂).mp hj₂).2
      · rw [harray]
        rw [hkeys] at hq ⊢
        exact hmoves.made q hq
  refine ⟨hinv, ⟨c, hinv⟩, fun key' value => ?_, fun key' value => ?_, fun b _ => hgrows b, le_rfl⟩
  · rintro ⟨hne', hstored', ⟨b, hb, q, hq, hvalue⟩ | ⟨t', j', b, hj', hfrom, hb⟩⟩
    · have hother : b ≠ c + 1 ∨ q ≠ p := by
        by_contra hboth
        obtain ⟨rfl, rfl⟩ : b = c + 1 ∧ q = p := by omega
        exact hstored'.1 (hvalue.symm.trans hempty)
      exact ⟨hne', hstored', Or.inl ⟨b, hb, q, by rwa [hkeys], (setValue_other hother).trans hvalue⟩⟩
    · obtain rfl := Option.some.inj (hmoving.migrateFrom.symm.trans hfrom)
      by_cases ht : t' = t
      · subst ht
        obtain ⟨rfl, rfl⟩ := Prod.mk.inj (Option.some.inj (hhere.symm.trans hj'))
        refine ⟨hne', hstored', Or.inl ⟨c + 1, ?_, p, ?_, setValue_self⟩⟩
        · change c + 1 < s.shared.allocated
          rw [hmoving.allocated]
          exact Nat.lt_succ_self _
        · rw [hkeys]
          exact hslot.trans (hkeyj.symm.trans hb)
      · exact ⟨hne', hstored', Or.inr ⟨t', j', c, (hhand' t' j' value).mpr ⟨ht, hj'⟩, hfrom, by rwa [hkeys]⟩⟩
  · rintro ⟨hne', hstored', ⟨b, hb, q, hq, hvalue⟩ | ⟨t', j', b, hj', hfrom, hb⟩⟩
    · rw [hkeys] at hq
      by_cases hsame : b = c + 1 ∧ q = p
      · obtain ⟨rfl, rfl⟩ := hsame
        obtain rfl : old = value := setValue_self.symm.trans hvalue
        exact Or.inl ⟨hne', hstored', Or.inr ⟨t, j, c, hhere, hmoving.migrateFrom, hkeyj.trans (hslot.symm.trans hq)⟩⟩
      · exact Or.inl ⟨hne', hstored', Or.inl ⟨b, hb, q, hq, (setValue_other (by omega)).symm.trans hvalue⟩⟩
    · rw [hkeys] at hb
      exact Or.inl ⟨hne', hstored', Or.inr ⟨t', j', b, ((hhand' t' j' value).mp hj').2, hfrom, hb⟩⟩

omit [DecidableEq V] in
/-- A thread has nothing more to move. -/
theorem Inv.left (h : Inv T s c) {call : Call K V} {generation : ℕ} (hat : s.threads t = .busy call (.leave generation)) :
    let s' : ConcurrentHashMap ι K V := ⟨{ s.shared with migrateCnt := s.shared.migrateCnt - 1 },
      Function.update s.threads t (.busy call (.wait generation))⟩
    Moving s'.shared c ∧ Inv T s' c ∧ Keeps T t s s' ∧ (s'.shared.arrays c).size ≤ s'.shared.taskPos * 100 := by
  intro s'
  have hmoving := h.moving_of_migrates (t := t) (by rw [hat]; rfl)
  have hmoving' : Moving s'.shared c := hmoving.congr rfl rfl rfl rfl rfl rfl
  have hthread := h.threads t
  rw [hat] at hthread
  have hcovers : ∀ p, Covers (Thread.busy call (.wait generation)) p ↔ Covers (s.threads t) p := by
    rw [hat]
    exact fun _ => Iff.rfl
  have hhand : hand (Thread.busy call (.wait generation)) = hand (s.threads t) := by
    rw [hat]
    rfl
  have hinv : Inv T s' c := by
    refine ⟨⟨h.shared.arrays, h.shared.old, Or.inr hmoving', fun hquiet => absurd hquiet (not_quiet_of_moving hmoving'),
      fun _ => h.shared.moving_value hmoving⟩, fun t' => ?_, ?_, fun _ => ?_⟩
    · exact (threadOk_update h.threads (show ThreadOk T s.shared c (.busy call (.wait generation)) from ⟨hthread.1, trivial⟩)
        t').mono le_rfl (fun _ _ => .refl _) fun _ => ⟨rfl, .refl _, le_rfl⟩
    · have htally := tally_update migrates s.threads t (.busy call (.wait generation))
      rw [hat, h.count, show migrates (Thread.busy call (At.leave generation)) = true from rfl,
        show migrates (Thread.busy call (At.wait generation)) = false from rfl] at htally
      exact Nat.eq_sub_of_add_eq htally
    · have hmoves := (h.moves hmoving).congr (covers_update hcovers) (hand_update hhand)
      exact ⟨hmoves.covers_lt, hmoves.disjoint, hmoves.taken_iff, hmoves.hands, hmoves.hands_ne, hmoves.made⟩
  exact ⟨hmoving', hinv, .of_same hinv rfl rfl rfl (hand_update hhand), hthread.2⟩

omit [DecidableEq V] [DecidableEq ι] in
/-- The last thread puts the new array in use. -/
theorem Inv.finished (h : Inv T s c) (t : ι) (hmoving : Moving s.shared c) (hcnt : s.shared.migrateCnt = 0)
    (hdone : (s.shared.arrays c).size ≤ s.shared.taskPos * 100) :
    Inv T ⟨finishMigrate s.shared, s.threads⟩ (c + 1) ∧ Keeps T t s ⟨finishMigrate s.shared, s.threads⟩ := by
  have hnone : ∀ t, migrates (s.threads t) = false := h.not_migrates hcnt
  have hno : ∀ {t : ι} {P : Prop}, migrates (s.threads t) = true → P := fun {t} _ ht =>
    absurd ((hnone t).symm.trans ht) Bool.false_ne_true
  have hmoves := h.moves hmoving
  have hquiet : Quiet (finishMigrate s.shared) (c + 1) :=
    ⟨hmoving.migrateTo, rfl, rfl, hcnt, hmoving.allocated⟩
  have hall : ∀ p < (s.shared.arrays c).size, (s.shared.arrays c).value p = T.migrateValue := fun p hp =>
    (hmoves.taken_iff p hp).mpr ⟨by omega, fun t ht => hno (migrates_of_covers ht)⟩
  have hinv : Inv T ⟨finishMigrate s.shared, s.threads⟩ (c + 1) := by
    refine ⟨⟨h.shared.arrays, fun b hb p hp => ?_, Or.inl hquiet, fun _ => h.shared.moving_value hmoving,
      fun hmoving' => absurd hquiet (not_quiet_of_moving hmoving')⟩, fun t => ?_, h.count,
      fun hmoving' => absurd hquiet (not_quiet_of_moving hmoving')⟩
    · rcases Nat.lt_succ_iff_lt_or_eq.mp hb with hlt | rfl
      · exact h.shared.old b hlt p hp
      · exact hall p hp
    · exact (h.threads t).mono (Nat.le_succ c) (fun _ _ => .refl _) fun ht => hno ht
  refine ⟨hinv, ⟨c + 1, hinv⟩, fun key value => ?_, fun key value => ?_, fun _ _ => .refl _, le_rfl⟩
  · rintro ⟨hne, hstored, harray | ⟨t', j, a, hj, -, -⟩⟩
    · exact ⟨hne, hstored, Or.inl harray⟩
    · exact hno (migrates_of_hand hj)
  · rintro ⟨hne, hstored, harray | ⟨t', j, a, hj, -, -⟩⟩
    · exact Or.inl ⟨hne, hstored, Or.inl harray⟩
    · exact hno (migrates_of_hand hj)

end ConcurrentHashThreads

end TdUtils.Concurrent
