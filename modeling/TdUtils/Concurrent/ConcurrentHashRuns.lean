import TdUtils.Concurrent.ConcurrentHashMigrate

/-!
# Concurrent.ConcurrentHashRuns — the hash map is a finite map

Calls one after another are answered as by a finite map, until a migration overflows; and that only happens when an
array of more than 300 slots is moved in which some key wrapped around.  An array with as many slots as sixteen times its keys has room in each window, so a call tries five
times at most.
-/

namespace TdUtils.Concurrent

open Lib Fails Probing

universe u v

variable {K : Type u} {V : Type v} [DecidableEq K]

namespace ConcurrentHashTable

/-- What a call does to a finite map, and its answer. -/
def mapCall (m : K → Option V) : Call K V → (K → Option V) × V
  | .insert key value =>
    match m key with
    | some stored => (m, stored)
    | none => (Function.update m key (some value), value)
  | .find key value => (m, (m key).getD value)

/-- The answers of a finite map that is empty at first. -/
def mapCalls (cs : List (Call K V)) : (K → Option V) × List V :=
  cs.foldl (fun m c => ((mapCall m.1 c).1, m.2 ++ [(mapCall m.1 c).2])) (fun _ => none, [])

/-- Calls with keys and values that are allowed. -/
def Types.Allowed (T : Types K V) : Call K V → Prop
  | .insert key value => key ≠ T.emptyKey ∧ T.Stored value
  | .find key _ => key ≠ T.emptyKey

variable {T : Types K V} {nodes : Nodes K V} {m : K → Option V} {key : K} {value : V}
  {s : ConcurrentHashMap K V} {array : HashMap K V}

theorem mapCall_insert (m : K → Option V) (key : K) (value : V) : mapCall m (.insert key value) =
    (Function.update m key (some ((m key).getD value)), (m key).getD value) := by
  simp only [mapCall]
  rcases hm : m key with - | stored
  · rfl
  · simp only
    rw [Option.getD_some, ← hm, Function.update_eq_self]

/-- In an array with many slots there is a free one in each window. -/
theorem Holds.room (h : Holds T nodes m) {keys : Finset K} (hkeys : ∀ key value, m key = some value → key ∈ keys)
    (hcard : 16 * keys.card ≤ nodes.length) (key : K) : ¬ T.Past nodes key (window nodes.length) := by
  intro hfull
  have hle : window nodes.length ≤ keys.card := h.probed.le_card hfull (path_injOn key) fun p key hslot => by
    obtain ⟨value, hm, -⟩ := h.slots_iff.mp hslot
    exact hkeys key value hm
  have hpos := h.size_pos
  unfold window at hle
  omega

variable [DecidableEq V]

omit [DecidableEq K] in
/-- What is offered for a key: the value that is stored stays. -/
theorem offer_eq (hm : ∀ stored, m key = some stored → T.Stored stored) (value : V) :
    T.offer value ((m key).getD T.emptyValue) = ((m key).getD value, some ((m key).getD value)) := by
  unfold Types.offer
  rcases hkey : m key with - | stored
  · rw [Option.getD_none, if_pos rfl, Option.getD_none]
  · obtain ⟨hempty, hmigrate⟩ := hm stored hkey
    rw [Option.getD_some, if_neg hempty, if_neg hmigrate, Option.getD_some]

omit [DecidableEq V] in
theorem Holds.stored_of_some (h : Holds T nodes m) {stored : V} (hm : m key = some stored) : T.Stored stored := by
  obtain ⟨hkey, hmem⟩ := (h.mem_iff key stored).mp hm
  exact h.stored _ hmem hkey

/-- What `insert` finds in an array: no room, or a slot that has the value then. -/
theorem withValue_offer (h : Holds T nodes m) (hkey : key ≠ T.emptyKey) (hvalue : T.Stored value) :
    (T.withValue nodes key true (T.offer value) = none ∧ T.Past nodes key (window nodes.length)) ∨
      ∃ nodes', T.withValue nodes key true (T.offer value) = some (nodes', some ((m key).getD value)) ∧
        Holds T nodes' (Function.update m key (some ((m key).getD value))) := by
  have hoffer := offer_eq (fun stored (hm : m key = some stored) => h.stored_of_some hm) value
  have hstored : T.Stored ((m key).getD value) := by
    rcases hm : m key with - | stored
    · exact hvalue
    · exact h.stored_of_some hm
  have hwith := withValue_create (T := T) h.size_pos key (T.offer value)
  rcases hrun : T.withValue nodes key true (T.offer value) with - | ⟨nodes', result⟩
  · rw [hrun] at hwith
    exact .inl ⟨rfl, hwith⟩
  · rw [hrun] at hwith
    obtain ⟨j, hj, node, hpass, hnode, hslot, rfl, rfl⟩ := hwith
    rw [h.old_value hkey hpass hnode hslot, hoffer]
    exact .inr ⟨_, rfl, h.set hkey hstored hj hpass hnode hslot⟩

/-- A key comes in the first free slot of its window. -/
theorem insertLoop_free (hs : Quiet s array) (h : Holds T array.nodes m) (hkey : key ≠ T.emptyKey)
    (hvalue : T.Stored value) {j : ℕ} (hj : j < window array.nodes.length) (hpass : T.Past array.nodes key j)
    (hfree : T.slots array.nodes (T.path array.nodes.length key j) = none) (n : ℕ) : ∃ s' array',
      T.insertLoop key value (n + 1) s = .ok (s', value) ∧ Quiet s' array' ∧
        array'.nodes = array.nodes.set (T.path array.nodes.length key j) ⟨key, value⟩ ∧
        Holds T array'.nodes (Function.update m key (some value)) := by
  obtain ⟨node, hnode, hempty, hwith⟩ := withValue_free h.size_pos hj hpass hfree (T.offer value)
  have hold : node.value = T.emptyValue := h.empty node (List.mem_of_getElem? hnode) hempty
  have hoffer : T.offer value node.value = (value, some value) := if_pos hold
  rw [hoffer] at hwith
  rw [Types.insertLoop]
  simp only [hs.hashMap, hwith]
  exact ⟨_, ⟨array.address, _⟩, rfl, ⟨rfl, hs.migrateCnt, hs.migrateFrom, hs.migrateTo⟩, rfl,
    h.set hkey hvalue hj hpass hnode (.inr hempty)⟩

theorem insertLoop_spec (hkey : key ≠ T.emptyKey) (hvalue : T.Stored value) {keys : Finset K}
    (hkeys : ∀ key value, m key = some value → key ∈ keys) (n : ℕ) (hs : Quiet s array) (h : Holds T array.nodes m)
    (hn : 16 * keys.card ≤ array.nodes.length * 2 ^ n) :
    (∃ s' array', T.insertLoop key value (n + 1) s = .ok (s', (m key).getD value) ∧ Quiet s' array' ∧
      Holds T array'.nodes (Function.update m key (some ((m key).getD value)))) ∨
    ∃ old, T.insertLoop key value (n + 1) s = .error (.overflow old) ∧ T.MayOverflow old := by
  induction n generalizing s array with
  | zero =>
    rw [Types.insertLoop]
    simp only [hs.hashMap]
    rcases withValue_offer h hkey hvalue with ⟨-, hfull⟩ | ⟨nodes', hwith, hnodes'⟩
    · exact absurd hfull (h.room hkeys (by omega) key)
    · rw [hwith]
      exact .inl ⟨_, ⟨array.address, nodes'⟩, rfl, ⟨rfl, hs.migrateCnt, hs.migrateFrom, hs.migrateTo⟩, hnodes'⟩
  | succ n ih =>
    rw [Types.insertLoop]
    simp only [hs.hashMap]
    rcases withValue_offer h hkey hvalue with ⟨hwith, -⟩ | ⟨nodes', hwith, hnodes'⟩
    · rw [hwith]
      rcases doMigrate_spec hs h with ⟨s', array', hrun, hs', h', hsize⟩ | ⟨old, hrun, hold⟩
      · simp only [hrun, bind, Except.bind]
        refine ih hs' h' ?_
        rw [hsize, Nat.mul_assoc, ← Nat.pow_succ']
        exact hn
      · simp only [hrun, bind, Except.bind]
        exact .inr ⟨old, rfl, hold⟩
    · rw [hwith]
      exact .inl ⟨_, ⟨array.address, nodes'⟩, rfl, ⟨rfl, hs.migrateCnt, hs.migrateFrom, hs.migrateTo⟩, hnodes'⟩

/-! ### Calls -/

/-- A state between calls, with the finite map that it stands for. -/
def Stands (T : Types K V) (s : ConcurrentHashMap K V) (m : K → Option V) : Prop :=
  ∃ array, Quiet s array ∧ Holds T array.nodes m

theorem call_spec (h : Stands T s m) {c : Call K V} (hc : T.Allowed c) :
    (∃ s', T.call s c = .ok (s', (mapCall m c).2) ∧ Stands T s' (mapCall m c).1) ∨
      ∃ old, T.call s c = .error (.overflow old) ∧ T.MayOverflow old := by
  obtain ⟨array, hs, hholds⟩ := h
  cases c with
  | insert key value =>
    obtain ⟨hkey, hvalue⟩ := hc
    have hkeys : ∀ key value, m key = some value → key ∈ (array.nodes.map Node.key).toFinset := by
      intro key value hm
      rw [List.mem_toFinset]
      exact List.mem_map_of_mem ((hholds.mem_iff key value).mp hm).2
    have hcard : (array.nodes.map Node.key).toFinset.card ≤ array.nodes.length := by
      simpa using (array.nodes.map Node.key).toFinset_card_le
    rw [Types.call, if_neg hkey, if_neg hvalue.2, mapCall_insert]
    rcases insertLoop_spec hkey hvalue hkeys 4 hs hholds (by omega) with ⟨s', array', hrun, hs', h'⟩ | hfail
    · exact .inl ⟨s', hrun, array', hs', h'⟩
    · exact .inr hfail
  | find key value =>
    have hkey : key ≠ T.emptyKey := hc
    rw [Types.call, if_neg hkey, passes, Types.findLoop]
    simp only [hs.hashMap, withValue_look hholds]
    rcases hm : m key with - | stored
    · refine .inl ⟨s, ?_, array, hs, hholds⟩
      simp [mapCall, hm]
    · refine .inl ⟨s, ?_, array, hs, hholds⟩
      simp [mapCall, hm, (hholds.stored_of_some hm).2]

omit [DecidableEq V] in
theorem stands_new : Stands T T.new fun _ => none :=
  ⟨⟨0, T.newArray 1⟩, ⟨rfl, rfl, rfl, rfl⟩, holds_newArray Nat.one_pos⟩

theorem calls_concat {cs : List (Call K V)} {answers : List V} (h : T.calls cs = .ok (s, answers)) (c : Call K V) :
    T.calls (cs ++ [c]) = (T.call s c).map fun r => (r.1, answers ++ [r.2]) := by
  unfold Types.calls at h ⊢
  rw [List.foldlM_append, h]
  rcases hc : T.call s c with e | r <;> simp [hc, bind, Except.bind, Except.map, pure, Except.pure]

theorem calls_concat_error {cs : List (Call K V)} {e : Failure K V} (h : T.calls cs = .error e) (c : Call K V) :
    T.calls (cs ++ [c]) = .error e := by
  unfold Types.calls at h ⊢
  rw [List.foldlM_append, h]
  rfl

omit [DecidableEq V] in
theorem mapCalls_concat (cs : List (Call K V)) (c : Call K V) : mapCalls (cs ++ [c]) =
    ((mapCall (mapCalls cs).1 c).1, (mapCalls cs).2 ++ [(mapCall (mapCalls cs).1 c).2]) := by
  unfold mapCalls
  rw [List.foldl_append]
  rfl

theorem calls_spec (cs : List (Call K V)) (hcs : ∀ c ∈ cs, T.Allowed c) :
    (∃ s, T.calls cs = .ok (s, (mapCalls cs).2) ∧ Stands T s (mapCalls cs).1) ∨
      ∃ old, T.calls cs = .error (.overflow old) ∧ T.MayOverflow old := by
  induction cs using List.reverseRecOn with
  | nil => exact .inl ⟨T.new, rfl, stands_new⟩
  | append_singleton cs c ih =>
    have hprefix : ∀ c ∈ cs, T.Allowed c := fun c' hc' => hcs c' (List.mem_append_left _ hc')
    rcases ih hprefix with ⟨s, hrun, hs⟩ | ⟨old, hrun, hold⟩
    · rw [calls_concat hrun, mapCalls_concat]
      rcases call_spec hs (hcs c (by simp)) with ⟨s', hcall, hs'⟩ | ⟨old, hcall, hold⟩
      · exact .inl ⟨s', by rw [hcall]; rfl, hs'⟩
      · exact .inr ⟨old, by rw [hcall]; rfl, hold⟩
    · exact .inr ⟨old, calls_concat_error hrun c, hold⟩

/-- **A finite map.**  The answers are those of a finite map, as long as no array is moved that has more than 300 slots
and a key that is in front of its window, because the window goes on at the beginning; the only check that can fail is
the one for an overflow of such a migration. -/
theorem calls_answered (T : Types K V) (cs : List (Call K V)) (hcs : ∀ c ∈ cs, T.Allowed c) :
    (∃ s, T.calls cs = .ok (s, (mapCalls cs).2)) ∨
      ∃ nodes, T.calls cs = .error (.overflow nodes) ∧ 300 < nodes.length ∧ T.Wrapped nodes := by
  rcases calls_spec cs hcs with ⟨s, hrun, -⟩ | hfail
  · exact .inl ⟨s, hrun⟩
  · exact .inr hfail

/-- Keys that meet in an array of two slots: the arrays of one and of two slots are moved, and all is found. -/
theorem calls_answered_four : ∃ s, numbers.calls [.insert 5 2, .insert 7 3, .insert 5 4, .insert 9 6, .find 7 8,
    .find 9 8, .find 11 8] = .ok (s, [2, 3, 2, 6, 3, 6, 8]) := by
  let cs : List (Call ℕ ℕ) := [.insert 5 2, .insert 7 3, .insert 5 4, .insert 9 6, .find 7 8, .find 9 8, .find 11 8]
  have hcs : ∀ c ∈ cs, numbers.Allowed c := by simp [cs, Types.Allowed, Types.Stored, numbers]
  have hends : (numbers.calls cs).isOk = true := rfl
  refine (calls_answered numbers cs hcs).resolve_right ?_
  rintro ⟨nodes, hrun, -⟩
  rw [hrun] at hends
  cases hends

/-! ### An overflow -/

/-- The keys 211, 212, ... -/
def upTo (n key : ℕ) : Option ℕ := if 211 ≤ key ∧ key < 211 + n then some 2 else none

theorem upTo_eq_some {n key value : ℕ} : upTo n key = some value ↔ (211 ≤ key ∧ key < 211 + n) ∧ 2 = value := by
  simp [upTo]

/-- The first `n` keys are in the map, each in the first slot of its window. -/
structure Row (n : ℕ) (s : ConcurrentHashMap ℕ ℕ) (array : HashMap ℕ ℕ) : Prop where
  quiet : Quiet s array
  holds : Holds numbers array.nodes (upTo n)
  home : numbers.Home array.nodes

section Row

variable {n : ℕ} {s : ConcurrentHashMap ℕ ℕ} {array : HashMap ℕ ℕ}

theorem Row.slots_iff (h : Row n s array) {p key : ℕ} : numbers.slots array.nodes p = some key ↔
    (211 ≤ key ∧ key < 211 + n) ∧ p = numbers.path array.nodes.length key 0 := by
  constructor
  · intro hslot
    obtain ⟨value, hkey, -⟩ := h.holds.slots_iff.mp hslot
    exact ⟨(upTo_eq_some.mp hkey).1, h.home p key hslot⟩
  · rintro ⟨hkey, rfl⟩
    obtain ⟨hne, hmem⟩ := (h.holds.mem_iff key 2).mp (upTo_eq_some.mpr ⟨hkey, rfl⟩)
    obtain ⟨q, hq⟩ := List.mem_iff_getElem?.mp hmem
    have hslot : numbers.slots array.nodes q = some key := slots_eq_some_iff.mpr ⟨hne, 2, hq⟩
    rwa [← h.home q key hslot]

theorem path_home (size key : ℕ) : numbers.path size key 0 = (key + 1) % size := by
  show (key % size + 1 + 0) % size = (key + 1) % size
  rw [Nat.add_zero, Nat.mod_add_mod]

/-- Two keys in a row shorter than the array do not meet. -/
theorem home_inj {size a b : ℕ} (ha : a < size) (hb : b < size)
    (h : numbers.path size (211 + a) 0 = numbers.path size (211 + b) 0) : a = b := by
  rw [path_home, path_home, Nat.add_right_comm 211 a 1, Nat.add_right_comm 211 b 1] at h
  have hmod : a ≡ b [MOD size] := Nat.ModEq.add_left_cancel' (211 + 1) h
  rwa [Nat.ModEq, Nat.mod_eq_of_lt ha, Nat.mod_eq_of_lt hb] at hmod

theorem update_upTo (n : ℕ) : Function.update (upTo n) (211 + n) (some 2) = upTo (n + 1) := by
  ext key : 1
  by_cases hkey : key = 211 + n
  · rw [hkey, Function.update_self]
    simp [upTo]
  · rw [Function.update_of_ne hkey]
    unfold upTo
    congr 1
    simp only [eq_iff_iff]
    omega

theorem stored_two : numbers.Stored 2 := ⟨by decide, by decide⟩

/-- The next key, when there is a free slot. -/
theorem Row.insert (h : Row n s array) (hn : n < array.nodes.length) (k : ℕ) : ∃ s' array',
    numbers.insertLoop (211 + n) 2 (k + 1) s = .ok (s', 2) ∧ Row (n + 1) s' array' ∧
      array'.nodes.length = array.nodes.length := by
  have hsize := h.holds.size_pos
  have hkey : 211 + n ≠ numbers.emptyKey := by
    show 211 + n ≠ 0
    omega
  have hfree : numbers.slots array.nodes (numbers.path array.nodes.length (211 + n) 0) = none := by
    by_contra hsome
    obtain ⟨key, hslot⟩ := Option.ne_none_iff_exists'.mp hsome
    obtain ⟨⟨hge, hlt⟩, hmeet⟩ := h.slots_iff.mp hslot
    have heq : 211 + (key - 211) = key := by omega
    rw [← heq] at hmeet
    have hsame := home_inj hn (by omega) hmeet
    omega
  obtain ⟨s', array', hrun, hs', harray, hholds⟩ :=
    insertLoop_free h.quiet h.holds hkey stored_two (window_pos hsize) passed_zero hfree k
  rw [update_upTo] at hholds
  have hhome : numbers.Home array'.nodes := by
    rw [harray]
    exact home_set h.home hsize hkey 2
  exact ⟨s', array', hrun, ⟨hs', hholds, hhome⟩, by rw [harray, List.length_set]⟩

/-- A full row is moved to a row in an array of twice the size. -/
theorem Row.grow (h : Row n s array) (hn : n = array.nodes.length) : ∃ s' array',
    numbers.doMigrate s (some array.address) = .ok s' ∧ Row n s' array' ∧
      array'.nodes.length = array.nodes.length * 2 := by
  obtain ⟨arrays, hrun, hmoving, hhome⟩ := (moving_start h.holds.size_pos).run_home h.holds array.nodes.length
    (by omega) (home_newArray _) fun p q key key' hpq _ hp hq hmeet => by
      obtain ⟨⟨hge, hlt⟩, rfl⟩ := h.slots_iff.mp hp
      obtain ⟨⟨hge', hlt'⟩, rfl⟩ := h.slots_iff.mp hq
      have hkey : 211 + (key - 211) = key := by omega
      have hkey' : 211 + (key' - 211) = key' := by omega
      rw [← hkey, ← hkey'] at hmeet
      have hsame := home_inj (by omega) (by omega) hmeet
      have heq : key = key' := by omega
      rw [heq] at hpq
      exact absurd hpq (Nat.lt_irrefl _)
  rw [doMigrate_eq h.quiet, hrun]
  rw [Nat.zero_add] at hmoving
  exact ⟨_, ⟨s.allocated, arrays.2⟩, rfl, ⟨⟨rfl, rfl, rfl, rfl⟩, hmoving.finish h.holds, hhome⟩, hmoving.size⟩

theorem path_numbers (size key j : ℕ) : numbers.path size key j = (key + 1 + j) % size := by
  show (key % size + 1 + j) % size = (key + 1 + j) % size
  rw [Nat.add_assoc, Nat.mod_add_mod, Nat.add_assoc]

/-- A row that is as long as the array fills it. -/
theorem Row.full (h : Row n s array) (hn : n = array.nodes.length) (hdvd : array.nodes.length ∣ 512) :
    numbers.Past array.nodes (211 + n) (window array.nodes.length) := by
  intro j _
  obtain ⟨d, hd⟩ := hdvd
  have hp := path_lt (T := numbers) h.holds.size_pos (211 + n) j
  generalize numbers.path array.nodes.length (211 + n) j = p at hp ⊢
  have hlt := Nat.mod_lt (p + 300) h.holds.size_pos
  refine ⟨211 + (p + 300) % array.nodes.length, h.slots_iff.mpr ⟨⟨by omega, by omega⟩, ?_⟩, by omega⟩
  have hsum : 211 + 1 + 300 = array.nodes.length * d := hd
  rw [path_home, Nat.add_right_comm, Nat.add_mod_mod, Nat.add_left_comm, hsum, Nat.add_mul_mod_self_left,
    Nat.mod_eq_of_lt hp]

theorem double_dvd : ∀ size < 512, size ∣ 512 → size * 2 ∣ 512 := by decide +kernel

/-- The array is not longer than needed for the row. -/
structure Fits (n : ℕ) (array : HashMap ℕ ℕ) : Prop where
  le : n ≤ array.nodes.length
  dvd : array.nodes.length ∣ 512
  lt : array.nodes.length = 1 ∨ array.nodes.length < 2 * n

theorem Row.call (h : Row n s array) (hfits : Fits n array) (hn : n < 512) : ∃ s' array',
    numbers.call s (.insert (211 + n) 2) = .ok (s', 2) ∧ Row (n + 1) s' array' ∧ Fits (n + 1) array' := by
  have hkey : 211 + n ≠ numbers.emptyKey := by
    show 211 + n ≠ 0
    omega
  have hlt := hfits.lt
  have hle := hfits.le
  rw [Types.call, if_neg hkey, if_neg stored_two.2]
  by_cases hroom : n < array.nodes.length
  · obtain ⟨s', array', hrun, hrow, hsize⟩ := h.insert hroom 4
    refine ⟨s', array', hrun, hrow, ?_, ?_, ?_⟩ <;> rw [hsize]
    · omega
    · exact hfits.dvd
    · omega
  · have heq : n = array.nodes.length := by omega
    obtain ⟨s₁, array₁, hgrow, hrow₁, hsize₁⟩ := h.grow heq
    obtain ⟨s', array', hrun, hrow, hsize⟩ := hrow₁.insert (by omega) 3
    have hwith := withValue_full h.holds.size_pos (h.full heq hfits.dvd) (numbers.offer 2)
    refine ⟨s', array', ?_, hrow, ?_, ?_, ?_⟩
    · rw [passes, Types.insertLoop]
      simp only [h.quiet.hashMap, hwith, hgrow]
      exact hrun
    · omega
    · rw [hsize, hsize₁]
      exact double_dvd _ (by omega) hfits.dvd
    · omega

theorem row_calls (n : ℕ) (hn : n ≤ 512) : ∃ s array answers,
    numbers.calls ((List.range n).map fun i => .insert (211 + i) 2) = .ok (s, answers) ∧ Row n s array ∧
      Fits n array := by
  induction n with
  | zero =>
    have hholds : Holds numbers (numbers.newArray 1) (upTo 0) := by
      have hempty : upTo 0 = fun _ => none := by
        ext key value
        simp [upTo_eq_some]
      rw [hempty]
      exact holds_newArray Nat.one_pos
    refine ⟨numbers.new, ⟨0, numbers.newArray 1⟩, [], rfl, ⟨⟨rfl, rfl, rfl, rfl⟩, hholds, fun p key hslot => ?_⟩,
      Nat.zero_le _, Nat.one_dvd 512, .inl rfl⟩
    obtain ⟨value, hkey, -⟩ := hholds.slots_iff.mp hslot
    have hrow := (upTo_eq_some.mp hkey).1
    omega
  | succ n ih =>
    obtain ⟨s, array, answers, hrun, hrow, hfits⟩ := ih (by omega)
    obtain ⟨s', array', hcall, hrow', hfits'⟩ := hrow.call hfits (by omega)
    refine ⟨s', array', answers ++ [2], ?_, hrow', hfits'⟩
    rw [List.range_succ, List.map_append, List.map_singleton, calls_concat hrun, hcall]
    rfl

theorem eq_of_dvd : ∀ size < 513, 299 ≤ size → size ∣ 512 → size = 512 := by decide +kernel

end Row

/-- An array with 512 slots in which the window of the key 510 goes on at the beginning. -/
structure Crowded (nodes : Nodes ℕ ℕ) : Prop where
  length : nodes.length = 512
  holds : ∃ m, Holds numbers nodes m
  row : ∀ j < 299, numbers.slots nodes (212 + j) = some (211 + j)
  last : nodes[511]? = some ⟨1235, 2⟩
  first : numbers.slots nodes 0 = some 510
  rest : ∀ p key, numbers.slots nodes p = some key → p = 0 ∨ 212 ≤ p

/-- The keys 211 to 509, each behind its position, then 1235 for the last slot, and 510 for which only the first slot
is left. -/
def crowding : List (Call ℕ ℕ) :=
  ((List.range 299).map fun i => .insert (211 + i) 2) ++ [.insert 1235 2] ++ [.insert 510 2]

theorem crowded_calls : ∃ s array answers, numbers.calls crowding = .ok (s, answers) ∧ Quiet s array ∧
    Crowded array.nodes := by
  obtain ⟨s, array, answers, hrun, hrow, hfits⟩ := row_calls 299 (by decide)
  have hlen : array.nodes.length = 512 :=
    eq_of_dvd _ (Nat.lt_succ_of_le (Nat.le_of_dvd (by decide) hfits.dvd)) hfits.le hfits.dvd
  have hslots : ∀ j < 299, numbers.slots array.nodes (212 + j) = some (211 + j) := by
    intro j hj
    refine hrow.slots_iff.mpr ⟨by omega, ?_⟩
    rw [path_numbers, hlen]
    omega
  have hfree : ∀ p, p < 212 ∨ 511 ≤ p → numbers.slots array.nodes p = none := by
    intro p hp
    by_contra hsome
    obtain ⟨key, hslot⟩ := Option.ne_none_iff_exists'.mp hsome
    obtain ⟨hkey, hpath⟩ := hrow.slots_iff.mp hslot
    rw [path_numbers, hlen] at hpath
    omega
  have hpath : ∀ j < 300, numbers.path array.nodes.length 1235 j = 212 + j := by
    intro j hj
    rw [path_numbers, hlen]
    omega
  -- the key 1235
  have hpass : numbers.Past array.nodes 1235 299 :=
    fun j hj => ⟨211 + j, by rw [hpath j (by omega), hslots j hj], by omega⟩
  obtain ⟨s₁, array₁, hrun₁, hs₁, harray₁, hholds₁⟩ := insertLoop_free hrow.quiet hrow.holds (by decide) stored_two
    (by rw [hlen]; decide) hpass (by rw [hpath 299 (by omega)]; exact hfree _ (by omega)) 4
  rw [hpath 299 (by omega)] at harray₁
  have hlen₁ : array₁.nodes.length = 512 := by rw [harray₁, List.length_set, hlen]
  have hslots₁ : numbers.slots array₁.nodes = Function.update (numbers.slots array.nodes) 511 (some 1235) := by
    rw [harray₁]
    exact slots_set (by omega) (by decide) 2
  -- the key 510
  have hpath₁ : ∀ j < 2, numbers.path array₁.nodes.length 510 j = (511 + j) % 512 := by
    intro j _
    rw [path_numbers, hlen₁]
  have hpass₁ : numbers.Past array₁.nodes 510 1 :=
    fun j hj => ⟨1235, by rw [hpath₁ j (by omega), Nat.lt_one_iff.mp hj, hslots₁]; rfl, by decide⟩
  obtain ⟨s₂, array₂, hrun₂, hs₂, harray₂, hholds₂⟩ := insertLoop_free hs₁ hholds₁ (by decide) stored_two
    (by rw [hlen₁]; decide) hpass₁ (by rw [hpath₁ 1 (by omega), hslots₁]; exact hfree 0 (by omega)) 4
  rw [hpath₁ 1 (by omega)] at harray₂
  have hlen₂ : array₂.nodes.length = 512 := by rw [harray₂, List.length_set, hlen₁]
  have hslots₂ : numbers.slots array₂.nodes = Function.update (numbers.slots array₁.nodes) 0 (some 510) := by
    rw [harray₂]
    exact slots_set (by omega) (by decide) 2
  refine ⟨s₂, array₂, answers ++ [2] ++ [2], ?_, hs₂, hlen₂, ⟨_, hholds₂⟩, fun j hj => ?_, ?_, ?_, fun p key hslot => ?_⟩
  · have hcall₁ : numbers.call s (.insert 1235 2) = .ok (s₁, 2) := hrun₁
    have hcall₂ : numbers.call s₁ (.insert 510 2) = .ok (s₂, 2) := hrun₂
    have hcalls₁ := calls_concat hrun (.insert 1235 2)
    rw [hcall₁] at hcalls₁
    have hcalls₂ := calls_concat hcalls₁ (.insert 510 2)
    rw [hcall₂] at hcalls₂
    exact hcalls₂
  · rw [hslots₂, Function.update_of_ne (by omega), hslots₁, Function.update_of_ne (by omega), hslots j hj]
  · rw [harray₂, List.getElem?_set_ne (by decide), harray₁, List.getElem?_set_self (by omega)]
  · rw [hslots₂, Function.update_self]
  · by_contra hout
    rw [hslots₂, Function.update_of_ne (by omega), hslots₁, Function.update_of_ne (by omega), hfree p (by omega)] at hslot
    cases hslot

section Overflow

variable {nodes : Nodes ℕ ℕ} {s : ConcurrentHashMap ℕ ℕ} {array : HashMap ℕ ℕ}

/-- The keys in front of the last slot. -/
theorem Crowded.keys (h : Crowded nodes) {p key : ℕ} (hp : p < 511) (hslot : numbers.slots nodes p = some key) :
    p = 0 ∧ key = 510 ∨ 212 ≤ p ∧ key + 1 = p := by
  rcases h.rest p key hslot with rfl | hge
  · rw [h.first] at hslot
    exact .inl ⟨rfl, (Option.some.inj hslot).symm⟩
  · have hrow := h.row (p - 212) (by omega)
    have hp' : 212 + (p - 212) = p := by omega
    rw [hp', hslot] at hrow
    have hkey := Option.some.inj hrow
    omega

/-- The window of the key 2259 is full. -/
theorem Crowded.full (h : Crowded nodes) : numbers.Past nodes 2259 (window nodes.length) := by
  intro j hj
  rw [h.length] at hj ⊢
  have hj' : j < 300 := hj
  have hpath : numbers.path 512 2259 j = 212 + j := by
    rw [path_numbers]
    omega
  rw [hpath]
  by_cases hend : j = 299
  · exact ⟨1235, by rw [hend]; exact slots_eq_some_iff.mpr ⟨by decide, 2, h.last⟩, by decide⟩
  · exact ⟨211 + j, h.row j (by omega), by omega⟩

/-- When all slots but the last one are moved, the key 510 is behind the row. -/
theorem Crowded.moved (h : Crowded nodes) : ∃ arrays, (List.range' 0 511).foldlM numbers.runNode
    (nodes, numbers.newArray (nodes.length * 2)) = .ok arrays ∧ Moving numbers nodes 511 arrays ∧
      ∀ j < 300, numbers.slots arrays.2 (212 + j) = some (211 + j) := by
  obtain ⟨m, hholds⟩ := h.holds
  obtain ⟨arrays, hrun, hmoving, hhome⟩ := (moving_start hholds.size_pos).run_home hholds 511 (by rw [h.length]; omega)
    (home_newArray _) fun p q key key' hpq hq hp hq' hmeet => by
      have hkey := h.keys (by omega) hp
      have hkey' := h.keys (by omega) hq'
      rw [h.length, path_numbers, path_numbers] at hmeet
      omega
  refine ⟨arrays, hrun, hmoving, fun j hj => ?_⟩
  obtain ⟨m', hnew, hiff⟩ := hmoving.holds
  obtain ⟨p, hp, hslot⟩ : ∃ p < 511, numbers.slots nodes p = some (211 + j) := by
    by_cases hend : j = 299
    · exact ⟨0, by omega, by rw [hend]; exact h.first⟩
    · exact ⟨212 + j, by omega, h.row j (by omega)⟩
  obtain ⟨hne, value, hat⟩ := slots_eq_some_iff.mp hslot
  have hm' : m' (211 + j) = some value := (hiff _ _).mpr ⟨hne, p, by omega, hat⟩
  obtain ⟨q, hq⟩ := List.mem_iff_getElem?.mp ((hnew.mem_iff _ _).mp hm').2
  have hslot' : numbers.slots arrays.2 q = some (211 + j) := slots_eq_some_iff.mpr ⟨hne, value, hq⟩
  have hpath := hhome q _ hslot'
  rw [hmoving.size, h.length, path_numbers] at hpath
  have heq : q = 212 + j := by omega
  rwa [← heq]

/-- It has taken the last slot of the window of the key 1235. -/
theorem Crowded.migration (h : Crowded array.nodes) (hs : Quiet s array) :
    ∃ old, numbers.doMigrate s (some array.address) = .error (.overflow old) := by
  obtain ⟨arrays, hrun, hmoving, hmoved⟩ := h.moved
  have hsize : arrays.2.length = 1024 := by rw [hmoving.size, h.length]
  have hfull : numbers.Past arrays.2 1235 (window arrays.2.length) := by
    intro j hj
    rw [hsize] at hj ⊢
    have hj' : j < 300 := hj
    have hpath : numbers.path 1024 1235 j = 212 + j := by
      rw [path_numbers]
      omega
    exact ⟨211 + j, by rw [hpath]; exact hmoved j hj', by omega⟩
  have hnode : numbers.runNode arrays 511 = .error (.overflow (arrays.1.set 511 ⟨1235, 1⟩)) := by
    have hold : arrays.1[511]? = some ⟨1235, 2⟩ := (hmoving.rest 511 (by omega)).trans h.last
    have hnone := withValue_full (by omega) hfull fun _ => ((2 : ℕ), ())
    unfold Types.runNode
    simp only [hold]
    rw [if_neg (by decide), hnone]
    rfl
  have hrange : List.range' 0 array.nodes.length = List.range' 0 511 ++ 511 :: [] := by
    rw [h.length]
    exact List.range'_1_concat
  have hfold := foldlM_error_iff.mpr ⟨_, _, _, arrays, hrange, hrun, hnode⟩
  rw [doMigrate_eq hs, hfold]
  exact ⟨_, rfl⟩

theorem Crowded.overflows (h : Crowded array.nodes) (hs : Quiet s array) :
    ∃ old, numbers.call s (.insert 2259 2) = .error (.overflow old) := by
  obtain ⟨m, hholds⟩ := h.holds
  have hwith := withValue_full hholds.size_pos h.full (numbers.offer 2)
  obtain ⟨old, hold⟩ := h.migration hs
  refine ⟨old, ?_⟩
  show numbers.insertLoop 2259 2 (4 + 1) s = _
  rw [Types.insertLoop]
  simp only [hs.hashMap, hwith, hold]
  rfl

end Overflow

/-- Keys for which a migration overflows. -/
theorem migration_overflows : ¬ ∀ cs : List (Call ℕ ℕ), (∀ c ∈ cs, numbers.Allowed c) →
    ∃ s answers, numbers.calls cs = .ok (s, answers) := by
  intro hall
  obtain ⟨s, array, answers, hrun, hs, hcrowded⟩ := crowded_calls
  obtain ⟨old, hcall⟩ := hcrowded.overflows hs
  have hfail := calls_concat hrun (.insert 2259 2)
  rw [hcall] at hfail
  have hallowed : ∀ c ∈ crowding ++ [.insert 2259 2], numbers.Allowed c := by
    have hkey : ∀ key, key ≠ 0 → numbers.Allowed (.insert key 2) := fun key hkey => ⟨hkey, stored_two⟩
    simp only [crowding, List.mem_append, List.mem_map, List.mem_singleton]
    rintro c (((⟨i, -, rfl⟩ | rfl) | rfl) | rfl) <;> exact hkey _ (by omega)
  obtain ⟨s', answers', hok⟩ := hall _ hallowed
  rw [hok] at hfail
  cases hfail

end ConcurrentHashTable

end TdUtils.Concurrent
