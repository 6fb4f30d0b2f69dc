import Mathlib.Data.Nat.ModEq
import TdUtils.Concurrent.ConcurrentHashSlots

/-!
# Concurrent.ConcurrentHashMigrate — from an array to one with twice as many slots

The slots are moved in their order.  As long as no key is in front of the first slot of its window, a key finds a free
slot not later than where it was; a key of which the window went on at the beginning of the array comes too early, and
can be in the way of the others.  An array that is not larger than a window of the new one has no such keys in its way.
-/

namespace TdUtils.Concurrent

open Lib Fails Probing

universe u v

variable {K : Type u} {V : Type v} [DecidableEq K]

namespace ConcurrentHashTable

variable {T : Types K V} {nodes : Nodes K V} {m : K → Option V} {i : ℕ} {arrays : Nodes K V × Nodes K V}

/-- A key was looked for up to the end of the array, and is where the search went on at the beginning. -/
def Types.Wrapped (T : Types K V) (nodes : Nodes K V) : Prop :=
  ∃ p key, T.slots nodes p = some key ∧ p < T.path nodes.length key 0

/-- An array of which not all keys have to fit into a new one. -/
def Types.MayOverflow (T : Types K V) (nodes : Nodes K V) : Prop := 300 < nodes.length ∧ T.Wrapped nodes

/-- The slots in front of `i` are moved. -/
structure Moving (T : Types K V) (nodes : Nodes K V) (i : ℕ) (arrays : Nodes K V × Nodes K V) : Prop where
  keys : arrays.1.map Node.key = nodes.map Node.key
  rest : ∀ p, i ≤ p → arrays.1[p]? = nodes[p]?
  size : arrays.2.length = nodes.length * 2
  holds : ∃ m, Holds T arrays.2 m ∧ ∀ key value, m key = some value ↔
    key ≠ T.emptyKey ∧ ∃ p < i, nodes[p]? = some ⟨key, value⟩
  front : ¬ T.Wrapped nodes → ∀ p key, T.slots arrays.2 p = some key →
    p < i ∨ nodes.length ≤ p ∧ p < nodes.length + i

/-! ### One slot -/

theorem slots_eq (nodes : Nodes K V) (p : ℕ) : T.slots nodes p =
    (nodes.map Node.key)[p]?.bind fun key => if key = T.emptyKey then none else some key := by
  rw [List.getElem?_map, Option.bind_map]
  rfl

theorem slots_congr {old : Nodes K V} (h : old.map Node.key = nodes.map Node.key) : T.slots old = T.slots nodes := by
  ext p : 1
  rw [slots_eq, slots_eq, h]

theorem mayOverflow_congr {old : Nodes K V} (h : old.map Node.key = nodes.map Node.key) :
    T.MayOverflow old ↔ T.MayOverflow nodes := by
  have hlen := congrArg List.length h
  rw [List.length_map, List.length_map] at hlen
  unfold Types.MayOverflow Types.Wrapped
  rw [slots_congr h, hlen]

theorem window_le_double (size : ℕ) : window size ≤ window (size * 2) := by
  unfold window
  omega

theorem window_le (size : ℕ) : window size ≤ size := Nat.min_le_right _ _

theorem mod_double (a size : ℕ) : a % (size * 2) = a % size ∨ a % (size * 2) = a % size + size := by
  rw [Nat.mod_mul]
  rcases Nat.mod_two_eq_zero_or_one (a / size) with h | h <;> simp [h]

omit [DecidableEq K] in
theorem path_add (size : ℕ) (key : K) (j : ℕ) : T.path size key j = (T.path size key 0 + j) % size := by
  unfold Types.path
  rw [Nat.add_zero, Nat.mod_add_mod]

omit [DecidableEq K] in
/-- In an array of twice the size a window that does not wrap around is where it was, or behind the old slots. -/
theorem path_double {size j : ℕ} (key : K) (h : T.path size key 0 + j < size) :
    T.path (size * 2) key j = T.path size key 0 + j ∨ T.path (size * 2) key j = T.path size key 0 + size + j := by
  have hfirst : ∀ size, T.path size key 0 = (T.toSize key + 1) % size := fun size => by
    unfold Types.path
    rw [Nat.add_zero, Nat.mod_add_mod]
  rw [path_add (size * 2), hfirst (size * 2)]
  rcases mod_double (T.toSize key + 1) size with hlow | hhigh
  · rw [hlow, ← hfirst size, Nat.mod_eq_of_lt (by omega)]
    exact .inl rfl
  · rw [hhigh, ← hfirst size, Nat.mod_eq_of_lt (by omega)]
    exact .inr rfl

/-- Where a key that did not wrap around was, counted from the first slot of its window. -/
theorem Holds.reach {key : K} {value : V} (h : Holds T nodes m) (hwrapped : ¬ T.Wrapped nodes)
    (hnode : nodes[i]? = some ⟨key, value⟩) (hkey : key ≠ T.emptyKey) :
    ∃ j < window nodes.length, T.path nodes.length key 0 + j = i := by
  obtain ⟨hi, -⟩ := List.getElem?_eq_some_iff.mp hnode
  obtain ⟨j, hj, hpath, -⟩ := h.probed i key (slots_eq_some_iff.mpr ⟨hkey, value, hnode⟩)
  have hbehind : T.path nodes.length key 0 ≤ i := by
    by_contra hlt
    exact hwrapped ⟨i, key, slots_eq_some_iff.mpr ⟨hkey, value, hnode⟩, Nat.lt_of_not_le hlt⟩
  have hle := window_le nodes.length
  have hlt := path_lt (T := T) h.size_pos key 0
  refine ⟨j, hj, ?_⟩
  rw [path_add] at hpath
  generalize T.path nodes.length key 0 = a at hpath hbehind hlt ⊢
  by_cases hend : a + j < nodes.length
  · rwa [Nat.mod_eq_of_lt hend] at hpath
  · rw [Nat.mod_eq_sub_mod (by omega), Nat.mod_eq_of_lt (by omega)] at hpath
    omega

/-- Then there is a free slot for it, not later. -/
theorem Moving.free {key : K} {value : V} (hm : Holds T nodes m) (h : Moving T nodes i arrays)
    (hwrapped : ¬ T.Wrapped nodes) (hnode : nodes[i]? = some ⟨key, value⟩) (hkey : key ≠ T.emptyKey) :
    ∃ j < window arrays.2.length, T.slots arrays.2 (T.path arrays.2.length key j) = none ∧
      ∀ j' ≤ j, T.path arrays.2.length key j' < i + 1 ∨
        nodes.length ≤ T.path arrays.2.length key j' ∧ T.path arrays.2.length key j' < nodes.length + (i + 1) := by
  obtain ⟨hi, -⟩ := List.getElem?_eq_some_iff.mp hnode
  obtain ⟨j, hj, hreach⟩ := hm.reach hwrapped hnode hkey
  have hdouble := window_le_double nodes.length
  have hpath : ∀ j' ≤ j, T.path arrays.2.length key j' = T.path nodes.length key 0 + j' ∨
      T.path arrays.2.length key j' = T.path nodes.length key 0 + nodes.length + j' := by
    intro j' hj'
    rw [h.size]
    exact path_double key (by omega)
  refine ⟨j, by rw [h.size]; omega, ?_, fun j' hj' => ?_⟩
  · by_contra hsome
    obtain ⟨key', hslot⟩ := Option.ne_none_iff_exists'.mp hsome
    have hfront := h.front hwrapped _ _ hslot
    have hhere := hpath j (Nat.le_refl j)
    omega
  · have hhere := hpath j' hj'
    omega

omit [DecidableEq K] in
theorem path_injOn {size : ℕ} (key : K) : ∀ i < window size, ∀ j < window size,
    T.path size key i = T.path size key j → i = j := by
  intro i hi j hj hij
  have hle := window_le size
  have hmod : i ≡ j [MOD size] := Nat.ModEq.add_left_cancel' (T.toSize key % size + 1) hij
  rwa [Nat.ModEq, Nat.mod_eq_of_lt (by omega), Nat.mod_eq_of_lt (by omega)] at hmod

/-- A window of the new array that is full has keys of the slots that are moved, so they are more than a window. -/
theorem Moving.large {key : K} (h : Moving T nodes i arrays) (hi : i < nodes.length)
    (hfull : T.Past arrays.2 key (window arrays.2.length)) : 300 < nodes.length := by
  obtain ⟨m', hholds, hiff⟩ := h.holds
  have hcard : ((nodes.take i).map Node.key).toFinset.card ≤ i := by
    have hle := ((nodes.take i).map Node.key).toFinset_card_le
    rw [List.length_map, List.length_take] at hle
    omega
  have hkeys : ∀ p key', T.slots arrays.2 p = some key' → key' ∈ ((nodes.take i).map Node.key).toFinset := by
    intro p key' hslot
    obtain ⟨value, hm', -⟩ := hholds.slots_iff.mp hslot
    obtain ⟨-, q, hq, hat⟩ := (hiff key' value).mp hm'
    have hmem : (⟨key', value⟩ : Node K V) ∈ nodes.take i :=
      List.mem_iff_getElem?.mpr ⟨q, by rw [List.getElem?_take_of_lt hq, hat]⟩
    exact List.mem_toFinset.mpr (List.mem_map.mpr ⟨_, hmem, rfl⟩)
  have hle := hholds.probed.le_card hfull (path_injOn key) hkeys
  rw [h.size] at hle
  unfold window at hle
  omega

/-- The slot is marked in the old array: its keys stay, and so do the slots that are not moved yet. -/
theorem Moving.marked {node : Node K V} (h : Moving T nodes i arrays) (hold : arrays.1[i]? = some node) :
    (arrays.1.set i { node with value := T.migrateValue }).map Node.key = nodes.map Node.key ∧
      ∀ p, i + 1 ≤ p → (arrays.1.set i { node with value := T.migrateValue })[p]? = nodes[p]? := by
  obtain ⟨hlt, hget⟩ := List.getElem?_eq_some_iff.mp hold
  have hlt' : i < (arrays.1.map Node.key).length := by rwa [List.length_map]
  have hkey : (arrays.1.map Node.key)[i] = node.key := by rw [List.getElem_map, hget]
  refine ⟨by rw [List.map_set, ← h.keys, ← hkey, List.set_getElem_self], fun p hp => ?_⟩
  rw [List.getElem?_set_ne (by omega)]
  exact h.rest p (by omega)

omit [DecidableEq K] in
/-- Another key is in a slot in front of `i + 1` when it is in one in front of `i`. -/
theorem exists_succ_iff {node : Node K V} {key : K} {value : V} (hnode : nodes[i]? = some node) (hne : key ≠ node.key) :
    (∃ p < i, nodes[p]? = some ⟨key, value⟩) ↔ ∃ p < i + 1, nodes[p]? = some ⟨key, value⟩ := by
  constructor
  · rintro ⟨p, hp, hat⟩
    exact ⟨p, Nat.lt_succ_of_lt hp, hat⟩
  · rintro ⟨p, hp, hat⟩
    have hpi : p ≠ i := by
      rintro rfl
      rw [hnode] at hat
      exact hne (congrArg Node.key (Option.some.inj hat)).symm
    exact ⟨p, by omega, hat⟩

/-- An empty slot is passed. -/
theorem Moving.skip {node : Node K V} (h : Moving T nodes i arrays) (hnode : nodes[i]? = some node)
    (hkey : node.key = T.emptyKey) (hold : arrays.1[i]? = some node) :
    Moving T nodes (i + 1) (arrays.1.set i { node with value := T.migrateValue }, arrays.2) := by
  obtain ⟨m', hholds, hiff⟩ := h.holds
  obtain ⟨hkeys, hrest⟩ := h.marked hold
  refine ⟨hkeys, hrest, h.size, ⟨m', hholds, fun key value => ?_⟩, fun hwrapped p key hslot => ?_⟩
  · rw [hiff]
    exact and_congr_right fun hne => exists_succ_iff hnode (hkey ▸ hne)
  · have hfront := h.front hwrapped p key hslot
    show p < i + 1 ∨ nodes.length ≤ p ∧ p < nodes.length + (i + 1)
    omega

/-- The key of the slot, and its value, are put into the first slot of its window in the new array that is free. -/
theorem Moving.move {node node' : Node K V} (hm : Holds T nodes m) (h : Moving T nodes i arrays)
    (hnode : nodes[i]? = some node) (hkey : node.key ≠ T.emptyKey) (hold : arrays.1[i]? = some node) {j : ℕ}
    (hj : j < window arrays.2.length) (hpass : T.Past arrays.2 node.key j)
    (hnode' : arrays.2[T.path arrays.2.length node.key j]? = some node')
    (hslot : node'.key = node.key ∨ node'.key = T.emptyKey) :
    Moving T nodes (i + 1) (arrays.1.set i { node with value := T.migrateValue },
      arrays.2.set (T.path arrays.2.length node.key j) ⟨node.key, node.value⟩) := by
  obtain ⟨m', hholds, hiff⟩ := h.holds
  obtain ⟨hkeys, hrest⟩ := h.marked hold
  have hset := hholds.set hkey (hm.stored node (List.mem_of_getElem? hnode) hkey) hj hpass hnode' hslot
  refine ⟨hkeys, hrest, ?_, ⟨_, hset, fun key value => ?_⟩, fun hwrapped p key hslot => ?_⟩
  · show (arrays.2.set _ _).length = _
    rw [List.length_set, h.size]
  · by_cases hk : key = node.key
    · subst hk
      rw [Function.update_self]
      constructor
      · intro heq
        exact ⟨hkey, i, Nat.lt_succ_self i, by rw [hnode, ← Option.some.inj heq]⟩
      · rintro ⟨-, p, -, hat⟩
        have hpi : p = i := hm.probed.unique (slots_eq_some_iff.mpr ⟨hkey, value, hat⟩)
          (slots_eq_some_iff.mpr ⟨hkey, node.value, hnode⟩)
        rw [hpi, hnode] at hat
        exact congrArg some (congrArg Node.value (Option.some.inj hat))
    · rw [Function.update_of_ne hk, hiff]
      exact and_congr_right fun _ => exists_succ_iff hnode hk
  · rw [slots_set (path_lt hholds.size_pos node.key j) hkey] at hslot
    by_cases hp : p = T.path arrays.2.length node.key j
    · obtain ⟨j', -, hfree, hfront⟩ := h.free hm hwrapped hnode hkey
      have hle : j ≤ j' := by
        by_contra hgt
        obtain ⟨key', htaken, -⟩ := hpass j' (Nat.lt_of_not_le hgt)
        rw [hfree] at htaken
        cases htaken
      rw [hp]
      exact hfront j hle
    · rw [Function.update_of_ne hp] at hslot
      have hfront := h.front hwrapped p key hslot
      show p < i + 1 ∨ nodes.length ≤ p ∧ p < nodes.length + (i + 1)
      omega

variable [DecidableEq V]

/-- The migration goes on, or overflows, which only an array can that is large and has a key that wrapped around. -/
def Moves (T : Types K V) (nodes : Nodes K V) (i : ℕ) (r : Except (Failure K V) (Nodes K V × Nodes K V)) : Prop :=
  (∃ arrays, r = .ok arrays ∧ Moving T nodes i arrays) ∨ ∃ old, r = .error (.overflow old) ∧ T.MayOverflow old

theorem Moving.step (hm : Holds T nodes m) (h : Moving T nodes i arrays) (hi : i < nodes.length) :
    Moves T nodes (i + 1) (T.runNode arrays i) := by
  obtain ⟨node, hnode⟩ : ∃ node, nodes[i]? = some node := ⟨_, List.getElem?_eq_getElem hi⟩
  have hmem := List.mem_of_getElem? hnode
  have hold : arrays.1[i]? = some node := (h.rest i (Nat.le_refl i)).trans hnode
  unfold Types.runNode
  simp only [hold]
  by_cases hvalue : node.value = T.emptyValue
  · have hkey : node.key = T.emptyKey := by
      by_contra hne
      exact (hm.stored node hmem hne).1 hvalue
    rw [if_pos hvalue]
    exact .inl ⟨_, rfl, h.skip hnode hkey hold⟩
  · have hkey : node.key ≠ T.emptyKey := fun hempty => hvalue (hm.empty node hmem hempty)
    obtain ⟨m', hholds, -⟩ := h.holds
    rw [if_neg hvalue]
    have hwith := withValue_create (T := T) hholds.size_pos node.key fun _ => (node.value, ())
    rcases hrun : T.withValue arrays.2 node.key true (fun _ => (node.value, ())) with - | ⟨new, result⟩
    · rw [hrun] at hwith
      refine .inr ⟨_, rfl, (mayOverflow_congr (h.marked hold).1).mpr ⟨h.large hi hwith, ?_⟩⟩
      by_contra hwrapped
      obtain ⟨j, hj, hfree, -⟩ := h.free hm hwrapped hnode hkey
      obtain ⟨key', hslot, -⟩ := hwith j hj
      rw [hfree] at hslot
      cases hslot
    · rw [hrun] at hwith
      obtain ⟨j, hj, node', hpass, hnode', hslot, rfl, -⟩ := hwith
      exact .inl ⟨_, rfl, h.move hm hnode hkey hold hj hpass hnode' hslot⟩

/-! ### All slots -/

omit [DecidableEq V] in
theorem moving_start (hsize : 0 < nodes.length) : Moving T nodes 0 (nodes, T.newArray (nodes.length * 2)) := by
  have hnew : Holds T (T.newArray (nodes.length * 2)) fun _ => none := holds_newArray (by omega)
  refine ⟨rfl, fun _ _ => rfl, List.length_replicate, ⟨_, hnew, fun key value => ?_⟩, fun _ p key hslot => ?_⟩
  · simp
  · obtain ⟨value, hnone, -⟩ := hnew.slots_iff.mp hslot
    cases hnone

theorem Moving.run (hm : Holds T nodes m) (n : ℕ) (h : Moving T nodes i arrays) (hi : i + n ≤ nodes.length) :
    Moves T nodes (i + n) ((List.range' i n).foldlM T.runNode arrays) := by
  induction n generalizing i arrays with
  | zero => exact .inl ⟨arrays, rfl, h⟩
  | succ n ih =>
    rw [List.range'_succ]
    rcases h.step hm (by omega) with ⟨arrays', hrun, hnext⟩ | ⟨old, hrun, hwrapped⟩
    · rw [foldlM_cons_ok hrun, ← Nat.add_assoc, Nat.add_right_comm i n 1]
      exact ih hnext (by omega)
    · rw [foldlM_cons_error hrun]
      exact .inr ⟨old, rfl, hwrapped⟩

/-! ### Keys that do not meet -/

/-- Each key is in the first slot of its window. -/
def Types.Home (T : Types K V) (nodes : Nodes K V) : Prop :=
  ∀ p key, T.slots nodes p = some key → p = T.path nodes.length key 0

omit [DecidableEq V] in
theorem home_set {key : K} (h : T.Home nodes) (hsize : 0 < nodes.length) (hkey : key ≠ T.emptyKey) (value : V) :
    T.Home (nodes.set (T.path nodes.length key 0) ⟨key, value⟩) := by
  intro p key' hslot
  rw [slots_set (path_lt hsize key 0) hkey] at hslot
  rw [List.length_set]
  by_cases hp : p = T.path nodes.length key 0
  · rw [hp, Function.update_self] at hslot
    rw [hp, Option.some.inj hslot]
  · rw [Function.update_of_ne hp] at hslot
    exact h p key' hslot

omit [DecidableEq V] in
theorem home_newArray (n : ℕ) : T.Home (T.newArray n) := by
  intro p key hslot
  rw [slots_newArray] at hslot
  cases hslot

theorem window_pos {size : ℕ} (hsize : 0 < size) : 0 < window size := by
  unfold window
  omega

/-- The key of the next slot does not meet one that is moved. -/
theorem Moving.step_home (hm : Holds T nodes m) (h : Moving T nodes i arrays) (hi : i < nodes.length)
    (hhome : T.Home arrays.2) (hapart : ∀ p < i, ∀ key key', T.slots nodes p = some key → T.slots nodes i = some key' →
      T.path (nodes.length * 2) key' 0 ≠ T.path (nodes.length * 2) key 0) :
    ∃ arrays', T.runNode arrays i = .ok arrays' ∧ Moving T nodes (i + 1) arrays' ∧ T.Home arrays'.2 := by
  have hrun : ∃ arrays', T.runNode arrays i = .ok arrays' ∧ T.Home arrays'.2 := by
    obtain ⟨node, hnode⟩ : ∃ node, nodes[i]? = some node := ⟨_, List.getElem?_eq_getElem hi⟩
    have hold : arrays.1[i]? = some node := (h.rest i (Nat.le_refl i)).trans hnode
    obtain ⟨m', hholds, hiff⟩ := h.holds
    unfold Types.runNode
    simp only [hold]
    by_cases hvalue : node.value = T.emptyValue
    · rw [if_pos hvalue]
      exact ⟨_, rfl, hhome⟩
    · have hkey : node.key ≠ T.emptyKey := fun hempty => hvalue (hm.empty node (List.mem_of_getElem? hnode) hempty)
      have hfree : T.slots arrays.2 (T.path arrays.2.length node.key 0) = none := by
        by_contra hsome
        obtain ⟨key', hslot⟩ := Option.ne_none_iff_exists'.mp hsome
        obtain ⟨value', hm', -⟩ := hholds.slots_iff.mp hslot
        obtain ⟨hkey', p, hp, hat⟩ := (hiff key' value').mp hm'
        have hmeet := hhome _ _ hslot
        rw [h.size] at hmeet
        exact hapart p hp key' node.key (slots_eq_some_iff.mpr ⟨hkey', value', hat⟩)
          (slots_eq_some_iff.mpr ⟨hkey, node.value, hnode⟩) hmeet
      obtain ⟨node', -, -, hwith⟩ := withValue_free hholds.size_pos (window_pos hholds.size_pos) passed_zero hfree
        fun _ => (node.value, ())
      rw [if_neg hvalue, hwith]
      exact ⟨_, rfl, home_set hhome hholds.size_pos hkey _⟩
  obtain ⟨arrays', hrun, hhome'⟩ := hrun
  have hstep := h.step hm hi
  rw [hrun] at hstep
  rcases hstep with ⟨arrays'', heq, hmoving⟩ | ⟨old, heq, -⟩
  · obtain rfl := Except.ok.inj heq
    exact ⟨arrays', hrun, hmoving, hhome'⟩
  · cases heq

theorem Moving.run_home (hm : Holds T nodes m) (n : ℕ) (h : Moving T nodes i arrays) (hi : i + n ≤ nodes.length)
    (hhome : T.Home arrays.2) (hapart : ∀ p q key key', p < q → q < i + n → T.slots nodes p = some key →
      T.slots nodes q = some key' → T.path (nodes.length * 2) key' 0 ≠ T.path (nodes.length * 2) key 0) :
    ∃ arrays', (List.range' i n).foldlM T.runNode arrays = .ok arrays' ∧ Moving T nodes (i + n) arrays' ∧
      T.Home arrays'.2 := by
  induction n generalizing i arrays with
  | zero => exact ⟨arrays, rfl, h, hhome⟩
  | succ n ih =>
    rw [List.range'_succ]
    obtain ⟨arrays', hrun, hmoving, hhome'⟩ := h.step_home hm (by omega) hhome
      fun p hp key key' => hapart p i key key' hp (by omega)
    rw [foldlM_cons_ok hrun, ← Nat.add_assoc, Nat.add_right_comm i n 1]
    exact ih hmoving (by omega) hhome' fun p q key key' hpq hq => hapart p q key key' hpq (by omega)

omit [DecidableEq V] in
/-- When all slots are moved, the new array holds the same map. -/
theorem Moving.finish (hm : Holds T nodes m) (h : Moving T nodes nodes.length arrays) : Holds T arrays.2 m := by
  obtain ⟨m', hholds, hiff⟩ := h.holds
  have heq : m' = m := by
    funext key
    ext value
    rw [hiff, hm.mem_iff]
    refine and_congr_right fun _ => ⟨fun ⟨p, _, hat⟩ => List.mem_of_getElem? hat, fun hmem => ?_⟩
    obtain ⟨p, hp⟩ := List.mem_iff_getElem?.mp hmem
    exact ⟨p, (List.getElem?_eq_some_iff.mp hp).1, hp⟩
  rwa [← heq]

omit [DecidableEq K] [DecidableEq V] in
theorem createTask_empty (size pos : ℕ) : (createTask size pos).empty = true ↔ size ≤ pos * 100 := by
  rw [Task.empty, createTask, decide_eq_true_iff]
  show min (pos * 100 + 100) size ≤ pos * 100 ↔ size ≤ pos * 100
  omega

/-- The tasks are the slots in their order. -/
theorem runMigrate_eq (size : ℕ) (n pos : ℕ) (hn : size ≤ (pos + n) * 100) (arrays : Nodes K V × Nodes K V) :
    T.runMigrate size (n + 1) pos arrays =
      (List.range' (pos * 100) (size - pos * 100)).foldlM T.runNode arrays := by
  induction n generalizing pos arrays with
  | zero =>
    rw [Nat.add_zero] at hn
    rw [Types.runMigrate, if_pos ((createTask_empty size pos).mpr hn), Nat.sub_eq_zero_of_le hn]
    rfl
  | succ n ih =>
    rw [Types.runMigrate]
    by_cases hempty : size ≤ pos * 100
    · rw [if_pos ((createTask_empty size pos).mpr hempty), Nat.sub_eq_zero_of_le hempty]
      rfl
    · have hsplit : List.range' (pos * 100) (size - pos * 100) =
          List.range' (pos * 100) (min (pos * 100 + 100) size - pos * 100) ++
            List.range' ((pos + 1) * 100) (size - (pos + 1) * 100) := by
        by_cases hlast : size ≤ (pos + 1) * 100
        · rw [Nat.sub_eq_zero_of_le hlast, Nat.min_eq_right (by omega)]
          exact (List.append_nil _).symm
        · have hsum : size - pos * 100 = 100 + (size - (pos + 1) * 100) := by omega
          rw [Nat.min_eq_left (by omega), Nat.add_sub_cancel_left, hsum, ← List.range'_append_1, Nat.succ_mul]
      rw [if_neg fun h => hempty ((createTask_empty size pos).mp h), hsplit, List.foldlM_append]
      have hnext : ∀ arrays, T.runMigrate size (n + 1) (pos + 1) arrays = _ := fun arrays => ih (pos + 1) (by omega) arrays
      simp only [hnext]
      rfl

/-! ### `do_migrate` -/

/-- No migration is going on. -/
structure Quiet (s : ConcurrentHashMap K V) (array : HashMap K V) : Prop where
  hashMap : s.hashMap = some array
  migrateCnt : s.migrateCnt = 0
  migrateFrom : s.migrateFrom = none
  migrateTo : s.migrateTo = none

variable {s : ConcurrentHashMap K V} {array : HashMap K V}

/-- The only thread does the whole migration. -/
theorem doMigrate_eq (hs : Quiet s array) : T.doMigrate s (some array.address) = (do
    let arrays ← (List.range' 0 array.nodes.length).foldlM T.runNode
      (array.nodes, T.newArray (array.nodes.length * 2))
    return ⟨some ⟨s.allocated, arrays.2⟩, 0, s.migrateGeneration + 2, none, none, s.allocated + 1⟩) := by
  have hinit : T.initMigrate s = .ok { s with
      migrateGeneration := s.migrateGeneration + 1
      hashMap := none
      migrateFrom := some array
      migrateTo := some ⟨s.allocated, T.newArray (array.nodes.length * 2)⟩
      allocated := s.allocated + 1 } := by
    simp [Types.initMigrate, hs.hashMap, hs.migrateCnt, hs.migrateFrom]
  have hrun := fun arrays => runMigrate_eq (T := T) array.nodes.length (array.nodes.length / 100 + 1) 0 (by omega) arrays
  have haddress : ¬ s.hashMap.map HashMap.address ≠ some array.address := by simp [hs.hashMap]
  unfold Types.doMigrate
  rw [if_neg haddress, hinit]
  simp only [bind, Except.bind, Option.map_some, ne_eq, not_true_eq_false, and_false, if_false, hrun, Nat.zero_mul,
    Nat.sub_zero, hs.migrateCnt]
  rcases (List.range' 0 array.nodes.length).foldlM T.runNode (array.nodes, T.newArray (array.nodes.length * 2)) with
    e | arrays
  · rfl
  · simp [Types.finishMigrate, pure, Except.pure]

/-- A migration overflows, or there is an array of twice the size with the same map. -/
theorem doMigrate_spec (hs : Quiet s array) (h : Holds T array.nodes m) :
    (∃ s' array', T.doMigrate s (some array.address) = .ok s' ∧ Quiet s' array' ∧ Holds T array'.nodes m ∧
      array'.nodes.length = array.nodes.length * 2) ∨
    ∃ old, T.doMigrate s (some array.address) = .error (.overflow old) ∧ T.MayOverflow old := by
  rw [doMigrate_eq hs]
  rcases (moving_start h.size_pos).run h array.nodes.length (by omega) with ⟨arrays, hrun, hmoving⟩ | ⟨old, hrun, hold⟩
  · rw [Nat.zero_add] at hmoving
    rw [hrun]
    exact .inl ⟨_, ⟨s.allocated, arrays.2⟩, rfl, ⟨rfl, rfl, rfl, rfl⟩, hmoving.finish h, hmoving.size⟩
  · rw [hrun]
    exact .inr ⟨old, rfl, hold⟩

end ConcurrentHashTable

end TdUtils.Concurrent
