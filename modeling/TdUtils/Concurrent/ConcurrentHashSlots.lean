import TdUtils.Concurrent.ConcurrentHashTable

/-!
# Concurrent.ConcurrentHashSlots — what an array holds

`Holds nodes m`: the array was filled with the keys of the finite map `m`, each of them behind taken slots of its window
only.  `with_value` finds the slot of a key, or the first free one.
-/

namespace TdUtils.Concurrent

open Lib Probing

universe u v w

variable {K : Type u} {V : Type v} [DecidableEq K]

namespace ConcurrentHashTable

variable {T : Types K V} {nodes : Nodes K V} {m : K → Option V} {key : K} {value : V} {p : ℕ}

namespace Types

variable (T : Types K V)

/-- The key in a slot. -/
def slots (nodes : Nodes K V) (p : ℕ) : Option K :=
  nodes[p]?.bind fun node => if node.key = T.emptyKey then none else some node.key

/-- The slots in which `with_value` looks for a key. -/
def path (size : ℕ) (key : K) (i : ℕ) : ℕ := (T.toSize key % size + 1 + i) % size

/-- The first `i` of them have other keys. -/
abbrev Past (nodes : Nodes K V) (key : K) (i : ℕ) : Prop := Passed (T.path nodes.length) (T.slots nodes) key i

/-- A value that can be stored. -/
def Stored (value : V) : Prop := value ≠ T.emptyValue ∧ value ≠ T.migrateValue

end Types

structure Holds (T : Types K V) (nodes : Nodes K V) (m : K → Option V) : Prop where
  size_pos : 0 < nodes.length
  probed : Probed (T.path nodes.length) (window nodes.length) (T.slots nodes)
  mem_iff : ∀ key value, m key = some value ↔ key ≠ T.emptyKey ∧ ⟨key, value⟩ ∈ nodes
  empty : ∀ node ∈ nodes, node.key = T.emptyKey → node.value = T.emptyValue
  stored : ∀ node ∈ nodes, node.key ≠ T.emptyKey → T.Stored node.value

theorem slots_eq_some_iff : T.slots nodes p = some key ↔
    key ≠ T.emptyKey ∧ ∃ value, nodes[p]? = some ⟨key, value⟩ := by
  unfold Types.slots
  rcases nodes[p]? with - | ⟨key', value⟩
  · simp
  · simp only [Option.bind_some, Option.ite_none_left_eq_some, Option.some.injEq, Node.mk.injEq]
    constructor
    · rintro ⟨hne, rfl⟩
      exact ⟨hne, value, rfl, rfl⟩
    · rintro ⟨hne, -, rfl, -⟩
      exact ⟨hne, rfl⟩

theorem slots_eq_none_iff (hp : p < nodes.length) : T.slots nodes p = none ↔ (nodes[p]).key = T.emptyKey := by
  unfold Types.slots
  rw [List.getElem?_eq_getElem hp]
  simp

theorem slots_set (hp : p < nodes.length) (hkey : key ≠ T.emptyKey) (value : V) :
    T.slots (nodes.set p ⟨key, value⟩) = Function.update (T.slots nodes) p (some key) := by
  ext q
  unfold Types.slots
  by_cases hq : q = p
  · subst hq
    rw [Function.update_self, List.getElem?_set_self hp, Option.bind_some, if_neg hkey]
  · rw [Function.update_of_ne hq, List.getElem?_set_ne (Ne.symm hq)]

omit [DecidableEq K] in
theorem path_lt (hsize : 0 < nodes.length) (key : K) (i : ℕ) : T.path nodes.length key i < nodes.length :=
  Nat.mod_lt _ hsize

/-- One slot further, and from the last slot to the first. -/
theorem next_slot {size : ℕ} (hsize : 0 < size) (a : ℕ) :
    (if size ≤ a % size + 1 then 0 else a % size + 1) = (a + 1) % size := by
  have hlt := Nat.mod_lt a hsize
  rw [← Nat.mod_add_mod a size 1]
  generalize a % size = r at hlt ⊢
  by_cases hlast : size ≤ r + 1
  · have heq : r + 1 = size := by omega
    rw [if_pos hlast, heq, Nat.mod_self]
  · rw [if_neg hlast, Nat.mod_eq_of_lt (Nat.lt_of_not_le hlast)]

/-- What the loop of `with_value` finds, when it has passed other keys in the first `i` slots. -/
theorem probe_spec (hsize : 0 < nodes.length) (create : Bool) (n i : ℕ)
    (hpass : T.Past nodes key i) :
    match T.probe nodes key create n ((T.toSize key % nodes.length + i) % nodes.length) with
    | some p => ∃ j < i + n, p = T.path nodes.length key j ∧ T.Past nodes key j ∧
        (T.slots nodes p = some key ∨ T.slots nodes p = none ∧ create = true)
    | none => T.Past nodes key (i + n) ∨
        create = false ∧ ∃ j, T.Past nodes key j ∧
          T.slots nodes (T.path nodes.length key j) = none := by
  induction n generalizing i with
  | zero => exact .inl hpass
  | succ n ih =>
    have hlt := path_lt (T := T) hsize key i
    have hpos : (if nodes.length ≤ (T.toSize key % nodes.length + i) % nodes.length + 1 then 0
        else (T.toSize key % nodes.length + i) % nodes.length + 1) = T.path nodes.length key i := by
      rw [next_slot hsize, Types.path]
      congr 1
      omega
    rw [Types.probe]
    simp only [hpos, List.getElem?_eq_getElem hlt]
    by_cases hempty : (nodes[T.path nodes.length key i]).key = T.emptyKey
    · have hfree := (slots_eq_none_iff hlt).mpr hempty
      rw [if_pos hempty]
      cases create with
      | true => exact ⟨i, by omega, rfl, hpass, .inr ⟨hfree, rfl⟩⟩
      | false => exact .inr ⟨rfl, i, hpass, hfree⟩
    · have hslot : T.slots nodes (T.path nodes.length key i) = some (nodes[T.path nodes.length key i]).key :=
        slots_eq_some_iff.mpr ⟨hempty, _, List.getElem?_eq_getElem hlt⟩
      rw [if_neg hempty]
      by_cases heq : (nodes[T.path nodes.length key i]).key = key
      · rw [if_pos heq]
        exact ⟨i, by omega, rfl, hpass, .inl (by rw [hslot, heq])⟩
      · rw [if_neg heq]
        have hnext := ih (i + 1) (hpass.succ hslot heq)
        have hhere : (T.toSize key % nodes.length + (i + 1)) % nodes.length = T.path nodes.length key i := by
          rw [Types.path]
          congr 1
          omega
        rwa [hhere, Nat.add_assoc, Nat.add_comm 1 n] at hnext

/-- `with_value` for a key that may be created. -/
theorem withValue_create (hsize : 0 < nodes.length) (key : K) {R : Type w} (f : V → V × R) :
    match T.withValue nodes key true f with
    | some (nodes', result) => ∃ j < window nodes.length, ∃ node,
        T.Past nodes key j ∧
        nodes[T.path nodes.length key j]? = some node ∧ (node.key = key ∨ node.key = T.emptyKey) ∧
        nodes' = nodes.set (T.path nodes.length key j) ⟨key, (f node.value).1⟩ ∧ result = (f node.value).2
    | none => T.Past nodes key (window nodes.length) := by
  have hzero : T.Past nodes key 0 := passed_zero
  have hprobe := probe_spec hsize true (window nodes.length) 0 hzero
  rw [Nat.add_zero, Nat.mod_mod, Nat.zero_add] at hprobe
  unfold Types.withValue
  rcases hrun : T.probe nodes key true (window nodes.length) (T.toSize key % nodes.length) with - | p
  · rw [hrun] at hprobe
    exact hprobe.resolve_right fun h => (by cases h.1)
  · rw [hrun] at hprobe
    obtain ⟨j, hj, rfl, hpass, hslot⟩ := hprobe
    have hlt := path_lt (T := T) hsize key j
    simp only [List.getElem?_eq_getElem hlt]
    refine ⟨j, hj, _, hpass, List.getElem?_eq_getElem hlt, ?_, rfl, rfl⟩
    rcases hslot with hslot | ⟨hslot, -⟩
    · obtain ⟨-, value, hnode⟩ := slots_eq_some_iff.mp hslot
      rw [List.getElem?_eq_getElem hlt] at hnode
      rw [Option.some.inj hnode]
      exact .inl rfl
    · exact .inr ((slots_eq_none_iff hlt).mp hslot)

/-- Behind other keys, the first free slot is taken. -/
theorem withValue_free (hsize : 0 < nodes.length) {j : ℕ} (hj : j < window nodes.length) (hpass : T.Past nodes key j)
    (hfree : T.slots nodes (T.path nodes.length key j) = none) {R : Type w} (f : V → V × R) :
    ∃ node, nodes[T.path nodes.length key j]? = some node ∧ node.key = T.emptyKey ∧
      T.withValue nodes key true f =
        some (nodes.set (T.path nodes.length key j) ⟨key, (f node.value).1⟩, (f node.value).2) := by
  have hwith := withValue_create (T := T) hsize key f
  rcases hrun : T.withValue nodes key true f with - | ⟨nodes', result⟩
  · rw [hrun] at hwith
    obtain ⟨key', hslot, -⟩ := hwith j hj
    rw [hfree] at hslot
    cases hslot
  · rw [hrun] at hwith
    obtain ⟨j', hj', node, hpass', hnode, hslot, rfl, rfl⟩ := hwith
    have hopen : ∀ key', T.slots nodes (T.path nodes.length key j') = some key' → key' = key := by
      intro key' hkey'
      obtain ⟨hne, value, hat⟩ := slots_eq_some_iff.mp hkey'
      rw [hnode] at hat
      have hkey : node.key = key' := congrArg Node.key (Option.some.inj hat)
      exact hkey.symm.trans (hslot.resolve_right fun hempty => hne (hkey.symm.trans hempty))
    obtain rfl : j' = j := by
      rcases Nat.lt_trichotomy j' j with hlt | heq | hgt
      · obtain ⟨key', hkey', hne⟩ := hpass j' hlt
        exact absurd (hopen key' hkey') hne
      · exact heq
      · obtain ⟨key', hkey', -⟩ := hpass' j hgt
        rw [hfree] at hkey'
        cases hkey'
    obtain ⟨hp, hget⟩ := List.getElem?_eq_some_iff.mp hnode
    have hempty := (slots_eq_none_iff hp).mp hfree
    rw [hget] at hempty
    exact ⟨node, hnode, hempty, rfl⟩

theorem withValue_full (hsize : 0 < nodes.length) (hfull : T.Past nodes key (window nodes.length)) {R : Type w}
    (f : V → V × R) : T.withValue nodes key true f = none := by
  have hwith := withValue_create (T := T) hsize key f
  rcases hrun : T.withValue nodes key true f with - | ⟨nodes', result⟩
  · rfl
  · rw [hrun] at hwith
    obtain ⟨j, hj, node, -, hnode, hslot, -⟩ := hwith
    obtain ⟨key', hkey', hne⟩ := hfull j hj
    obtain ⟨hne', value, hat⟩ := slots_eq_some_iff.mp hkey'
    rw [hnode] at hat
    have hkey : node.key = key' := congrArg Node.key (Option.some.inj hat)
    rw [hkey] at hslot
    exact absurd hslot (not_or.mpr ⟨hne, hne'⟩)

theorem Holds.slots_iff (h : Holds T nodes m) : T.slots nodes p = some key ↔
    ∃ value, m key = some value ∧ nodes[p]? = some ⟨key, value⟩ := by
  rw [slots_eq_some_iff]
  constructor
  · rintro ⟨hne, value, hnode⟩
    exact ⟨value, (h.mem_iff key value).mpr ⟨hne, List.mem_of_getElem? hnode⟩, hnode⟩
  · rintro ⟨value, hm, hnode⟩
    exact ⟨((h.mem_iff key value).mp hm).1, value, hnode⟩

/-- A key that is in no slot is not in the map. -/
theorem Holds.eq_none (h : Holds T nodes m) (habsent : ∀ p, T.slots nodes p ≠ some key) : m key = none := by
  rw [Option.eq_none_iff_forall_ne_some]
  intro value hm
  obtain ⟨hne, hmem⟩ := (h.mem_iff key value).mp hm
  obtain ⟨p, hp⟩ := List.mem_iff_getElem?.mp hmem
  exact habsent p (slots_eq_some_iff.mpr ⟨hne, value, hp⟩)

/-- `with_value` for a key that is only looked for. -/
theorem withValue_look (h : Holds T nodes m) :
    T.withValue nodes key false (fun old => (old, old)) = (m key).map fun value => (nodes, value) := by
  have hzero : T.Past nodes key 0 := passed_zero
  have hprobe := probe_spec h.size_pos false (window nodes.length) 0 hzero
  rw [Nat.add_zero, Nat.mod_mod, Nat.zero_add] at hprobe
  unfold Types.withValue
  rcases hrun : T.probe nodes key false (window nodes.length) (T.toSize key % nodes.length) with - | p
  · rw [hrun] at hprobe
    have habsent : m key = none := by
      rcases hprobe with hfull | ⟨-, j, hpass, hfree⟩
      · exact h.eq_none (h.probed.absent_of_full hfull)
      · exact h.eq_none (h.probed.absent hpass hfree)
    rw [habsent]
    rfl
  · rw [hrun] at hprobe
    obtain ⟨j, -, -, -, hslot⟩ := hprobe
    obtain ⟨value, hm, hnode⟩ := h.slots_iff.mp (hslot.resolve_right fun h => (by cases h.2))
    obtain ⟨hp, hget⟩ := List.getElem?_eq_some_iff.mp hnode
    simp only [hnode, hm, Option.map_some]
    rw [← hget, List.set_getElem_self]

section Slot

variable {j : ℕ} {node : Node K V}

/-- The slot that `with_value` finds has the value of the key, if it has one. -/
theorem Holds.old_value (h : Holds T nodes m) (hkey : key ≠ T.emptyKey) (hpass : T.Past nodes key j)
    (hnode : nodes[T.path nodes.length key j]? = some node) (hslot : node.key = key ∨ node.key = T.emptyKey) :
    node.value = (m key).getD T.emptyValue := by
  have hmem := List.mem_of_getElem? hnode
  rcases hslot with rfl | hempty
  · rw [(h.mem_iff node.key node.value).mpr ⟨hkey, hmem⟩, Option.getD_some]
  · have hfree : T.slots nodes (T.path nodes.length key j) = none := by
      rw [Types.slots, hnode, Option.bind_some, if_pos hempty]
    rw [h.empty node hmem hempty, h.eq_none (h.probed.absent hpass hfree), Option.getD_none]

/-- A value is stored in the slot of its key. -/
theorem Holds.set (h : Holds T nodes m) (hkey : key ≠ T.emptyKey) (hvalue : T.Stored value)
    (hj : j < window nodes.length) (hpass : T.Past nodes key j)
    (hnode : nodes[T.path nodes.length key j]? = some node) (hslot : node.key = key ∨ node.key = T.emptyKey) :
    Holds T (nodes.set (T.path nodes.length key j) ⟨key, value⟩) (Function.update m key (some value)) := by
  have hp := path_lt (T := T) h.size_pos key j
  have htable := slots_set hp hkey value
  have hprobed : Probed (T.path nodes.length) (window nodes.length)
      (T.slots (nodes.set (T.path nodes.length key j) ⟨key, value⟩)) := by
    rw [htable]
    rcases hslot with rfl | hempty
    · have hhere : T.slots nodes (T.path nodes.length node.key j) = some node.key :=
        slots_eq_some_iff.mpr ⟨hkey, node.value, hnode⟩
      rw [← hhere, Function.update_eq_self]
      exact h.probed
    · exact h.probed.put hpass hj (by rw [Types.slots, hnode, Option.bind_some, if_pos hempty])
  generalize T.path nodes.length key j = p at hp hnode htable hprobed ⊢
  have hhere : T.slots (nodes.set p ⟨key, value⟩) p = some key := by rw [htable, Function.update_self]
  refine ⟨by simpa using h.size_pos, by simpa using hprobed, fun key' value' => ?_, fun x hx hempty => ?_,
    fun x hx hne => ?_⟩
  · by_cases hk : key' = key
    · subst hk
      rw [Function.update_self]
      constructor
      · intro heq
        rw [← Option.some.inj heq]
        exact ⟨hkey, List.mem_of_getElem? (List.getElem?_set_self hp)⟩
      · rintro ⟨-, hmem⟩
        obtain ⟨q, hq⟩ := List.mem_iff_getElem?.mp hmem
        have hqp : q = p := hprobed.unique (slots_eq_some_iff.mpr ⟨hkey, value', hq⟩) hhere
        rw [hqp, List.getElem?_set_self hp] at hq
        exact congrArg some (congrArg Node.value (Option.some.inj hq))
    · rw [Function.update_of_ne hk, h.mem_iff]
      refine and_congr_right fun hne => ?_
      rw [List.mem_iff_getElem?, List.mem_iff_getElem?]
      refine exists_congr fun q => ?_
      by_cases hq : q = p
      · rw [hq, List.getElem?_set_self hp, hnode]
        constructor
        · intro heq
          have hkey' : node.key = key' := congrArg Node.key (Option.some.inj heq)
          rw [hkey'] at hslot
          exact absurd hslot (not_or.mpr ⟨hk, hne⟩)
        · intro heq
          exact absurd (congrArg Node.key (Option.some.inj heq)).symm hk
      · rw [List.getElem?_set_ne (Ne.symm hq)]
  · rcases List.mem_or_eq_of_mem_set hx with hmem | rfl
    · exact h.empty x hmem hempty
    · exact absurd hempty hkey
  · rcases List.mem_or_eq_of_mem_set hx with hmem | rfl
    · exact h.stored x hmem hne
    · exact hvalue

end Slot

theorem slots_newArray (n : ℕ) : T.slots (T.newArray n) = fun _ => none := by
  ext p : 1
  by_contra hsome
  obtain ⟨key, hkey⟩ := Option.ne_none_iff_exists'.mp hsome
  obtain ⟨hne, value, hnode⟩ := slots_eq_some_iff.mp hkey
  have heq := List.eq_of_mem_replicate (List.mem_of_getElem? hnode)
  exact hne (congrArg Node.key heq)

/-- A new array holds nothing. -/
theorem holds_newArray {n : ℕ} (hn : 0 < n) : Holds T (T.newArray n) fun _ => none := by
  have hmem : ∀ node ∈ T.newArray n, node = ⟨T.emptyKey, T.emptyValue⟩ := fun node hnode => List.eq_of_mem_replicate hnode
  refine ⟨by simpa [Types.newArray] using hn, by rw [slots_newArray]; exact probed_empty, fun key value => ?_, fun node hnode _ => ?_,
    fun node hnode hne => ?_⟩
  · constructor
    · intro h
      cases h
    · rintro ⟨hne, hnode⟩
      exact absurd (congrArg Node.key (hmem _ hnode)) hne
  · rw [hmem node hnode]
  · exact absurd (congrArg Node.key (hmem node hnode)) hne

end ConcurrentHashTable

end TdUtils.Concurrent
