import Mathlib.Data.Nat.Basic
import TdUtils.DecTree.Treap
import TdUtils.Lib.SortedMap

/-!
# DecTree.TreeMap — a tree is a map, whatever the priorities

`Refines` ties a tree to a map.  The priorities only show in the shape of the tree, but for one case: a
key that is there gets a second node when the drawn priority is above that of its node.
-/

namespace TdUtils.DecTree

open Lib

variable {κ ν : Type} [LinearOrder κ] {tree : DecTree κ ν} {m : SortedMap κ ν} {key : κ} {value : ν}
  {y : ℕ}

/-! ### The map of a tree -/

/-- One operation on the map; an entry that is there is kept. -/
def mapStep (m : SortedMap κ ν) : Op κ ν → SortedMap κ ν
  | .insert key value => if m.find key = none then m.set key value else m
  | .remove key => m.erase key

/-- The map that the operations make. -/
def mapOf (ops : List (Op κ ν)) : SortedMap κ ν := ops.foldl mapStep SortedMap.empty

def entry (n : κ × ν × ℕ) : κ × ν := (n.1, n.2.1)

/-- A tree with the entries of a map. -/
structure Refines (tree : DecTree κ ν) (m : SortedMap κ ν) : Prop where
  entries_eq : tree.nodes.map entry = m.entries
  sizes : SizesOk tree
  heap : HeapOk tree

/-- The priority is not above that of a node with the key. -/
def PriorityFits (tree : DecTree κ ν) : Op κ ν × ℕ → Prop
  | (.insert key _, y) => ∀ n ∈ tree.nodes, n.1 = key → y ≤ n.2.2
  | (.remove _, _) => True

theorem refines_null : Refines (null : DecTree κ ν) SortedMap.empty := ⟨rfl, trivial, trivial⟩

theorem Refines.search (h : Refines tree m) : SearchOk tree := by
  have hsorted := m.sorted
  rw [← h.entries_eq, List.pairwise_map] at hsorted
  exact hsorted

theorem Refines.mem_iff (h : Refines tree m) :
    (key, value) ∈ m.entries ↔ ∃ y, (key, value, y) ∈ tree.nodes := by
  rw [← h.entries_eq, List.mem_map]
  constructor
  · rintro ⟨⟨key', value', y⟩, hn, heq⟩
    obtain ⟨rfl, rfl⟩ := Prod.mk.inj heq
    exact ⟨y, hn⟩
  · rintro ⟨y, hn⟩
    exact ⟨_, hn, rfl⟩

theorem Refines.get_eq (h : Refines tree m) (key : κ) : tree.get key = m.find key := by
  apply Option.ext
  intro value
  rw [SortedMap.find_eq_some_iff, h.mem_iff]
  exact getNode_eq_some_iff h.search

theorem Refines.insert_new (h : Refines tree m) (hnew : m.find key = none) (value : ν) (y : ℕ) :
    Refines (tree.insert key value y) (m.set key value) := by
  have habsent : ∀ n ∈ tree.nodes, n.1 ≠ key := by
    rintro ⟨key', value', y'⟩ hn rfl
    exact SortedMap.find_eq_none_iff.mp hnew value' (h.mem_iff.mpr ⟨y', hn⟩)
  obtain ⟨below, above, hsplit, hbelow, habove, hins⟩ := nodes_insertNode h.search habsent value y
  refine ⟨?_, sizesOk_insertNode h.sizes, heapOk_insertNode h.heap⟩
  have hsorted := h.search
  unfold SearchOk at hsorted
  rw [hsplit, List.pairwise_append] at hsorted
  have hnodes : SearchOk (insertNode tree key value y) := by
    unfold SearchOk
    rw [hins, List.pairwise_append, List.pairwise_cons]
    refine ⟨hsorted.1, ⟨habove, hsorted.2.1⟩, fun a ha b hb => ?_⟩
    rcases List.mem_cons.mp hb with rfl | hb
    · exact hbelow a ha
    · exact hsorted.2.2 a ha b hb
  let m' : SortedMap κ ν := ⟨(insertNode tree key value y).nodes.map entry, List.pairwise_map.mpr hnodes⟩
  refine SortedMap.entries_ext (m := m') fun x => ?_
  have hold : ∀ x ∈ m.entries, x.1 ≠ key := by
    rintro ⟨key', value'⟩ hx rfl
    exact SortedMap.find_eq_none_iff.mp hnew value' hx
  have hx : x ∈ m'.entries ↔ x = (key, value) ∨ x ∈ m.entries := by
    show x ∈ (insertNode tree key value y).nodes.map entry ↔ _
    rw [hins, ← h.entries_eq, hsplit, List.map_append, List.map_append, List.map_cons, List.mem_append,
      List.mem_append, List.mem_cons, or_left_comm]
    rfl
  rw [hx, SortedMap.mem_set]
  exact or_congr_right ⟨fun hx => ⟨hx, hold x hx⟩, fun hx => hx.1⟩

theorem Refines.insert_old (h : Refines tree m) (hold : m.find key ≠ none)
    (hy : ∀ n ∈ tree.nodes, n.1 = key → y ≤ n.2.2) (value : ν) :
    Refines (tree.insert key value y) m := by
  obtain ⟨value', hvalue⟩ := Option.ne_none_iff_exists'.mp hold
  obtain ⟨y', hn⟩ := h.mem_iff.mp (SortedMap.find_eq_some_iff.mp hvalue)
  refine ⟨?_, sizesOk_insertNode h.sizes, heapOk_insertNode h.heap⟩
  rw [insert, nodes_insertNode_of_le h.search h.heap hn rfl (hy _ hn rfl), h.entries_eq]

theorem Refines.remove (h : Refines tree m) (key : κ) : Refines (tree.remove key) (m.erase key) := by
  refine ⟨?_, sizesOk_removeNode h.sizes, heapOk_removeNode h.heap h.search⟩
  have herase : (m.erase key).entries = (tree.nodes.map entry).filter fun x => x.1 ≠ key := by
    rw [h.entries_eq]
    rfl
  rw [herase, DecTree.remove, nodes_removeNode h.search, List.filter_map]
  rfl

theorem Refines.step (h : Refines tree m) {op : Op κ ν} (hfits : PriorityFits tree (op, y)) :
    Refines (tree.step (op, y)) (mapStep m op) := by
  cases op with
  | insert key value =>
    rw [mapStep]
    split_ifs with hnew
    · exact h.insert_new hnew value y
    · exact h.insert_old hnew hfits value
  | remove key => exact h.remove key

/-! ### Only absent keys -/

/-- Every `insert` is of a key that is not in the map at that time. -/
def InsertsAbsent (m : SortedMap κ ν) : List (Op κ ν) → Prop
  | [] => True
  | .insert key value :: ops => m.find key = none ∧ InsertsAbsent (mapStep m (.insert key value)) ops
  | .remove key :: ops => InsertsAbsent (mapStep m (.remove key)) ops

/-- What a tree is to be, and what its user is to see of it. -/
structure TreeOk (tree : DecTree κ ν) (m : SortedMap κ ν) : Prop where
  search : SearchOk tree
  heap : HeapOk tree
  sizes : SizesOk tree
  size_eq : tree.size = m.entries.length
  get_eq : ∀ key, tree.get key = m.find key
  exists_eq : ∀ key, tree.exists' key = (m.find key).isSome
  getNodeByIdx_eq : ∀ i (h : i < m.entries.length), tree.getNodeByIdx i = some m.entries[i].2
  getRandom_eq : ∀ r, tree.getRandom r = some (m.entries[r % m.entries.length]?.map Prod.snd)

theorem Refines.size_eq (h : Refines tree m) : tree.size = m.entries.length := by
  rw [h.sizes.size_eq, ← h.entries_eq, List.length_map]

theorem Refines.getNodeByIdx_eq (h : Refines tree m) (i : ℕ) :
    tree.getNodeByIdx i = m.entries[i]?.map Prod.snd := by
  rw [DecTree.getNodeByIdx_eq h.sizes, ← h.entries_eq, List.getElem?_map, Option.map_map]
  rfl

theorem Refines.treeOk (h : Refines tree m) : TreeOk tree m where
  search := h.search
  heap := h.heap
  sizes := h.sizes
  size_eq := h.size_eq
  get_eq := h.get_eq
  exists_eq := fun key => congrArg Option.isSome (h.get_eq key)
  getNodeByIdx_eq := fun i hi => by
    rw [h.getNodeByIdx_eq, List.getElem?_eq_getElem hi, Option.map_some]
  getRandom_eq := fun r => by
    unfold getRandom
    rw [h.getNodeByIdx_eq, h.size_eq]
    split_ifs with hempty
    · rw [List.length_eq_zero_iff.mp hempty]
      rfl
    · have hlt := Nat.mod_lt r (Nat.pos_of_ne_zero hempty)
      rw [List.getElem?_eq_getElem hlt]
      rfl

/-- No priority is in the way of a new key. -/
theorem Refines.priorityFits (h : Refines tree m) (hnew : m.find key = none) :
    PriorityFits tree (.insert key value, y) := by
  rintro ⟨key', value', y'⟩ hn rfl
  exact absurd (h.mem_iff.mpr ⟨y', hn⟩) (SortedMap.find_eq_none_iff.mp hnew value')

theorem refines_foldl (ops : List (Op κ ν)) (ys : List ℕ) (hlen : ys.length = ops.length)
    (h : Refines tree m) (hnew : InsertsAbsent m ops) :
    Refines ((ops.zip ys).foldl step tree) (ops.foldl mapStep m) := by
  induction ops generalizing tree m ys with
  | nil => exact h
  | cons op ops ih =>
    obtain ⟨y, ys, rfl⟩ := List.exists_cons_of_length_eq_add_one hlen
    have hlen' : ys.length = ops.length := Nat.succ.inj hlen
    rw [List.zip_cons_cons, List.foldl_cons, List.foldl_cons]
    cases op with
    | insert key value => exact ih ys hlen' (h.step (h.priorityFits hnew.1)) hnew.2
    | remove key => exact ih ys hlen' (h.step trivial) hnew

/-- The tree is a map, and its user sees nothing of the priorities. -/
theorem tree_ok (ops : List (Op κ ν)) (ys : List ℕ) (hlen : ys.length = ops.length)
    (hnew : InsertsAbsent SortedMap.empty ops) : TreeOk (build (ops.zip ys)) (mapOf ops) :=
  (refines_foldl ops ys hlen refines_null hnew).treeOk

/-- A root that is split off, and a root that is removed. -/
theorem tree_ok_removed : TreeOk (build (([.insert 3 30, .insert 1 10, .insert 2 20, .remove 2,
      .insert 2 21] : List (Op ℕ ℕ)).zip [5, 2, 9, 0, 1]))
      (mapOf [.insert 3 30, .insert 1 10, .insert 2 20, .remove 2, .insert 2 21]) :=
  tree_ok _ _ rfl ⟨rfl, rfl, rfl, rfl, trivial⟩

/-! ### Keys that are there -/

/-- Every step of the run finds no node with its key below its priority. -/
def StepsFit (tree : DecTree κ ν) : List (Op κ ν × ℕ) → Prop
  | [] => True
  | e :: events => PriorityFits tree e ∧ StepsFit (tree.step e) events

/-- What `insert` of a key is to leave of a set. -/
structure SetOk (tree : DecTree κ ν) (key : κ) (value : ν) (y : ℕ) : Prop where
  nodup : ((tree.insert key value y).nodes.map Prod.fst).Nodup
  size_eq : tree.exists' key = true → (tree.insert key value y).size = tree.size
  removed : ((tree.insert key value y).remove key).exists' key = false

theorem Refines.nodup (h : Refines tree m) : (tree.nodes.map Prod.fst).Nodup :=
  List.pairwise_map.mpr (h.search.imp fun hlt => ne_of_lt hlt)

theorem exists_refines (events : List (Op κ ν × ℕ)) (h : Refines tree m)
    (hfits : StepsFit tree events) : ∃ m', Refines (events.foldl step tree) m' := by
  induction events generalizing tree m with
  | nil => exact ⟨m, h⟩
  | cons e events ih => exact ih (h.step hfits.1) hfits.2

theorem Refines.setOk (h : Refines tree m) (hfits : PriorityFits tree (.insert key value, y)) :
    SetOk tree key value y := by
  have hins : Refines (tree.insert key value y) (mapStep m (.insert key value)) := h.step hfits
  refine ⟨hins.nodup, fun hkey => ?_, ?_⟩
  · have hold : ¬m.find key = none := by
      rw [exists', ← get, h.get_eq] at hkey
      exact Option.isSome_iff_ne_none.mp hkey
    rw [hins.size_eq, h.size_eq, mapStep, if_neg hold]
  · have hnone : ((mapStep m (.insert key value)).erase key).find key = none := by
      rw [SortedMap.find_eq_none_iff]
      exact fun value' hmem => (SortedMap.mem_erase.mp hmem).2 rfl
    rw [exists', ← get, (hins.remove key).get_eq, hnone]
    rfl

theorem SetOk.priorityFits (h : Refines tree m) (hok : SetOk tree key value y) :
    PriorityFits tree (.insert key value, y) := by
  intro n hn hkey
  by_contra hy
  have hlen := length_insertNode_of_gt h.search hn hkey (Nat.lt_of_not_le hy) value
  have hget : getNode tree key = some n.2.1 :=
    (getNode_eq_some_iff h.search).mpr ⟨n.2.2, hkey ▸ hn⟩
  have hsize := hok.size_eq (congrArg Option.isSome hget)
  rw [insert, (sizesOk_insertNode h.sizes).size_eq, h.sizes.size_eq, hlen] at hsize
  omega

/-- In a run without a priority above that of a node with the key, no two nodes have one key, and the
next `insert` keeps it so exactly if it is of that kind too. -/
theorem set_ok_iff (events : List (Op κ ν × ℕ)) (hfits : StepsFit null events) :
    ((build events).nodes.map Prod.fst).Nodup ∧ ∀ key value y,
      SetOk (build events) key value y ↔ PriorityFits (build events) (.insert key value, y) := by
  obtain ⟨m, h⟩ := exists_refines events refines_null hfits
  exact ⟨h.nodup, fun key value y => ⟨fun hok => hok.priorityFits h, fun hfits => h.setOk hfits⟩⟩

/-- The key 3 is inserted again with its own priority. -/
theorem set_ok_iff_again :
    ((build [(.insert 3 30, 5), (.insert 1 10, 2), (.insert 3 31, 5)] : DecTree ℕ ℕ).nodes.map
        Prod.fst).Nodup ∧ ∀ key value y,
      SetOk (build [(.insert 3 30, 5), (.insert 1 10, 2), (.insert 3 31, 5)]) key value y ↔
        PriorityFits (build [(.insert 3 30, 5), (.insert 1 10, 2), (.insert 3 31, 5)])
          (.insert key value, y) := by
  have hnodes : (build [(.insert 3 30, 5), (.insert 1 10, 2)] : DecTree ℕ ℕ).nodes =
      [(1, 10, 2), (3, 30, 5)] := by decide +kernel
  refine set_ok_iff _ ⟨fun n hn => absurd hn List.not_mem_nil, ?_, ?_, trivial⟩
  · rintro n hn hkey
    obtain rfl := List.mem_singleton.mp hn
    cases hkey
  · intro n hn hkey
    have hmem : n ∈ [(1, 10, 2), (3, 30, 5)] := hnodes ▸ hn
    simp only [List.mem_cons, List.not_mem_nil, or_false] at hmem
    rcases hmem with rfl | rfl
    · cases hkey
    · exact Nat.le_refl 5

/-- A second `insert` of a key with a higher priority. -/
theorem set_twice : ¬∀ (events : List (Op ℕ Unit × ℕ)) (key : ℕ) (value : Unit) (y : ℕ),
    SetOk (build events) key value y := by
  intro hall
  have hsize := (hall [(.insert 0 (), 1)] 0 () 2).size_eq (by decide)
  exact absurd hsize (by decide)

end TdUtils.DecTree
