import Mathlib.Data.List.Basic
import Mathlib.Order.Basic
import TdUtils.DecTree.DecTree

/-!
# DecTree.Treap — the nodes of a tree from left to right

`nodes` is all that can be observed of a tree; `insertNode` puts one node between two parts of it,
`removeNode` filters it, and `mergeNode` and `splitNode` only put parts together or take them apart.
-/

namespace TdUtils.DecTree

variable {κ ν : Type} {tree left right : DecTree κ ν} {key : κ} {value : ν} {y : ℕ}

/-- The nodes from left to right: key, value and priority. -/
def nodes : DecTree κ ν → List (κ × ν × ℕ)
  | null => []
  | node left right _ key value y => nodes left ++ (key, value, y) :: nodes right

/-- Every field `size_` is the number of nodes below. -/
def SizesOk : DecTree κ ν → Prop
  | null => True
  | node left right size _ _ _ =>
    size = left.nodes.length + right.nodes.length + 1 ∧ SizesOk left ∧ SizesOk right

/-- No node has a higher priority than its parent. -/
def HeapOk : DecTree κ ν → Prop
  | null => True
  | node left right _ _ _ y =>
    (∀ n ∈ left.nodes ++ right.nodes, n.2.2 ≤ y) ∧ HeapOk left ∧ HeapOk right

/-- The keys increase from left to right. -/
def SearchOk [LT κ] (tree : DecTree κ ν) : Prop := tree.nodes.Pairwise fun m n => m.1 < n.1

theorem nodes_node (left right : DecTree κ ν) (size : ℕ) (key : κ) (value : ν) (y : ℕ) :
    (node left right size key value y).nodes = left.nodes ++ (key, value, y) :: right.nodes := rfl

@[simp] theorem nodes_relax (tree : DecTree κ ν) : (relax tree).nodes = tree.nodes := by
  cases tree <;> rfl

theorem SizesOk.size_eq (h : SizesOk tree) : tree.size = tree.nodes.length := by
  cases tree with
  | null => rfl
  | node left right size key value y =>
    show size = _
    rw [h.1, nodes_node, List.length_append, List.length_cons, Nat.add_assoc]

/-- `relax` repairs the field of the root. -/
theorem sizesOk_relax (size : ℕ) (hl : SizesOk left) (hr : SizesOk right) :
    SizesOk (relax (node left right size key value y)) := by
  refine ⟨?_, hl, hr⟩
  rw [hl.size_eq, hr.size_eq]
  omega

theorem SizesOk.relax (h : SizesOk tree) : SizesOk (relax tree) := by
  cases tree with
  | null => trivial
  | node left right size key value y => exact sizesOk_relax size h.2.1 h.2.2

theorem heapOk_relax (size : ℕ) (hle : ∀ n ∈ left.nodes ++ right.nodes, n.2.2 ≤ y)
    (hl : HeapOk left) (hr : HeapOk right) : HeapOk (relax (node left right size key value y)) :=
  ⟨hle, hl, hr⟩

theorem HeapOk.relax (h : HeapOk tree) : HeapOk (relax tree) := by
  cases tree with
  | null => trivial
  | node left right size key value y => exact h

/-- The root has the highest priority. -/
theorem HeapOk.le_root {size : ℕ} (h : HeapOk (node left right size key value y)) :
    ∀ n ∈ (node left right size key value y).nodes, n.2.2 ≤ y := by
  intro n hn
  rw [nodes_node] at hn
  rcases List.mem_append.mp hn with hn | hn
  · exact h.1 n (List.mem_append_left _ hn)
  · rcases List.mem_cons.mp hn with rfl | hn
    · exact Nat.le_refl _
    · exact h.1 n (List.mem_append_right _ hn)

/-! ### `mergeNode` -/

/-- The cases of `mergeNode` with its result. -/
theorem mergeNode_induction {motive : DecTree κ ν → DecTree κ ν → DecTree κ ν → Prop}
    (null_left : ∀ right, motive null right right) (null_right : ∀ left, motive left null left)
    (lt : ∀ left₁ right₁ size₁ key₁ value₁ y₁ left₂ right₂ size₂ key₂ value₂ y₂, y₁ < y₂ →
      motive (node left₁ right₁ size₁ key₁ value₁ y₁) left₂ (mergeNode (node left₁ right₁ size₁ key₁ value₁ y₁) left₂) →
      motive (node left₁ right₁ size₁ key₁ value₁ y₁) (node left₂ right₂ size₂ key₂ value₂ y₂)
        (relax (node (mergeNode (node left₁ right₁ size₁ key₁ value₁ y₁) left₂) right₂ size₂ key₂ value₂ y₂)))
    (not_lt : ∀ left₁ right₁ size₁ key₁ value₁ y₁ left₂ right₂ size₂ key₂ value₂ y₂, ¬ y₁ < y₂ →
      motive right₁ (node left₂ right₂ size₂ key₂ value₂ y₂) (mergeNode right₁ (node left₂ right₂ size₂ key₂ value₂ y₂)) →
      motive (node left₁ right₁ size₁ key₁ value₁ y₁) (node left₂ right₂ size₂ key₂ value₂ y₂)
        (relax (node left₁ (mergeNode right₁ (node left₂ right₂ size₂ key₂ value₂ y₂)) size₁ key₁ value₁ y₁)))
    (left right : DecTree κ ν) : motive left right (mergeNode left right) := by
  induction left, right using mergeNode.induct with
  | case1 right =>
    rw [mergeNode]
    exact null_left right
  | case2 left hne =>
    cases left with
    | null => exact absurd rfl hne
    | node left right size key value y =>
      rw [mergeNode]
      · exact null_right _
      · exact hne
  | case3 left₁ right₁ size₁ key₁ value₁ y₁ left₂ right₂ size₂ key₂ value₂ y₂ hlt ih =>
    rw [mergeNode, if_pos hlt]
    exact lt _ _ _ _ _ _ _ _ _ _ _ _ hlt ih
  | case4 left₁ right₁ size₁ key₁ value₁ y₁ left₂ right₂ size₂ key₂ value₂ y₂ hlt ih =>
    rw [mergeNode, if_neg hlt]
    exact not_lt _ _ _ _ _ _ _ _ _ _ _ _ hlt ih

theorem nodes_mergeNode (left right : DecTree κ ν) :
    (mergeNode left right).nodes = left.nodes ++ right.nodes := by
  induction left, right using mergeNode_induction with
  | null_left right => rfl
  | null_right left => exact (List.append_nil _).symm
  | lt left₁ right₁ size₁ key₁ value₁ y₁ left₂ right₂ size₂ key₂ value₂ y₂ hlt ih =>
    rw [nodes_relax, nodes_node, ih, List.append_assoc]
    rfl
  | not_lt left₁ right₁ size₁ key₁ value₁ y₁ left₂ right₂ size₂ key₂ value₂ y₂ hlt ih =>
    rw [nodes_relax, nodes_node, ih, ← List.cons_append, ← List.append_assoc]
    rfl

theorem sizesOk_mergeNode (hl : SizesOk left) (hr : SizesOk right) :
    SizesOk (mergeNode left right) := by
  induction left, right using mergeNode_induction with
  | null_left right => exact hr
  | null_right left => exact hl
  | lt left₁ right₁ size₁ key₁ value₁ y₁ left₂ right₂ size₂ key₂ value₂ y₂ hlt ih =>
    exact sizesOk_relax size₂ (ih hl hr.2.1) hr.2.2
  | not_lt left₁ right₁ size₁ key₁ value₁ y₁ left₂ right₂ size₂ key₂ value₂ y₂ hlt ih =>
    exact sizesOk_relax size₁ hl.2.1 (ih hl.2.2 hr)

theorem heapOk_mergeNode (hl : HeapOk left) (hr : HeapOk right) : HeapOk (mergeNode left right) := by
  induction left, right using mergeNode_induction with
  | null_left right => exact hr
  | null_right left => exact hl
  | lt left₁ right₁ size₁ key₁ value₁ y₁ left₂ right₂ size₂ key₂ value₂ y₂ hlt ih =>
    refine heapOk_relax size₂ (fun n hn => ?_) (ih hl hr.2.1) hr.2.2
    rw [nodes_mergeNode, List.append_assoc] at hn
    rcases List.mem_append.mp hn with hn | hn
    · exact Nat.le_trans (hl.le_root n hn) (Nat.le_of_lt hlt)
    · exact hr.1 n hn
  | not_lt left₁ right₁ size₁ key₁ value₁ y₁ left₂ right₂ size₂ key₂ value₂ y₂ hlt ih =>
    refine heapOk_relax size₁ (fun n hn => ?_) hl.2.1 (ih hl.2.2 hr)
    rw [nodes_mergeNode, ← List.append_assoc] at hn
    rcases List.mem_append.mp hn with hn | hn
    · exact hl.1 n hn
    · exact Nat.le_trans (hr.le_root n hn) (Nat.le_of_not_lt hlt)

variable [LinearOrder κ]

/-! ### `splitNode` -/

theorem splitNode_node (left right : DecTree κ ν) (size : ℕ) (treeKey : κ) (treeValue : ν) (treeY : ℕ) (key : κ) :
    splitNode (node left right size treeKey treeValue treeY) key =
      if key < treeKey then
        ((splitNode left key).1, relax (node (splitNode left key).2 right size treeKey treeValue treeY))
      else (relax (node left (splitNode right key).1 size treeKey treeValue treeY), (splitNode right key).2) := rfl

theorem nodes_splitNode (tree : DecTree κ ν) (key : κ) :
    (splitNode tree key).1.nodes ++ (splitNode tree key).2.nodes = tree.nodes := by
  induction tree with
  | null => rfl
  | node left right size treeKey treeValue treeY ihl ihr =>
    rw [splitNode_node]
    split_ifs with h
    · simp only [nodes_relax, nodes_node, ← List.append_assoc, ihl]
    · simp only [nodes_relax, nodes_node, List.append_assoc, List.cons_append, ihr]

theorem sizesOk_splitNode (h : SizesOk tree) (key : κ) :
    SizesOk (splitNode tree key).1 ∧ SizesOk (splitNode tree key).2 := by
  induction tree with
  | null => exact ⟨trivial, trivial⟩
  | node left right size treeKey treeValue treeY ihl ihr =>
    obtain ⟨-, hl, hr⟩ := h
    rw [splitNode_node]
    split_ifs
    · exact ⟨(ihl hl).1, sizesOk_relax size (ihl hl).2 hr⟩
    · exact ⟨sizesOk_relax size hl (ihr hr).1, (ihr hr).2⟩

theorem heapOk_splitNode (h : HeapOk tree) (key : κ) :
    HeapOk (splitNode tree key).1 ∧ HeapOk (splitNode tree key).2 := by
  induction tree with
  | null => exact ⟨trivial, trivial⟩
  | node left right size treeKey treeValue treeY ihl ihr =>
    obtain ⟨hle, hl, hr⟩ := h
    rw [splitNode_node]
    split_ifs
    · refine ⟨(ihl hl).1, heapOk_relax size (fun n hn => hle n ?_) (ihl hl).2 hr⟩
      rw [← nodes_splitNode left key, List.append_assoc]
      exact List.mem_append_right _ hn
    · refine ⟨heapOk_relax size (fun n hn => hle n ?_) hl (ihr hr).1, (ihr hr).2⟩
      rw [← nodes_splitNode right key, ← List.append_assoc]
      exact List.mem_append_left _ hn

theorem SearchOk.node_iff {size treeY : ℕ} {treeKey : κ} {treeValue : ν} :
    SearchOk (node left right size treeKey treeValue treeY) ↔
      (SearchOk left ∧ ∀ n ∈ left.nodes, n.1 < treeKey) ∧
        SearchOk right ∧ (∀ n ∈ right.nodes, treeKey < n.1) := by
  unfold SearchOk
  rw [nodes_node, List.pairwise_append, List.pairwise_cons]
  constructor
  · rintro ⟨hl, ⟨hright, hr⟩, hcross⟩
    exact ⟨⟨hl, fun n hn => hcross n hn _ List.mem_cons_self⟩, hr, hright⟩
  · rintro ⟨⟨hl, hleft⟩, hr, hright⟩
    refine ⟨hl, ⟨hright, hr⟩, fun m hm n hn => ?_⟩
    rcases List.mem_cons.mp hn with rfl | hn
    · exact hleft m hm
    · exact (hleft m hm).trans (hright n hn)

theorem splitNode_le (h : SearchOk tree) (key : κ) :
    ∀ n ∈ (splitNode tree key).1.nodes, n.1 ≤ key := by
  induction tree with
  | null => exact fun n hn => absurd hn List.not_mem_nil
  | node left right size treeKey treeValue treeY ihl ihr =>
    obtain ⟨⟨hl, hleft⟩, hr, -⟩ := SearchOk.node_iff.mp h
    rw [splitNode_node]
    split_ifs with hlt
    · exact ihl hl
    · intro n hn
      rw [nodes_relax, nodes_node] at hn
      rcases List.mem_append.mp hn with hn | hn
      · exact (hleft n hn).le.trans (not_lt.mp hlt)
      · rcases List.mem_cons.mp hn with rfl | hn
        · exact not_lt.mp hlt
        · exact ihr hr n hn

theorem lt_splitNode (h : SearchOk tree) (key : κ) :
    ∀ n ∈ (splitNode tree key).2.nodes, key < n.1 := by
  induction tree with
  | null => exact fun n hn => absurd hn List.not_mem_nil
  | node left right size treeKey treeValue treeY ihl ihr =>
    obtain ⟨⟨hl, -⟩, hr, hright⟩ := SearchOk.node_iff.mp h
    rw [splitNode_node]
    split_ifs with hlt
    · intro n hn
      rw [nodes_relax, nodes_node] at hn
      rcases List.mem_append.mp hn with hn | hn
      · exact ihl hl n hn
      · rcases List.mem_cons.mp hn with rfl | hn
        · exact hlt
        · exact hlt.trans (hright n hn)
    · exact ihr hr

/-! ### `insertNode` -/

theorem insertNode_node (left right : DecTree κ ν) (size : ℕ) (treeKey : κ) (treeValue : ν) (treeY : ℕ) (key : κ)
    (value : ν) (y : ℕ) :
    insertNode (node left right size treeKey treeValue treeY) key value y =
      if treeY < y then
        relax (node (splitNode (node left right size treeKey treeValue treeY) key).1
          (splitNode (node left right size treeKey treeValue treeY) key).2 1 key value y)
      else if key < treeKey then relax (node (insertNode left key value y) right size treeKey treeValue treeY)
      else if treeKey < key then relax (node left (insertNode right key value y) size treeKey treeValue treeY)
      else relax (node left right size treeKey treeValue treeY) := rfl

/-- A new key goes between the nodes with smaller and those with greater keys. -/
theorem nodes_insertNode (h : SearchOk tree) (hnew : ∀ n ∈ tree.nodes, n.1 ≠ key) (value : ν) (y : ℕ) :
    ∃ below above, tree.nodes = below ++ above ∧ (∀ n ∈ below, n.1 < key) ∧
      (∀ n ∈ above, key < n.1) ∧
      (insertNode tree key value y).nodes = below ++ (key, value, y) :: above := by
  induction tree with
  | null => exact ⟨[], [], rfl, by simp, by simp, rfl⟩
  | node left right size treeKey treeValue treeY ihl ihr =>
    obtain ⟨⟨hl, hleft⟩, hr, hright⟩ := SearchOk.node_iff.mp h
    rw [insertNode_node]
    by_cases hy : treeY < y
    · rw [if_pos hy]
      have hsplit := nodes_splitNode (node left right size treeKey treeValue treeY) key
      refine ⟨_, _, hsplit.symm, fun n hn => ?_, lt_splitNode h key, nodes_relax _⟩
      have hmem : n ∈ (node left right size treeKey treeValue treeY).nodes :=
        hsplit ▸ List.mem_append_left _ hn
      exact lt_of_le_of_ne (splitNode_le h key n hn) (hnew n hmem)
    rw [if_neg hy]
    have hnewl : ∀ n ∈ left.nodes, n.1 ≠ key := fun n hn =>
      hnew n (List.mem_append_left _ hn)
    have hnewr : ∀ n ∈ right.nodes, n.1 ≠ key := fun n hn =>
      hnew n (List.mem_append_right _ (List.mem_cons_of_mem _ hn))
    by_cases hlt : key < treeKey
    · obtain ⟨below, above, heq, hbelow, habove, hins⟩ := ihl hl hnewl
      rw [if_pos hlt]
      refine ⟨below, above ++ (treeKey, treeValue, treeY) :: right.nodes, ?_, hbelow, ?_, ?_⟩
      · rw [nodes_node, heq, List.append_assoc]
      · intro n hn
        rcases List.mem_append.mp hn with hn | hn
        · exact habove n hn
        · rcases List.mem_cons.mp hn with rfl | hn
          · exact hlt
          · exact hlt.trans (hright n hn)
      · rw [nodes_relax, nodes_node, hins, List.append_assoc]
        rfl
    rw [if_neg hlt]
    by_cases hgt : treeKey < key
    · obtain ⟨below, above, heq, hbelow, habove, hins⟩ := ihr hr hnewr
      rw [if_pos hgt]
      refine ⟨left.nodes ++ (treeKey, treeValue, treeY) :: below, above, ?_, ?_, habove, ?_⟩
      · rw [nodes_node, heq, List.append_assoc]
        rfl
      · intro n hn
        rcases List.mem_append.mp hn with hn | hn
        · exact (hleft n hn).trans hgt
        · rcases List.mem_cons.mp hn with rfl | hn
          · exact hgt
          · exact hbelow n hn
      · rw [nodes_relax, nodes_node, hins, List.append_assoc]
        rfl
    · have heq : treeKey = key := le_antisymm (not_lt.mp hlt) (not_lt.mp hgt)
      exact absurd heq (hnew (treeKey, treeValue, treeY) (List.mem_append_right _ List.mem_cons_self))

/-- The node with a key is on the path to the key. -/
theorem mem_left_of_lt {size treeY : ℕ} {treeKey : κ} {treeValue : ν} {n : κ × ν × ℕ}
    (h : SearchOk (node left right size treeKey treeValue treeY))
    (hn : n ∈ (node left right size treeKey treeValue treeY).nodes) :
    (n.1 < treeKey → n ∈ left.nodes) ∧ (treeKey < n.1 → n ∈ right.nodes) ∧
      (n.1 = treeKey → n = (treeKey, treeValue, treeY)) := by
  obtain ⟨⟨-, hleft⟩, -, hright⟩ := SearchOk.node_iff.mp h
  rcases List.mem_append.mp hn with hn | hn
  · have hlt := hleft n hn
    exact ⟨fun _ => hn, fun hgt => absurd hgt hlt.not_gt, fun heq => absurd heq hlt.ne⟩
  · rcases List.mem_cons.mp hn with rfl | hn
    · exact ⟨fun hlt => absurd hlt (lt_irrefl _), fun hlt => absurd hlt (lt_irrefl _), fun _ => rfl⟩
    · have hgt := hright n hn
      exact ⟨fun hlt => absurd hgt hlt.not_gt, fun _ => hn, fun heq => absurd heq hgt.ne'⟩

/-- A key that is there stays as it is if the walk meets its node before a lower priority. -/
theorem nodes_insertNode_of_le (h : SearchOk tree) (hheap : HeapOk tree) {n : κ × ν × ℕ}
    (hn : n ∈ tree.nodes) (hkey : n.1 = key) (hy : y ≤ n.2.2) (value : ν) :
    (insertNode tree key value y).nodes = tree.nodes := by
  induction tree with
  | null => cases hn
  | node left right size treeKey treeValue treeY ihl ihr =>
    obtain ⟨⟨hl, -⟩, hr, -⟩ := SearchOk.node_iff.mp h
    obtain ⟨hmeml, hmemr, -⟩ := mem_left_of_lt h hn
    have hroot := hheap.le_root n hn
    rw [insertNode_node, if_neg (by omega)]
    split_ifs with hlt hgt
    · rw [nodes_relax, nodes_node, ihl hl hheap.2.1 (hmeml (hkey ▸ hlt)), nodes_node]
    · rw [nodes_relax, nodes_node, ihr hr hheap.2.2 (hmemr (hkey ▸ hgt)), nodes_node]
    · exact nodes_relax _

/-- A key that is there gets a second node if the drawn priority is above that of its node. -/
theorem length_insertNode_of_gt (h : SearchOk tree) {n : κ × ν × ℕ} (hn : n ∈ tree.nodes)
    (hkey : n.1 = key) (hy : n.2.2 < y) (value : ν) :
    (insertNode tree key value y).nodes.length = tree.nodes.length + 1 := by
  induction tree with
  | null => cases hn
  | node left right size treeKey treeValue treeY ihl ihr =>
    obtain ⟨⟨hl, -⟩, hr, -⟩ := SearchOk.node_iff.mp h
    obtain ⟨hmeml, hmemr, hmem⟩ := mem_left_of_lt h hn
    rw [insertNode_node]
    split_ifs with htree hlt hgt
    · have hsplit := congrArg List.length
        (nodes_splitNode (node left right size treeKey treeValue treeY) key)
      rw [List.length_append] at hsplit
      rw [nodes_relax, nodes_node, List.length_append, List.length_cons]
      omega
    · have hlen := ihl hl (hmeml (hkey ▸ hlt))
      rw [nodes_relax, nodes_node, nodes_node, List.length_append, List.length_append, hlen]
      omega
    · have hlen := ihr hr (hmemr (hkey ▸ hgt))
      rw [nodes_relax, nodes_node, nodes_node, List.length_append, List.length_append, List.length_cons,
        List.length_cons, hlen]
      omega
    · have heq : n.1 = treeKey := hkey.trans (le_antisymm (not_lt.mp hgt) (not_lt.mp hlt))
      rw [hmem heq] at hy
      exact absurd hy htree

/-- No node of the new tree is new but the one that is inserted. -/
theorem mem_insertNode {n : κ × ν × ℕ} (hn : n ∈ (insertNode tree key value y).nodes) :
    n ∈ tree.nodes ∨ n = (key, value, y) := by
  induction tree with
  | null => exact Or.inr (List.mem_singleton.mp hn)
  | node left right size treeKey treeValue treeY ihl ihr =>
    rw [insertNode_node] at hn
    split_ifs at hn with htree hlt hgt
    · rw [nodes_relax, nodes_node] at hn
      have hsplit := nodes_splitNode (node left right size treeKey treeValue treeY) key
      rcases List.mem_append.mp hn with hn | hn
      · exact Or.inl (hsplit ▸ List.mem_append_left _ hn)
      · rcases List.mem_cons.mp hn with rfl | hn
        · exact Or.inr rfl
        · exact Or.inl (hsplit ▸ List.mem_append_right _ hn)
    · rw [nodes_relax, nodes_node] at hn
      rcases List.mem_append.mp hn with hn | hn
      · exact (ihl hn).imp_left (List.mem_append_left _)
      · exact Or.inl (List.mem_append_right _ hn)
    · rw [nodes_relax, nodes_node] at hn
      rcases List.mem_append.mp hn with hn | hn
      · exact Or.inl (List.mem_append_left _ hn)
      · rcases List.mem_cons.mp hn with rfl | hn
        · exact Or.inl (List.mem_append_right _ List.mem_cons_self)
        · exact (ihr hn).imp_left fun h => List.mem_append_right _ (List.mem_cons_of_mem _ h)
    · exact Or.inl (nodes_relax _ ▸ hn)

theorem sizesOk_insertNode (h : SizesOk tree) : SizesOk (insertNode tree key value y) := by
  induction tree with
  | null => exact ⟨rfl, trivial, trivial⟩
  | node left right size treeKey treeValue treeY ihl ihr =>
    rw [insertNode_node]
    split_ifs
    · exact sizesOk_relax 1 (sizesOk_splitNode h key).1 (sizesOk_splitNode h key).2
    · exact sizesOk_relax size (ihl h.2.1) h.2.2
    · exact sizesOk_relax size h.2.1 (ihr h.2.2)
    · exact h.relax

theorem heapOk_insertNode (h : HeapOk tree) : HeapOk (insertNode tree key value y) := by
  induction tree with
  | null => exact ⟨fun n hn => absurd hn List.not_mem_nil, trivial, trivial⟩
  | node left right size treeKey treeValue treeY ihl ihr =>
    rw [insertNode_node]
    split_ifs with htree
    · obtain ⟨hl, hr⟩ := heapOk_splitNode h key
      refine heapOk_relax 1 (fun n hn => ?_) hl hr
      rw [nodes_splitNode] at hn
      exact Nat.le_trans (h.le_root n hn) (Nat.le_of_lt htree)
    · refine heapOk_relax size (fun n hn => ?_) (ihl h.2.1) h.2.2
      rcases List.mem_append.mp hn with hn | hn
      · rcases mem_insertNode hn with hn | rfl
        · exact h.1 n (List.mem_append_left _ hn)
        · exact Nat.le_of_not_lt htree
      · exact h.1 n (List.mem_append_right _ hn)
    · refine heapOk_relax size (fun n hn => ?_) h.2.1 (ihr h.2.2)
      rcases List.mem_append.mp hn with hn | hn
      · exact h.1 n (List.mem_append_left _ hn)
      · rcases mem_insertNode hn with hn | rfl
        · exact h.1 n (List.mem_append_right _ hn)
        · exact Nat.le_of_not_lt htree
    · exact h.relax

/-! ### `removeNode` -/

theorem removeNode_node (left right : DecTree κ ν) (size : ℕ) (treeKey : κ) (treeValue : ν) (treeY : ℕ) (key : κ) :
    removeNode (node left right size treeKey treeValue treeY) key =
      if key < treeKey then relax (node (removeNode left key) right size treeKey treeValue treeY)
      else if treeKey < key then relax (node left (removeNode right key) size treeKey treeValue treeY)
      else relax (mergeNode left right) := rfl

theorem nodes_removeNode (h : SearchOk tree) (key : κ) :
    (removeNode tree key).nodes = tree.nodes.filter fun n => n.1 ≠ key := by
  induction tree with
  | null => rfl
  | node left right size treeKey treeValue treeY ihl ihr =>
    obtain ⟨⟨hl, hleft⟩, hr, hright⟩ := SearchOk.node_iff.mp h
    have hkeepl : treeKey ≤ key → left.nodes.filter (fun n => n.1 ≠ key) = left.nodes := by
      intro hle
      rw [List.filter_eq_self]
      exact fun n hn => decide_eq_true (ne_of_lt ((hleft n hn).trans_le hle))
    have hkeepr : key ≤ treeKey → right.nodes.filter (fun n => n.1 ≠ key) = right.nodes := by
      intro hle
      rw [List.filter_eq_self]
      exact fun n hn => decide_eq_true (ne_of_gt (hle.trans_lt (hright n hn)))
    have hkeep : treeKey ≠ key → ((treeKey, treeValue, treeY) :: right.nodes).filter
        (fun n => n.1 ≠ key) = (treeKey, treeValue, treeY) :: right.nodes.filter fun n => n.1 ≠ key :=
      fun hne => List.filter_cons_of_pos (decide_eq_true hne)
    have hdrop : treeKey = key → ((treeKey, treeValue, treeY) :: right.nodes).filter
        (fun n => n.1 ≠ key) = right.nodes.filter fun n => n.1 ≠ key :=
      fun heq => List.filter_cons_of_neg (by simpa using heq)
    rw [removeNode_node, nodes_node, List.filter_append]
    split_ifs with hlt hgt
    · rw [nodes_relax, nodes_node, ihl hl, hkeep hlt.ne', hkeepr hlt.le]
    · rw [nodes_relax, nodes_node, ihr hr, hkeep hgt.ne, hkeepl hgt.le]
    · have heq : treeKey = key := le_antisymm (not_lt.mp hlt) (not_lt.mp hgt)
      rw [nodes_relax, nodes_mergeNode, hdrop heq, hkeepl heq.le, hkeepr heq.ge]

theorem sizesOk_removeNode (h : SizesOk tree) : SizesOk (removeNode tree key) := by
  induction tree with
  | null => trivial
  | node left right size treeKey treeValue treeY ihl ihr =>
    rw [removeNode_node]
    split_ifs
    · exact sizesOk_relax size (ihl h.2.1) h.2.2
    · exact sizesOk_relax size h.2.1 (ihr h.2.2)
    · exact (sizesOk_mergeNode h.2.1 h.2.2).relax

theorem heapOk_removeNode (h : HeapOk tree) (hs : SearchOk tree) : HeapOk (removeNode tree key) := by
  induction tree with
  | null => trivial
  | node left right size treeKey treeValue treeY ihl ihr =>
    obtain ⟨⟨hl, -⟩, hr, -⟩ := SearchOk.node_iff.mp hs
    rw [removeNode_node]
    split_ifs
    · refine heapOk_relax size (fun n hn => h.1 n ?_) (ihl h.2.1 hl) h.2.2
      rw [nodes_removeNode hl] at hn
      exact List.mem_append.mpr ((List.mem_append.mp hn).imp_left List.mem_of_mem_filter)
    · refine heapOk_relax size (fun n hn => h.1 n ?_) h.2.1 (ihr h.2.2 hr)
      rw [nodes_removeNode hr] at hn
      exact List.mem_append.mpr ((List.mem_append.mp hn).imp_right List.mem_of_mem_filter)
    · exact (heapOk_mergeNode h.2.1 h.2.2).relax

/-! ### Look-ups -/

theorem getNode_eq_some_iff (h : SearchOk tree) :
    getNode tree key = some value ↔ ∃ y, (key, value, y) ∈ tree.nodes := by
  induction tree with
  | null => simp [getNode, nodes]
  | node left right size treeKey treeValue treeY ihl ihr =>
    obtain ⟨⟨hl, hleft⟩, hr, hright⟩ := SearchOk.node_iff.mp h
    rw [getNode]
    split_ifs with hlt hgt
    · rw [ihl hl]
      refine exists_congr fun y => ⟨List.mem_append_left _, fun hn => ?_⟩
      exact (mem_left_of_lt h hn).1 hlt
    · rw [ihr hr]
      refine exists_congr fun y => ⟨fun hn => ?_, fun hn => (mem_left_of_lt h hn).2.1 hgt⟩
      exact List.mem_append_right _ (List.mem_cons_of_mem _ hn)
    · have heq : treeKey = key := le_antisymm (not_lt.mp hlt) (not_lt.mp hgt)
      subst heq
      constructor
      · intro hv
        obtain rfl := Option.some.inj hv
        exact ⟨treeY, List.mem_append_right _ List.mem_cons_self⟩
      · rintro ⟨y, hn⟩
        have hroot := (mem_left_of_lt h hn).2.2 rfl
        rw [(Prod.mk.inj (Prod.mk.inj hroot).2).1]

omit [LinearOrder κ] in
theorem getNodeByIdx_eq (h : SizesOk tree) (idx : ℕ) :
    getNodeByIdx tree idx = tree.nodes[idx]?.map fun n => n.2.1 := by
  induction tree generalizing idx with
  | null => rfl
  | node left right size treeKey treeValue treeY ihl ihr =>
    have hsize := h.2.1.size_eq
    rw [getNodeByIdx, nodes_node]
    by_cases hlt : idx < left.size
    · rw [if_pos hlt, ihl h.2.1, List.getElem?_append_left (hsize ▸ hlt)]
    rw [if_neg hlt, List.getElem?_append_right (by omega)]
    by_cases heq : idx = left.size
    · rw [if_pos heq, heq, hsize, Nat.sub_self]
      rfl
    · obtain ⟨i, hi⟩ : ∃ i, idx - left.nodes.length = i + 1 := ⟨idx - left.nodes.length - 1, by omega⟩
      rw [if_neg heq, ihr h.2.2, hi, List.getElem?_cons_succ, hsize]
      congr 2
      omega

end TdUtils.DecTree
