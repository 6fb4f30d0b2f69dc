import Mathlib.Data.Multiset.AddSub
import TdUtils.Heap.Sift

/-!
# Heap.Operations — what the operations do to the items

`Ok` is the invariant of the heap; each operation keeps it and changes the multiset of keys with their
nodes as its name says.  The arithmetic of `fix_down` is in `int`, so `K` times the size must fit in it where
`fix_down` runs.
-/

namespace TdUtils.KHeap

open Lib KAryHeap

universe u

variable {α N : Type u} [LinearOrder α] [DecidableEq N] {K : ℕ} {h : KHeap α N} {pos : ℕ}
  {item : Item α N}

/-- The invariant of the heap. -/
structure Ok (K : ℕ) (h : KHeap α N) : Prop where
  linked : Linked h
  heaped : Heaped K (keys h.array)

def entry (item : Item α N) : α × N := (item.key, item.node)

/-- The keys with their nodes. -/
def items (h : KHeap α N) : Multiset (α × N) := h.array.map entry

section Items

omit [LinearOrder α] [DecidableEq N]

/-- A node in the heap is at its back pointer. -/
theorem Linked.of_ne (hl : Linked h) {node : N} (hnode : h.pos node ≠ -1) :
    ∃ (i : ℕ) (key : α), h.array[i]? = some ⟨key, node⟩ ∧ h.pos node = i := by
  by_cases hmem : node ∈ h.array.map Item.node
  · obtain ⟨item, hitem, rfl⟩ := List.mem_map.mp hmem
    obtain ⟨i, hi⟩ := List.mem_iff_getElem?.mp hitem
    exact ⟨i, item.key, hi, hl.pos_eq i item hi⟩
  · exact absurd (hl.outside node hmem) hnode

theorem Linked.not_mem (hl : Linked h) {node : N} (hnode : h.pos node = -1) :
    node ∉ h.array.map Item.node := by
  intro hmem
  obtain ⟨item, hitem, rfl⟩ := List.mem_map.mp hmem
  obtain ⟨i, hi⟩ := List.mem_iff_getElem?.mp hitem
  have hpos := hl.pos_eq i item hi
  omega

theorem keys_set_ne {array : List (Item α N)} {i : ℕ} (hi : i ≠ pos) :
    keys (array.set pos item) i = keys array i := by
  unfold keys
  rw [List.getElem?_set_ne (Ne.symm hi)]

end Items

omit [DecidableEq N] in
theorem Ok.root_le (hok : Ok K h) {top a : Item α N} (htop : h.array[0]? = some top)
    (ha : a ∈ h.array) : top.key ≤ a.key := by
  obtain ⟨i, hi⟩ := List.mem_iff_getElem?.mp ha
  obtain ⟨hlt, -⟩ := List.getElem?_eq_some_iff.mp hi
  have hdown : ∀ i j, i ≤ j → (∃ b, keys h.array j = some b) → ∃ a, keys h.array i = some a := by
    intro i j hij hj
    rw [keys_defined] at hj ⊢
    omega
  exact le_keys.mp (hok.heaped.root_le hdown i (keys_defined.mpr hlt)) top a htop hi

/-! ### `insert` -/

theorem Ok.insert (hok : Ok K h) (key : α) {node : N} (hnode : h.pos node = -1)
    (hint : h.array.length + 1 ≤ intMax) :
    ∃ h', KHeap.insert K h key node = some h' ∧ Ok K h' ∧ items h' = (key, node) ::ₘ items h := by
  have hnew := hok.linked.not_mem hnode
  let h₁ : KHeap α N := { h with array := h.array ++ [⟨key, node⟩] }
  have hlast : h₁.array[h.array.length]? = some ⟨key, node⟩ := by simp [h₁]
  have hset : h₁.array.set h.array.length ⟨key, node⟩ = h₁.array := by simp [h₁]
  have hold : ∀ i, i ≠ h.array.length → h₁.array[i]? = h.array[i]? := by
    intro i hi
    by_cases hlt : i < h.array.length
    · exact List.getElem?_append_left hlt
    · rw [List.getElem?_eq_none (by simp [h₁]; omega), List.getElem?_eq_none (by omega)]
  have hhole : Hole h₁ h.array.length ⟨key, node⟩ := by
    refine ⟨by simp [h₁], ?_, fun i other hi hother => ?_, fun node' hnode' => ?_⟩
    · rw [hset, List.map_append]
      exact hok.linked.nodup.append (List.nodup_singleton _) (by simpa using hnew)
    · exact hok.linked.pos_eq i other (hold i hi ▸ hother)
    · rw [hset, List.map_append, List.mem_append, not_or] at hnode'
      exact hok.linked.outside node' hnode'.1
  have hkeys : ∀ i, i ≠ h.array.length → keys h₁.array i = keys h.array i := by
    intro i hi
    unfold keys
    rw [hold i hi]
  have hnone : ∀ c, h.array.length < c → keys h₁.array c = none := by
    intro c hc
    have hlen : h₁.array.length ≤ c := by
      rw [List.length_append]
      exact hc
    rw [keys, List.getElem?_eq_none hlen, Option.map_none]
  have haround : Around K (keys h₁.array) h.array.length := by
    refine ⟨fun c hc hcn hpar => (hok.heaped c hc).of_eq (hkeys _ hpar) (hkeys _ hcn), ?_⟩
    intro _ c hc hpar a b _ hb
    have hlt := parent_lt (K := K) hc
    rw [hnone c (by omega)] at hb
    cases hb
  have hbelow : Below K (keys h₁.array) h.array.length := by
    intro c hc hpar a b _ hb
    have hlt := parent_lt (K := K) hc
    rw [hnone c (by omega)] at hb
    cases hb
  obtain ⟨h', hup, hs⟩ := fixUp_spec hhole hlast haround hbelow
  refine ⟨h', ?_, ⟨hs.linked, hs.heaped⟩, ?_⟩
  · have hsize : h₁.intSize = some (h.array.length + 1) := by
      have hlen : h₁.array.length = h.array.length + 1 := by simp [h₁]
      unfold intSize
      rw [hlen]
      exact if_pos hint
    unfold KHeap.insert
    rw [if_pos hnode]
    show h₁.intSize.bind _ = _
    rw [hsize, Option.bind_some]
    exact hup
  · have hperm : h'.array.Perm (⟨key, node⟩ :: h.array) := 
      hs.perm.trans (List.perm_append_singleton _ _)
    exact Multiset.coe_eq_coe.mpr (hperm.map entry)

/-! ### `fix` -/

omit [LinearOrder α] [DecidableEq N] in
/-- The hole of an item that is replaced; the nodes of the others are as they were. -/
theorem hole_of_set (hlt : pos < h.array.length)
    (hnodup : ((h.array.set pos item).map Item.node).Nodup)
    (hpos : ∀ (i : ℕ) other, i ≠ pos → h.array[i]? = some other → h.pos other.node = i)
    (hout : ∀ node, node ∉ (h.array.set pos item).map Item.node → h.pos node = -1) :
    Hole { h with array := h.array.set pos item } pos item := by
  refine ⟨by simpa using hlt, ?_, fun i other hi hother => ?_, ?_⟩
  · rwa [List.set_set]
  · rw [List.getElem?_set_ne (Ne.symm hi)] at hother
    exact hpos i other hi hother
  · rwa [List.set_set]

omit [LinearOrder α] [DecidableEq N] in
theorem map_node_set {old : Item α N} (hitem : h.array[pos]? = some old) (key : α) :
    (h.array.set pos { old with key := key }).map Item.node = h.array.map Item.node := by
  apply List.ext_getElem?
  intro i
  rw [List.getElem?_map, List.getElem?_map]
  by_cases hi : i = pos
  · obtain ⟨hlt, -⟩ := List.getElem?_eq_some_iff.mp hitem
    rw [hi, hitem, List.getElem?_set_self hlt]
    rfl
  · rw [List.getElem?_set_ne (Ne.symm hi)]

omit [LinearOrder α] [DecidableEq N] in
theorem items_set {old : Item α N} (hitem : h.array[pos]? = some old) :
    ∃ rest : Multiset (α × N), items h = entry old ::ₘ rest ∧
      ∀ (h' : KHeap α N) (item : Item α N), h'.array.Perm (h.array.set pos item) →
        items h' = entry item ::ₘ rest := by
  obtain ⟨hlt, rfl⟩ := List.getElem?_eq_some_iff.mp hitem
  refine ⟨((h.array.eraseIdx pos).map entry : List (α × N)), ?_, fun h' item hperm => ?_⟩
  · exact Multiset.coe_eq_coe.mpr ((List.getElem_cons_eraseIdx_perm hlt).symm.map entry)
  · have hcons := hperm.trans (List.set_perm_cons_eraseIdx hlt item)
    exact Multiset.coe_eq_coe.mpr (hcons.map entry)

theorem Ok.fix (hok : Ok K h) (hK : 1 ≤ K) (key : α) {node : N} (hnode : h.pos node ≠ -1)
    (hint : (∃ old ∈ h.keyOf node, key < old) ∨ h.array.length * K + 1 ≤ intMax) :
    ∃ h' old rest, KHeap.fix K h key node = some h' ∧ Ok K h' ∧ items h = (old, node) ::ₘ rest ∧
      items h' = (key, node) ::ₘ rest := by
  obtain ⟨pos, old, hitem, hpos⟩ := hok.linked.of_ne hnode
  obtain ⟨hlt, hget⟩ := List.getElem?_eq_some_iff.mp hitem
  obtain ⟨rest, hrest, hnew⟩ := items_set hitem
  have hnodes := map_node_set hitem key
  let h₁ : KHeap α N := { h with array := h.array.set pos ⟨key, node⟩ }
  have hitem₁ : h₁.array[pos]? = some ⟨key, node⟩ := List.getElem?_set_self hlt
  have hhole : Hole h₁ pos ⟨key, node⟩ := by
    refine hole_of_set hlt (hnodes.symm ▸ hok.linked.nodup) ?_ (hnodes.symm ▸ hok.linked.outside)
    exact fun i other _ => hok.linked.pos_eq i other
  have haround : Around K (keys h₁.array) pos :=
    (hok.heaped.around (keys_defined.mpr hlt)).congr fun i hi => keys_set_ne hi
  have hkey₁ : keys h₁.array pos = some key := by rw [keys, hitem₁, Option.map_some]
  have hold : keys h.array pos = some old := by rw [keys, hitem, Option.map_some]
  have hkeyOf : h.keyOf node = some old := by rw [keyOf, hpos, Int.toNat_natCast, hitem, Option.map_some]
  unfold KHeap.fix
  rw [if_pos hnode]
  dsimp only
  rw [hpos, Int.toNat_natCast, hitem]
  dsimp only
  by_cases hkey : key < old
  · have hbelow : Below K (keys h₁.array) pos := by
      intro c hc hpar a b ha hb
      obtain rfl := Option.some.inj (hkey₁.symm.trans ha)
      have hlt' := parent_lt (K := K) hc
      rw [keys_set_ne (by omega)] at hb
      exact hkey.le.trans (hok.heaped.below c hc hpar old b hold hb)
    obtain ⟨h', hup, hs⟩ := fixUp_spec hhole hitem₁ haround hbelow
    rw [if_pos hkey]
    exact ⟨h', old, rest, hup, ⟨hs.linked, hs.heaped⟩, hrest, hnew h' _ hs.perm⟩
  · have habove : Above K (keys h₁.array) pos := by
      intro hpos a b ha hb
      obtain rfl := Option.some.inj (hkey₁.symm.trans hb)
      have hlt' := parent_lt (K := K) hpos
      rw [keys_set_ne (by omega)] at ha
      exact (hok.heaped.above hpos a old ha hold).trans (not_lt.mp hkey)
    have hint₁ : h₁.array.length * K + 1 ≤ intMax := by
      rw [List.length_set]
      refine hint.resolve_left ?_
      rintro ⟨old', hold', hless⟩
      obtain rfl := Option.some.inj (hkeyOf.symm.trans hold')
      exact hkey hless
    obtain ⟨h', hdown, hlinked, hperm, hheap⟩ := fixDown_spec hK hhole hitem₁ hint₁ haround
    rw [if_neg hkey]
    refine ⟨h', old, rest, hdown, ⟨hlinked, ?_⟩, hrest, hnew h' _ hperm⟩
    rcases hheap with hheap | ⟨hsame, hbelow⟩
    · exact hheap
    · rw [hsame]
      exact haround.heaped hbelow habove

/-! ### `erase` -/

omit [LinearOrder α] in
theorem remove_pos_of_ne {node node' : N} (hne : node' ≠ node) :
    (h.remove node).pos node' = h.pos node' := Function.update_of_ne hne _ _

omit [LinearOrder α] [DecidableEq N] in
/-- The last item takes the place of another one. -/
theorem dropLast_set_perm {init : List (Item α N)} {x : Item α N} (last : Item α N) (hlt : pos < init.length)
    (hx : init[pos]? = some x) : (x :: init.set pos last).Perm (init ++ [last]) := by
  obtain ⟨_, rfl⟩ := List.getElem?_eq_some_iff.mp hx
  calc (init[pos] :: init.set pos last).Perm (init[pos] :: last :: init.eraseIdx pos) :=
        (List.set_perm_cons_eraseIdx hlt last).cons _
    _ |>.Perm (last :: init[pos] :: init.eraseIdx pos) := List.Perm.swap _ _ _
    _ |>.Perm (last :: init) := (List.getElem_cons_eraseIdx_perm hlt).cons _
    _ |>.Perm (init ++ [last]) := (List.perm_append_singleton _ _).symm

omit [LinearOrder α] [DecidableEq N] in
theorem keys_concat (init : List (Item α N)) (last : Item α N) (i : ℕ) :
    keys init i = none ∨ keys init i = keys (init ++ [last]) i := by
  by_cases hi : i < init.length
  · exact Or.inr (by rw [keys, keys, List.getElem?_append_left hi])
  · exact Or.inl (by rw [keys, List.getElem?_eq_none (Nat.le_of_not_lt hi), Option.map_none])

omit [DecidableEq N] in
theorem Ok.init {init : List (Item α N)} {last : Item α N} (hok : Ok K h)
    (harray : h.array = init ++ [last]) : Heaped K (keys init) := by
  refine hok.heaped.sub fun i => ?_
  rw [harray]
  exact keys_concat init last i

/-- The last item is erased. -/
theorem Ok.removeLast {init : List (Item α N)} (hok : Ok K h) (harray : h.array = init ++ [item]) :
    Ok K ⟨init, (h.remove item.node).pos⟩ := by
  have hnodup := hok.linked.nodup
  rw [harray, List.map_append] at hnodup
  have hnot : item.node ∉ init.map Item.node := fun hmem =>
    List.disjoint_of_nodup_append hnodup hmem (List.mem_singleton.mpr rfl)
  refine ⟨⟨(List.nodup_append.mp hnodup).1, fun i other hi => ?_, fun node hnode => ?_⟩,
    hok.init harray⟩
  · have hmem := List.mem_map_of_mem (f := Item.node) (List.mem_of_getElem? hi)
    have hne : other.node ≠ item.node := fun heq => hnot (heq ▸ hmem)
    obtain ⟨hlt, -⟩ := List.getElem?_eq_some_iff.mp hi
    rw [remove_pos_of_ne hne]
    exact hok.linked.pos_eq i other (by rw [harray, List.getElem?_append_left hlt, hi])
  · by_cases heq : node = item.node
    · rw [heq]
      exact Function.update_self _ _ _
    · rw [remove_pos_of_ne heq]
      refine hok.linked.outside node ?_
      rw [harray, List.map_append, List.mem_append, not_or]
      exact ⟨hnode, fun hmem => heq (List.mem_singleton.mp hmem)⟩

/-- The last item has taken the place of the erased one. -/
theorem Ok.hole_last {init : List (Item α N)} {last : Item α N} (hok : Ok K h)
    (harray : h.array = init ++ [last]) (hitem : init[pos]? = some item) :
    Hole ⟨init.set pos last, (h.remove item.node).pos⟩ pos last := by
  obtain ⟨hlt, -⟩ := List.getElem?_eq_some_iff.mp hitem
  have hperm := (dropLast_set_perm last hlt hitem).map Item.node
  have hnodup := hperm.nodup_iff.mpr (by
    rw [← harray]
    exact hok.linked.nodup)
  rw [List.map_cons, List.nodup_cons] at hnodup
  refine hole_of_set (h := ⟨init, (h.remove item.node).pos⟩) hlt hnodup.2 (fun i other hi hother => ?_)
    fun node hnode => ?_
  · have hmem : other ∈ init.set pos last := by
      refine List.mem_of_getElem? (i := i) ?_
      rw [List.getElem?_set_ne (Ne.symm hi)]
      exact hother
    have hne : other.node ≠ item.node := fun heq => hnodup.1 (heq ▸ List.mem_map_of_mem hmem)
    obtain ⟨hlt', -⟩ := List.getElem?_eq_some_iff.mp hother
    show (h.remove item.node).pos other.node = i
    rw [remove_pos_of_ne hne]
    exact hok.linked.pos_eq i other (by rw [harray, List.getElem?_append_left hlt', hother])
  · show (h.remove item.node).pos node = -1
    by_cases heq : node = item.node
    · rw [heq]
      exact Function.update_self _ _ _
    · rw [remove_pos_of_ne heq]
      refine hok.linked.outside node fun hmem => ?_
      rw [harray] at hmem
      rcases List.mem_cons.mp (hperm.mem_iff.mpr hmem) with hmem | hmem
      · exact heq hmem
      · exact hnode hmem

/-- `fix_down` and `fix_up` after the last item has taken the place of the erased one. -/
theorem Ok.fixBoth {init : List (Item α N)} {last : Item α N} (hok : Ok K h) (hK : 1 ≤ K)
    (harray : h.array = init ++ [last]) (hitem : init[pos]? = some item)
    (hint : init.length * K + 1 ≤ intMax) :
    ∃ h', ((fixDown K ⟨init.set pos last, (h.remove item.node).pos⟩ pos).bind fun h =>
        fixUp K h pos) = some h' ∧ Ok K h' ∧ h'.array.Perm (init.set pos last) := by
  obtain ⟨hlt, -⟩ := List.getElem?_eq_some_iff.mp hitem
  have haround : Around K (keys (init.set pos last)) pos :=
    ((hok.init harray).around (keys_defined.mpr hlt)).congr fun i hi => keys_set_ne hi
  obtain ⟨h₂, hdown, hlinked, hperm, hheap⟩ := fixDown_spec hK (hok.hole_last harray hitem)
    (List.getElem?_set_self hlt) (by rwa [List.length_set]) haround
  have hlt₂ : pos < h₂.array.length := by
    rw [hperm.length_eq, List.length_set]
    exact hlt
  obtain ⟨item₂, hitem₂⟩ := getElem?_of_lt hlt₂
  have hup : Around K (keys h₂.array) pos ∧ Below K (keys h₂.array) pos := by
    rcases hheap with hheap | ⟨hsame, hbelow⟩
    · exact ⟨hheap.around (keys_defined.mpr hlt₂), hheap.below⟩
    · rw [hsame]
      exact ⟨haround, hbelow⟩
  obtain ⟨h', hfix, hs⟩ := fixUp_spec (hlinked.hole hitem₂) hitem₂ hup.1 hup.2
  rw [hdown, Option.bind_some]
  exact ⟨h', hfix, ⟨hs.linked, hs.heaped⟩, hs.perm.trans hperm⟩

/-- The node of the item at `pos` is removed already. -/
theorem Ok.erasePos (hok : Ok K h) (hK : 1 ≤ K) (hitem : h.array[pos]? = some item)
    (hsize : h.array.length ≤ intMax) (hint : pos + 1 = h.array.length ∨ (h.array.length - 1) * K + 1 ≤ intMax) :
    ∃ h', KHeap.erasePos K (h.remove item.node) pos = some h' ∧ Ok K h' ∧
      items h = entry item ::ₘ items h' := by
  obtain ⟨hlt, -⟩ := List.getElem?_eq_some_iff.mp hitem
  obtain ⟨init, last, harray⟩ : ∃ init last, h.array = init ++ [last] := by
    have hne : h.array ≠ [] := List.ne_nil_of_length_pos (by omega)
    exact ⟨h.array.dropLast, h.array.getLast hne, (List.dropLast_append_getLast hne).symm⟩
  have hlen : h.array.length = init.length + 1 := by simp [harray]
  rw [hlen, Nat.add_sub_cancel] at hint
  rw [hlen] at hsize
  have hlast : (h.remove item.node).array.getLast? = some last := by
    rw [remove, harray, List.getLast?_concat]
  have hfits : ∀ array : List (Item α N), array.length = init.length →
      intSize ⟨array, (h.remove item.node).pos⟩ = some init.length := by
    intro array harray
    unfold intSize
    rw [harray]
    exact if_pos (by omega)
  unfold KHeap.erasePos
  rw [hlast]
  dsimp only
  rw [if_pos (show pos < (h.remove item.node).array.length from hlt)]
  by_cases hpos : pos = init.length
  · have heq : item = last := by
      rw [harray, hpos, List.getElem?_concat_length] at hitem
      exact (Option.some.inj hitem).symm
    have hdrop : ((h.remove item.node).array.set pos last).dropLast = init := by
      rw [remove, harray, hpos, List.set_append_right _ _ (Nat.le_refl _), Nat.sub_self]
      exact List.dropLast_concat
    rw [hdrop, hfits init rfl, Option.bind_some, if_neg (by omega)]
    refine ⟨_, rfl, hok.removeLast (heq ▸ harray), ?_⟩
    have hperm : h.array.Perm (item :: init) := by
      rw [harray, heq]
      exact List.perm_append_singleton _ _
    exact Multiset.coe_eq_coe.mpr (hperm.map entry)
  · have hlt' : pos < init.length := by omega
    have hitem' : init[pos]? = some item := by rwa [harray, List.getElem?_append_left hlt'] at hitem
    have hdrop : ((h.remove item.node).array.set pos last).dropLast = init.set pos last := by
      rw [remove, harray, List.set_append_left _ _ hlt']
      exact List.dropLast_concat
    rw [hdrop, hfits (init.set pos last) List.length_set, Option.bind_some, if_pos hlt']
    obtain ⟨h', hfix, hok', hperm⟩ := hok.fixBoth hK harray hitem' (hint.resolve_left (by omega))
    refine ⟨h', hfix, hok', ?_⟩
    have hall : h.array.Perm (item :: h'.array) := by
      rw [harray]
      exact (dropLast_set_perm _ hlt' hitem').symm.trans (hperm.symm.cons item)
    exact Multiset.coe_eq_coe.mpr (hall.map entry)

end TdUtils.KHeap
