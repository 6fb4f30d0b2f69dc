import TdUtils.Container.ListNode

/-!
# Container.ListNodeCalls — what each call makes of the rings

A call replaces each node of a ring by some nodes, and makes some nodes alone; so the rings of the nodes that are there
are known after it.
-/

namespace TdUtils

open Lib Rings

universe u

variable {N : Type u}

namespace ListNode

section Names

variable [DecidableEq N]

/-- What comes in the place of a node when `x`, which was alone, is put behind `y` with `put`. -/
def putBehind (y x b : N) : List N := if b = x then [] else if b = y then [y, x] else [b]

/-- What comes in the place of a node when `x`, which was alone, is put in front of `y` with `put_back`. -/
def putBefore (y x b : N) : List N := if b = x then [] else if b = y then [x, y] else [b]

namespace Call

/-- What comes in the place of a node of a ring. -/
def place : Call N → Option N → N → List N
  | .construct _, _, b => [b]
  | .destroy this, _, b => without this b
  | .put this other, _, b => if this = other then [b] else putBehind this other b
  | .putBack this other, _, b => if this = other then [b] else putBefore this other b
  | .get _, none, b => [b]
  | .get _, some result, b => without result b
  | .remove this, _, b => without this b
  | .moveConstruct this other, _, b => moved this other b
  | .moveAssign this other, _, b => if this = other then [b] else moved this other b

/-- The nodes that are alone in their rings after the call. -/
def alone : Call N → Option N → List N
  | .construct this, _ => [this]
  | .get _, some result => [result]
  | .remove this, _ => [this]
  | .moveConstruct _ other, _ => [other]
  | .moveAssign this other, _ => if this = other then [] else [other]
  | _, _ => []

/-- The nodes that are taken out or put in. -/
def touched : Call N → Option N → List N
  | .construct this, _ => [this]
  | .destroy this, _ => [this]
  | .put _ other, _ => [other]
  | .putBack _ other, _ => [other]
  | .get _, result => result.toList
  | .remove this, _ => [this]
  | .moveConstruct this other, _ => [this, other]
  | .moveAssign this other, _ => if this = other then [] else [this, other]

end Call

end Names

/-! ### States -/

/-- Each node that is there is in a ring of nodes that are. -/
def Whole (s : State N) : Prop := ∀ x ∈ s.nodes, ∃ c, s.heap.Rings c ∧ x ∈ c ∧ ∀ b ∈ c, b ∈ s.nodes

/-- The rings afterwards: in the place of each node there are some nodes, and some nodes are alone. -/
structure Rearranged (s s' : State N) (place : N → List N) (lone : List N) : Prop where
  rings : ∀ l : List N, (∀ b ∈ l, b ∈ s.nodes) → s.heap.Rings l → l.flatMap place ≠ [] →
    s'.heap.Rings (l.flatMap place : List N)
  alone : ∀ x ∈ lone, s'.heap.Rings ([x] : List N)
  nodes : ∀ x, x ∈ s'.nodes ↔ x ∈ lone ∨ ∃ b ∈ s.nodes, x ∈ place b

variable {s s' : State N} {x y : N} {heap : Heap N} {l : List N} {c : Cycle N} {answer : Option N}

theorem Rearranged.whole {place : N → List N} {lone : List N} (h : Rearranged s s' place lone) (hs : Whole s) :
    Whole s' := by
  intro x hx
  rcases (h.nodes x).mp hx with halone | ⟨b, hb, hplace⟩
  · refine ⟨_, h.alone x halone, by simp, fun b hb => ?_⟩
    have heq : b = x := by simpa using hb
    rwa [heq]
  · obtain ⟨c, hc, hbc, hall⟩ := hs b hb
    obtain ⟨l, rfl⟩ := exists_eq_cons hbc
    have hmem : x ∈ (b :: l).flatMap place := List.mem_flatMap.mpr ⟨b, List.mem_cons_self, hplace⟩
    refine ⟨_, h.rings (b :: l) hall hc (List.ne_nil_of_mem hmem), hmem, fun z hz => ?_⟩
    obtain ⟨a, ha, hza⟩ := List.mem_flatMap.mp hz
    exact (h.nodes z).mpr (.inr ⟨a, hall a ha, hza⟩)

/-- Nothing is done. -/
theorem Rearranged.refl (s : State N) : Rearranged s s (fun b => [b]) [] := by
  refine ⟨fun l _ hl _ => ?_, by simp, by simp⟩
  rwa [flatMap_pure fun b _ => rfl]

/-- A node that points to itself is not in another ring. -/
theorem not_mem_of_alone (halone : s.heap.next x = x) (hl : s.heap.Rings (l : List N)) (hne : l ≠ [x]) : x ∉ l := by
  intro hxl
  have heq := hl.eq_singleton hxl halone
  exact hne (List.perm_singleton.mp (Cycle.coe_eq_coe.mp heq).perm)

/-! ### Each call -/

variable [DecidableEq N]

theorem mem_without {b : N} : x ∈ without y b ↔ x = b ∧ b ≠ y := by
  unfold without
  split_ifs with h <;> simp [h]

theorem Whole.remove (hs : Whole s) (hx : x ∈ s.nodes) :
    Rearranged s { s with heap := s.heap.remove x } (without x) [x] := by
  obtain ⟨c, hc, hxc, -⟩ := hs x hx
  obtain ⟨hone, hrings⟩ := Heap.rings_remove hc hxc
  refine ⟨fun l _ hl => hrings l hl, by simpa using hone, fun z => ?_⟩
  simp only [mem_without, List.mem_singleton]
  constructor
  · intro hz
    by_cases hzx : z = x
    · exact .inl hzx
    · exact .inr ⟨z, hz, rfl, hzx⟩
  · rintro (rfl | ⟨b, hb, rfl, -⟩)
    · exact hx
    · exact hb

theorem Whole.destroy (hs : Whole s) (hx : x ∈ s.nodes) :
    Rearranged s ⟨s.heap.remove x, s.nodes.erase x⟩ (without x) [] := by
  refine ⟨(hs.remove hx).rings, by simp, fun z => ?_⟩
  simp only [mem_without, Finset.mem_erase, List.not_mem_nil, false_or]
  constructor
  · rintro ⟨hne, hz⟩
    exact ⟨z, hz, rfl, hne⟩
  · rintro ⟨b, hb, rfl, hne⟩
    exact ⟨hne, hb⟩

theorem Whole.construct (hx : x ∉ s.nodes) :
    Rearranged s ⟨s.heap.clear x, insert x s.nodes⟩ (fun b => [b]) [x] := by
  refine ⟨fun l hall hl _ => ?_, ?_, by simp⟩
  · have hne : ∀ b ∈ (l : Cycle N), b ≠ x := fun b hb heq => hx (heq ▸ hall b hb)
    rw [flatMap_pure fun b _ => rfl]
    exact hl.congr (fun b hb => by simp [Heap.clear, hne b hb]) fun b hb => by simp [Heap.clear, hne b hb]
  · simp only [List.forall_mem_singleton]
    exact ringOf_singleton.mpr (by simp [Heap.clear])

theorem mem_put {g : N → List N} (hg : ∀ b z : N, z ∈ g b ↔ b ≠ x ∧ (z = b ∨ b = y ∧ z = x)) (hx : x ∈ s.nodes)
    (hy : y ∈ s.nodes) (hne : y ≠ x) (z : N) : z ∈ s.nodes ↔ z ∈ ([] : List N) ∨ ∃ b ∈ s.nodes, z ∈ g b := by
  simp only [List.not_mem_nil, false_or, hg]
  constructor
  · intro hz
    by_cases hzx : z = x
    · exact ⟨y, hy, hne, .inr ⟨rfl, hzx⟩⟩
    · exact ⟨z, hz, hzx, .inl rfl⟩
  · rintro ⟨b, hb, -, rfl | ⟨-, rfl⟩⟩
    · exact hb
    · exact hx

theorem Whole.put (hs : Whole s) (hy : y ∈ s.nodes) (hx : x ∈ s.nodes) (halone : s.heap.next x = x) (hne : y ≠ x) :
    Rearranged s { s with heap := s.heap.putUnsafe y x } (putBehind y x) [] := by
  obtain ⟨c, hc, hyc, -⟩ := hs y hy
  refine ⟨fun l _ hl hnil => ?_, by simp, mem_put (fun b z => ?_) hx hy hne⟩
  · have hxl : x ∉ l := by
      refine not_mem_of_alone halone hl ?_
      rintro rfl
      exact hnil (by simp [putBehind])
    have hflat : l.flatMap (putBehind y x) = l.flatMap (behind y x) :=
      List.flatMap_congr fun b hb => if_neg fun heq : b = x => hxl (heq ▸ hb)
    rw [hflat]
    exact Heap.rings_putUnsafe hc hyc hl hxl
  · unfold putBehind
    split_ifs with hbx hby <;> simp [*]

theorem Whole.put_self (hs : Whole s) (hx : x ∈ s.nodes) (halone : s.heap.next x = x) :
    s.heap.putUnsafe x x = s.heap := by
  obtain ⟨c, hc, hxc, -⟩ := hs x hx
  have hprev := hc.prev_next hxc
  rw [halone] at hprev
  ext b
  · by_cases hb : b = x <;> simp [hb, halone]
  · by_cases hb : b = x <;> simp [hb, hprev, halone]

theorem Whole.putBack_self (hs : Whole s) (hx : x ∈ s.nodes) (halone : s.heap.next x = x) :
    (s.heap.connect (s.heap.prev x) x).connect x x = s.heap := by
  obtain ⟨c, hc, hxc, -⟩ := hs x hx
  have hprev := hc.prev_next hxc
  rw [halone] at hprev
  have hput := hs.put_self hx halone
  unfold Heap.putUnsafe at hput
  rw [halone] at hput
  rw [hprev]
  exact hput

/-- What `put_back` does is a `put` behind the node in front. -/
theorem Whole.putBack_eq (hs : Whole s) (hy : y ∈ s.nodes) (halone : s.heap.next x = x) (hne : y ≠ x) :
    (s.heap.connect (s.heap.prev y) x).connect x y = s.heap.putUnsafe (s.heap.prev y) x := by
  obtain ⟨c, hc, hyc, -⟩ := hs y hy
  have hnext := hc.next_prev hyc
  have hprev : s.heap.prev y ≠ x := by
    intro heq
    rw [heq, halone] at hnext
    exact hne hnext.symm
  unfold Heap.putUnsafe
  rw [hnext]
  ext b
  · simp only [Heap.connect]
    rw [Function.update_comm hprev]
  · simp only [Heap.connect]
    rw [Function.update_comm hne.symm]

theorem Whole.putBack (hs : Whole s) (hy : y ∈ s.nodes) (hx : x ∈ s.nodes) (halone : s.heap.next x = x) (hne : y ≠ x) :
    Rearranged s { s with heap := s.heap.putUnsafe (s.heap.prev y) x } (putBefore y x) [] := by
  obtain ⟨c, hc, hyc, -⟩ := hs y hy
  refine ⟨fun l _ hl hnil => ?_, by simp, mem_put (fun b z => ?_) hx hy hne⟩
  · have hxl : x ∉ l := by
      refine not_mem_of_alone halone hl ?_
      rintro rfl
      exact hnil (by simp [putBefore])
    by_cases hyl : y ∈ l
    · refine flatMap_of_cons hyl fun m hm => ?_
      have hxm : x ∉ y :: m := (Cycle.coe_eq_coe.mp hm).mem_iff.not.mp hxl
      rw [hm] at hl
      have hym : y ∉ m := hl.not_mem_tail
      have hring := Heap.rings_putUnsafe hc (hc.prev_mem hyc) hl hxm
      obtain ⟨k, hk, hlast⟩ := hl.exists_concat_cons
      have hbehind : (y :: m).flatMap (behind (s.heap.prev y) x) = (y :: m) ++ [x] := by
        rw [hk, List.flatMap_append, flatMap_behind_of_not_mem hlast, List.flatMap_singleton, behind, if_pos rfl,
          List.append_assoc]
        rfl
      have hbefore : (y :: m).flatMap (putBefore y x) = [x] ++ (y :: m) := by
        rw [List.flatMap_cons, flatMap_pure, putBefore, if_neg hne, if_pos rfl]
        · rfl
        · intro b hb
          have hbx : b ≠ x := fun heq => hxm (heq ▸ List.mem_cons_of_mem _ hb)
          have hby : b ≠ y := fun heq => hym (heq ▸ hb)
          rw [putBefore, if_neg hbx, if_neg hby]
      rw [hbehind, coe_append] at hring
      rw [hbefore]
      exact hring
    · have hflat : l.flatMap (putBefore y x) = l := flatMap_pure fun b hb => by
        have hbx : b ≠ x := fun heq => hxl (heq ▸ hb)
        have hby : b ≠ y := fun heq => hyl (heq ▸ hb)
        rw [putBefore, if_neg hbx, if_neg hby]
      have hring := Heap.rings_putUnsafe hc (hc.prev_mem hyc) hl hxl
      rw [flatMap_behind_of_not_mem (hc.not_mem hl hyc hyl (hc.prev_mem hyc))] at hring
      rw [hflat]
      exact hring
  · unfold putBefore
    split_ifs with hbx hby <;> simp [*, or_comm]

theorem Whole.get_eq (hs : Whole s) (hx : x ∈ s.nodes) : s.heap.get x =
    if s.heap.prev x = x then (s.heap, none) else (s.heap.remove (s.heap.prev x), some (s.heap.prev x)) := by
  obtain ⟨c, hc, hxc, -⟩ := hs x hx
  unfold Heap.get Heap.remove
  rw [hc.next_prev hxc]

theorem flatMap_moved (x y : N) (l : List N) : l.flatMap (moved x y) = (l.flatMap (without x)).flatMap (moved x y) := by
  rw [List.flatMap_assoc]
  refine List.flatMap_congr fun b _ => ?_
  by_cases hb : b = x <;> simp [without, moved, hb]

/-- A node that is alone hands over its place. -/
theorem rings_moved_of_alone (hone : heap.Rings ([x] : List N)) (halone : heap.next y = y)
    (hl : heap.Rings (l : List N)) (hxl : x ∉ l) : heap.Rings (l.flatMap (moved x y) : List N) := by
  by_cases hyl : y ∈ l
  · have heq := hl.eq_singleton hyl halone
    obtain rfl := List.perm_singleton.mp (Cycle.coe_eq_coe.mp heq).perm
    have hne : y ≠ x := fun heq => hxl (heq ▸ List.mem_singleton_self _)
    simpa [moved, hne] using hone
  · rwa [flatMap_moved_of_not_mem hxl hyl]

theorem mem_moved {b z : N} : z ∈ moved x y b ↔ b ≠ x ∧ (b = y ∧ z = x ∨ b ≠ y ∧ z = b) := by
  unfold moved
  split_ifs with hbx hby
  · simp [hbx]
  · simp [← hby, hbx]
  · simp [hbx, hby]

theorem Whole.moveConstruct (hs : Whole s) (hx : x ∉ s.nodes) (hy : y ∈ s.nodes) :
    Rearranged s ⟨s.heap.moveConstruct x y, insert x s.nodes⟩ (moved x y) [y] := by
  obtain ⟨c, hc, hyc, hall⟩ := hs y hy
  have hxy : x ≠ y := fun heq => hx (heq ▸ hy)
  have hnodes : ∀ z, z ∈ insert x s.nodes ↔ z ∈ [y] ∨ ∃ b ∈ s.nodes, z ∈ moved x y b := by
    intro z
    simp only [Finset.mem_insert, List.mem_singleton, mem_moved]
    constructor
    · rintro (rfl | hz)
      · exact .inr ⟨y, hy, hxy.symm, .inl ⟨rfl, rfl⟩⟩
      · by_cases hzy : z = y
        · exact .inl hzy
        · exact .inr ⟨z, hz, fun heq => hx (heq ▸ hz), .inr ⟨hzy, rfl⟩⟩
    · rintro (rfl | ⟨b, hb, -, ⟨-, rfl⟩ | ⟨-, rfl⟩⟩)
      · exact .inr hy
      · exact .inl rfl
      · exact .inr hb
  unfold Heap.moveConstruct
  by_cases hempty : s.heap.next y = y
  · have hnew := Whole.construct hx
    rw [if_pos ((s.heap.empty_iff y).mpr hempty)]
    have hkept : ∀ l : List N, (∀ b ∈ l, b ∈ s.nodes) → s.heap.Rings l → (s.heap.clear x).Rings l := by
      intro l hl hring
      have hne : l.flatMap (fun b => [b]) ≠ [] := by
        rw [flatMap_pure fun b _ => rfl]
        exact fun hnil => hring.ne_nil (by rw [hnil]; rfl)
      have hmoved := hnew.rings l hl hring hne
      rwa [flatMap_pure fun b _ => rfl] at hmoved
    have hself : (s.heap.clear x).next y = y := by simp [Heap.clear, hxy.symm, hempty]
    refine ⟨fun l hl hring _ => ?_, ?_, hnodes⟩
    · exact rings_moved_of_alone (hnew.alone x (by simp)) hself (hkept l hl hring) fun hxl => hx (hl x hxl)
    · rw [hc.eq_singleton hyc hempty] at hc
      simpa using hkept [y] (by simpa using hy) hc
  · have hxc : x ∉ c := fun hmem => hx (hall x hmem)
    obtain ⟨hone, hrings⟩ := Heap.rings_initFrom hc hyc hempty hxc
    rw [if_neg fun h => hempty ((s.heap.empty_iff y).mp h)]
    exact ⟨fun l hl hring _ => hrings l hring fun hxl => hx (hl x hxl), by simpa using hone, hnodes⟩

theorem Whole.moveAssign (hs : Whole s) (hx : x ∈ s.nodes) (hy : y ∈ s.nodes) (hne : x ≠ y) :
    Rearranged s { s with heap := s.heap.moveAssign x y } (moved x y) [y] := by
  have hremove := hs.remove hx
  obtain ⟨c, hc, hyc, hall⟩ := hremove.whole hs y hy
  have hxone := hremove.alone x (by simp)
  have hxalone : (s.heap.remove x).next x = x := (ringOf_singleton.mp hxone).1
  have hnodes : ∀ z, z ∈ s.nodes ↔ z ∈ [y] ∨ ∃ b ∈ s.nodes, z ∈ moved x y b := by
    intro z
    simp only [List.mem_singleton, mem_moved]
    constructor
    · intro hz
      by_cases hzy : z = y
      · exact .inl hzy
      by_cases hzx : z = x
      · exact .inr ⟨y, hy, hne.symm, .inl ⟨rfl, hzx⟩⟩
      · exact .inr ⟨z, hz, hzx, .inr ⟨hzy, rfl⟩⟩
    · rintro (rfl | ⟨b, hb, -, ⟨-, rfl⟩ | ⟨-, rfl⟩⟩)
      · exact hy
      · exact hx
      · exact hb
  -- a ring without `x` is a ring after the first step
  have hfirst : ∀ l : List N, (∀ b ∈ l, b ∈ s.nodes) → s.heap.Rings l → l.flatMap (moved x y) ≠ [] →
      (s.heap.remove x).Rings (l.flatMap (without x) : List N) ∧ x ∉ l.flatMap (without x) := by
    intro l hl hring hnil
    refine ⟨hremove.rings l hl hring fun hnone => hnil (by rw [flatMap_moved, hnone]; rfl), ?_⟩
    simp [mem_without]
  have hassign : s.heap.moveAssign x y =
      if (s.heap.remove x).next y = y then s.heap.remove x else (s.heap.remove x).initFrom x y := by
    unfold Heap.moveAssign
    simp only [if_neg hne, Heap.empty_iff, ite_not]
  rw [hassign]
  by_cases hempty : (s.heap.remove x).next y = y
  · rw [if_pos hempty]
    refine ⟨fun l hl hring hnil => ?_, ?_, hnodes⟩
    · obtain ⟨hrest, hxl⟩ := hfirst l hl hring hnil
      rw [flatMap_moved]
      exact rings_moved_of_alone hxone hempty hrest hxl
    · have hone := hc
      rw [hc.eq_singleton hyc hempty] at hone
      simpa using hone
  · have hxc : x ∉ c := by
      intro hxc
      have heq := hc.eq_singleton hxc hxalone
      rw [heq] at hyc
      exact hne (by simpa using hyc : y = x).symm
    obtain ⟨hone, hrings⟩ := Heap.rings_initFrom hc hyc hempty hxc
    rw [if_neg hempty]
    refine ⟨fun l hl hring hnil => ?_, by simpa using hone, hnodes⟩
    obtain ⟨hrest, hxl⟩ := hfirst l hl hring hnil
    rw [flatMap_moved]
    exact hrings _ hrest hxl

theorem step_put (h : step s (.put y x) = some (s', answer)) : y ∈ s.nodes ∧ x ∈ s.nodes ∧ s.heap.next x = x ∧
    s' = { s with heap := s.heap.putUnsafe y x } ∧ answer = none := by
  obtain ⟨⟨hy, hx⟩, heq⟩ := Option.ite_none_right_eq_some.mp h
  obtain ⟨heap, hput, heq⟩ := Option.map_eq_some_iff.mp heq
  obtain ⟨rfl, rfl⟩ := Prod.mk.inj heq
  obtain ⟨hempty, hheap⟩ := Option.ite_none_right_eq_some.mp hput
  obtain rfl := Option.some.inj hheap
  exact ⟨hy, hx, (s.heap.empty_iff x).mp hempty, rfl, rfl⟩

theorem step_putBack (h : step s (.putBack y x) = some (s', answer)) : y ∈ s.nodes ∧ x ∈ s.nodes ∧
    s.heap.next x = x ∧ s' = { s with heap := (s.heap.connect (s.heap.prev y) x).connect x y } ∧ answer = none := by
  obtain ⟨⟨hy, hx⟩, heq⟩ := Option.ite_none_right_eq_some.mp h
  obtain ⟨heap, hput, heq⟩ := Option.map_eq_some_iff.mp heq
  obtain ⟨rfl, rfl⟩ := Prod.mk.inj heq
  obtain ⟨hempty, hheap⟩ := Option.ite_none_right_eq_some.mp hput
  obtain rfl := Option.some.inj hheap
  exact ⟨hy, hx, (s.heap.empty_iff x).mp hempty, rfl, rfl⟩

theorem Whole.step_get (hs : Whole s) (h : step s (.get x) = some (s', answer)) : x ∈ s.nodes ∧
    (s.heap.prev x = x ∧ s' = s ∧ answer = none ∨
      s.heap.prev x ≠ x ∧ s' = { s with heap := s.heap.remove (s.heap.prev x) } ∧ answer = some (s.heap.prev x)) := by
  have hget : step s (.get x) =
      if x ∈ s.nodes then some ({ s with heap := (s.heap.get x).1 }, (s.heap.get x).2) else none := rfl
  rw [hget] at h
  obtain ⟨hx, heq⟩ := Option.ite_none_right_eq_some.mp h
  rw [hs.get_eq hx] at heq
  obtain ⟨rfl, rfl⟩ := Prod.mk.inj (Option.some.inj heq)
  refine ⟨hx, ?_⟩
  by_cases halone : s.heap.prev x = x
  · rw [if_pos halone]
    exact .inl ⟨halone, rfl, rfl⟩
  · rw [if_neg halone]
    exact .inr ⟨halone, rfl, rfl⟩

/-- **Each call** rearranges the rings as it says. -/
theorem step_rearranged (hs : Whole s) {call : Call N} (h : step s call = some (s', answer)) :
    Rearranged s s' (call.place answer) (call.alone answer) := by
  cases call with
  | construct x =>
    obtain ⟨hx, heq⟩ := Option.ite_none_right_eq_some.mp h
    obtain ⟨rfl, rfl⟩ := Prod.mk.inj (Option.some.inj heq)
    exact Whole.construct hx
  | destroy x =>
    obtain ⟨hx, heq⟩ := Option.ite_none_right_eq_some.mp h
    obtain ⟨rfl, rfl⟩ := Prod.mk.inj (Option.some.inj heq)
    exact hs.destroy hx
  | put y x =>
    obtain ⟨hy, hx, halone, rfl, rfl⟩ := step_put h
    by_cases hyx : y = x
    · subst hyx
      have hplace : (Call.put y y).place none = fun b => [b] := funext fun b => if_pos rfl
      rw [hplace, hs.put_self hy halone]
      exact Rearranged.refl s
    · have hplace : (Call.put y x).place none = putBehind y x := funext fun b => if_neg hyx
      rw [hplace]
      exact hs.put hy hx halone hyx
  | putBack y x =>
    obtain ⟨hy, hx, halone, rfl, rfl⟩ := step_putBack h
    by_cases hyx : y = x
    · subst hyx
      have hplace : (Call.putBack y y).place none = fun b => [b] := funext fun b => if_pos rfl
      rw [hplace, hs.putBack_self hy halone]
      exact Rearranged.refl s
    · have hplace : (Call.putBack y x).place none = putBefore y x := funext fun b => if_neg hyx
      rw [hplace, hs.putBack_eq hy halone hyx]
      exact hs.putBack hy hx halone hyx
  | get x =>
    obtain ⟨hx, ⟨-, rfl, rfl⟩ | ⟨-, rfl, rfl⟩⟩ := hs.step_get h
    · exact Rearranged.refl _
    · obtain ⟨c, hc, hxc, hall⟩ := hs x hx
      exact hs.remove (hall _ (hc.prev_mem hxc))
  | remove x =>
    obtain ⟨hx, heq⟩ := Option.ite_none_right_eq_some.mp h
    obtain ⟨rfl, rfl⟩ := Prod.mk.inj (Option.some.inj heq)
    exact hs.remove hx
  | moveConstruct x y =>
    obtain ⟨⟨hx, hy⟩, heq⟩ := Option.ite_none_right_eq_some.mp h
    obtain ⟨rfl, rfl⟩ := Prod.mk.inj (Option.some.inj heq)
    exact hs.moveConstruct hx hy
  | moveAssign x y =>
    obtain ⟨⟨hx, hy⟩, heq⟩ := Option.ite_none_right_eq_some.mp h
    obtain ⟨rfl, rfl⟩ := Prod.mk.inj (Option.some.inj heq)
    by_cases hxy : x = y
    · have hplace : (Call.moveAssign x y).place none = fun b => [b] := funext fun b => if_pos hxy
      have hlone : (Call.moveAssign x y).alone none = [] := if_pos hxy
      have hheap : s.heap.moveAssign x y = s.heap := if_pos hxy
      rw [hplace, hlone, hheap]
      exact Rearranged.refl s
    · have hplace : (Call.moveAssign x y).place none = moved x y := funext fun b => if_neg hxy
      have hlone : (Call.moveAssign x y).alone none = [y] := if_neg hxy
      rw [hplace, hlone]
      exact hs.moveAssign hx hy hxy

end ListNode

end TdUtils
