import Mathlib.Data.List.Cycle

/-!
# Lib.Rings — rings of nodes with pointers in both directions

`RingOf next prev c`: the nodes of the cycle `c` point to each other in its order.  A node is in one ring at most; a
ring only depends on the pointers of its nodes; a node can be taken out of a ring, and another put in.
-/

namespace TdUtils.Lib.Rings

universe u

variable {N : Type u} {next prev next' prev' : N → N} {x y z : N} {c c' : Cycle N} {l m : List N}

/-- `y` is behind `x`, and both pointers say so. -/
def Linked (next prev : N → N) (x y : N) : Prop := next x = y ∧ prev y = x

/-- A cycle of nodes, each linked with the one behind it. -/
structure RingOf (next prev : N → N) (c : Cycle N) : Prop where
  ne_nil : c ≠ Cycle.nil
  nodup : c.Nodup
  chain : c.Chain (Linked next prev)

theorem ringOf_cons : RingOf next prev (x :: l : List N) ↔
    (x :: l).Nodup ∧ List.IsChain (Linked next prev) (x :: (l ++ [x])) := by
  constructor
  · intro h
    exact ⟨Cycle.nodup_coe_iff.mp h.nodup, h.chain⟩
  · rintro ⟨hnodup, hchain⟩
    exact ⟨fun hnil => absurd ((Cycle.coe_eq_nil _).mp hnil) (by simp), Cycle.nodup_coe_iff.mpr hnodup, hchain⟩

theorem ringOf_singleton : RingOf next prev ([x] : List N) ↔ next x = x ∧ prev x = x := by
  rw [ringOf_cons]
  simp [Linked]

/-- A ring can be seen from each of its nodes. -/
theorem exists_eq_cons (h : x ∈ c) : ∃ l : List N, c = (x :: l : List N) := by
  induction c using Quotient.inductionOn' with
  | h l =>
    have hmem : x ∈ l := h
    obtain ⟨a, b, rfl⟩ := List.append_of_mem hmem
    exact ⟨b ++ a, Cycle.coe_eq_coe.mpr List.isRotated_append⟩

theorem coe_append (l m : List N) : ((l ++ m : List N) : Cycle N) = (m ++ l : List N) :=
  Cycle.coe_eq_coe.mpr List.isRotated_append

theorem flatMap_pure {g : N → List N} (hg : ∀ b ∈ l, g b = [b]) : l.flatMap g = l := by
  rw [List.flatMap_congr hg, List.flatMap_singleton']

/-- What comes from each node of a list, one after another, is the same ring wherever the list begins. -/
theorem flatMap_of_cons {g : N → List N} (hy : y ∈ l) (h : ∀ m : List N, (l : Cycle N) = (y :: m : List N) →
    RingOf next prev ((y :: m).flatMap g : List N)) : RingOf next prev (l.flatMap g : List N) := by
  obtain ⟨a, b, rfl⟩ := List.append_of_mem hy
  rw [List.flatMap_append, coe_append, ← List.flatMap_append]
  exact h (b ++ a) (coe_append a (y :: b))

/-! ### The pointers of a ring -/

/-- Behind each node of a ring there is one, and in front of it. -/
theorem RingOf.links (h : RingOf next prev c) (hx : x ∈ c) :
    (∃ y ∈ c, Linked next prev x y) ∧ ∃ z ∈ c, Linked next prev z x := by
  obtain ⟨l, rfl⟩ := exists_eq_cons hx
  obtain ⟨-, hchain⟩ := ringOf_cons.mp h
  constructor
  · cases l with
    | nil => exact ⟨x, hx, by simpa using hchain⟩
    | cons y l =>
      refine ⟨y, by simp, ?_⟩
      rw [List.cons_append, List.isChain_cons_cons] at hchain
      exact hchain.1
  · induction l using List.reverseRecOn with
    | nil => exact ⟨x, hx, by simpa using hchain⟩
    | append_singleton l z _ =>
      refine ⟨z, by simp, ?_⟩
      rw [List.append_assoc, ← List.cons_append, List.singleton_append, List.isChain_split] at hchain
      simpa using hchain.2

theorem RingOf.next_mem (h : RingOf next prev c) (hx : x ∈ c) : next x ∈ c := by
  obtain ⟨⟨y, hy, hlink⟩, -⟩ := h.links hx
  rwa [hlink.1]

theorem RingOf.prev_mem (h : RingOf next prev c) (hx : x ∈ c) : prev x ∈ c := by
  obtain ⟨-, z, hz, hlink⟩ := h.links hx
  rwa [hlink.2]

theorem RingOf.prev_next (h : RingOf next prev c) (hx : x ∈ c) : prev (next x) = x := by
  obtain ⟨⟨y, hy, hlink⟩, -⟩ := h.links hx
  rw [hlink.1, hlink.2]

theorem RingOf.next_prev (h : RingOf next prev c) (hx : x ∈ c) : next (prev x) = x := by
  obtain ⟨-, z, hz, hlink⟩ := h.links hx
  rw [hlink.2, hlink.1]

/-- The way from one node to another is given by the pointers. -/
theorem eq_of_isChain (hl : List.IsChain (Linked next prev) (x :: (l ++ [z])))
    (hm : List.IsChain (Linked next prev) (x :: (m ++ [z]))) (hzl : z ∉ l) (hzm : z ∉ m) : l = m := by
  induction l generalizing x m with
  | nil =>
    cases m with
    | nil => rfl
    | cons y m =>
      have hz : next x = z := (List.isChain_pair.mp hl).1
      rw [List.cons_append, List.isChain_cons_cons] at hm
      exact absurd (hz.symm.trans hm.1.1 ▸ List.mem_cons_self) hzm
  | cons y l ih =>
    rw [List.cons_append, List.isChain_cons_cons] at hl
    cases m with
    | nil =>
      have hz : next x = z := (List.isChain_pair.mp hm).1
      exact absurd (hz.symm.trans hl.1.1 ▸ List.mem_cons_self) hzl
    | cons y' m =>
      rw [List.cons_append, List.isChain_cons_cons] at hm
      obtain rfl : y = y' := hl.1.1.symm.trans hm.1.1
      rw [ih hl.2 hm.2 (List.not_mem_of_not_mem_cons hzl) (List.not_mem_of_not_mem_cons hzm)]

/-- A node is in one ring. -/
theorem RingOf.eq_of_mem (h : RingOf next prev c) (h' : RingOf next prev c') (hx : x ∈ c) (hx' : x ∈ c') : c = c' := by
  obtain ⟨l, rfl⟩ := exists_eq_cons hx
  obtain ⟨m, rfl⟩ := exists_eq_cons hx'
  obtain ⟨hnodup, hchain⟩ := ringOf_cons.mp h
  obtain ⟨hnodup', hchain'⟩ := ringOf_cons.mp h'
  rw [eq_of_isChain hchain hchain' (List.nodup_cons.mp hnodup).1 (List.nodup_cons.mp hnodup').1]

/-- A node that points to itself is alone. -/
theorem RingOf.eq_singleton (h : RingOf next prev c) (hx : x ∈ c) (halone : next x = x) : c = ([x] : List N) := by
  have hprev := h.prev_next hx
  rw [halone] at hprev
  exact h.eq_of_mem (ringOf_singleton.mpr ⟨halone, hprev⟩) hx (by simp)

/-- In a ring with other nodes a node does not point to itself. -/
theorem RingOf.next_ne (h : RingOf next prev (x :: l : List N)) (hl : l ≠ []) : next x ≠ x := by
  intro halone
  have heq := h.eq_singleton (by simp) halone
  have hlen := (Cycle.coe_eq_coe.mp heq).perm.length_eq
  rw [List.length_cons, List.length_singleton, Nat.add_eq_right, List.length_eq_zero_iff] at hlen
  exact hl hlen

theorem RingOf.prev_ne (h : RingOf next prev (x :: l : List N)) (hl : l ≠ []) : prev x ≠ x := by
  intro halone
  have hnext := h.next_prev (x := x) (by simp)
  rw [halone] at hnext
  exact h.next_ne hl hnext

theorem RingOf.not_mem_tail (h : RingOf next prev (x :: l : List N)) : x ∉ l :=
  (List.nodup_cons.mp (ringOf_cons.mp h).1).1

/-- The last node of a ring is the one in front of the first. -/
theorem RingOf.exists_concat (h : RingOf next prev (x :: l : List N)) (hl : l ≠ []) :
    ∃ m, l = m ++ [prev x] ∧ prev x ∉ m := by
  obtain ⟨hnodup, hchain⟩ := ringOf_cons.mp h
  obtain ⟨m, z, rfl⟩ := (List.eq_nil_or_concat' l).resolve_left hl
  rw [List.append_assoc, ← List.cons_append, List.singleton_append, List.isChain_split] at hchain
  have hz : prev x = z := (List.isChain_pair.mp hchain.2).2
  have hdisjoint := (List.nodup_append.mp (List.nodup_cons.mp hnodup).2).2.2
  exact ⟨m, by rw [hz], fun hmem => hdisjoint _ hmem z (by simp) hz⟩

theorem RingOf.exists_concat_cons (h : RingOf next prev (x :: l : List N)) :
    ∃ m, x :: l = m ++ [prev x] ∧ prev x ∉ m := by
  by_cases hl : l = []
  · subst hl
    exact ⟨[], by rw [(ringOf_singleton.mp h).2, List.nil_append], List.not_mem_nil⟩
  · obtain ⟨m, hm, hlast⟩ := h.exists_concat hl
    refine ⟨x :: m, by rw [List.cons_append, ← hm], ?_⟩
    rw [List.mem_cons, not_or]
    exact ⟨h.prev_ne hl, hlast⟩

/-- The nodes of one ring are not those of another. -/
theorem RingOf.not_mem (h : RingOf next prev c) (h' : RingOf next prev c') (hx : x ∈ c) (hx' : x ∉ c') (hy : y ∈ c) :
    y ∉ c' := by
  intro hy'
  rw [h.eq_of_mem h' hy hy'] at hx
  exact hx' hx

/-! ### Changes of pointers -/

theorem isChain_congr (h : List.IsChain (Linked next prev) (x :: (l ++ [z]))) (hnext : ∀ b ∈ x :: l, next' b = next b)
    (hprev : ∀ b ∈ l ++ [z], prev' b = prev b) : List.IsChain (Linked next' prev') (x :: (l ++ [z])) := by
  induction l generalizing x with
  | nil =>
    have hlink := List.isChain_pair.mp h
    rw [List.nil_append, List.isChain_pair]
    exact ⟨(hnext x (by simp)).trans hlink.1, (hprev z (by simp)).trans hlink.2⟩
  | cons y l ih =>
    rw [List.cons_append, List.isChain_cons_cons] at h ⊢
    obtain ⟨hlink, hrest⟩ := h
    refine ⟨⟨(hnext x (by simp)).trans hlink.1, (hprev y (by simp)).trans hlink.2⟩, ih hrest ?_ ?_⟩
    · exact fun b hb => hnext b (List.mem_cons_of_mem _ hb)
    · exact fun b hb => hprev b (List.mem_cons_of_mem _ hb)

/-- A ring with the same pointers stays. -/
theorem RingOf.congr (h : RingOf next prev c) (hnext : ∀ b ∈ c, next' b = next b) (hprev : ∀ b ∈ c, prev' b = prev b) :
    RingOf next' prev' c := by
  induction c using Quotient.inductionOn' with
  | h l =>
    cases l with
    | nil => exact absurd rfl h.ne_nil
    | cons x l =>
      obtain ⟨hnodup, hchain⟩ := ringOf_cons.mp h
      refine ringOf_cons.mpr ⟨hnodup, isChain_congr hchain hnext fun b hb => hprev b ?_⟩
      show b ∈ x :: l
      rw [List.mem_append, List.mem_singleton] at hb
      exact List.mem_cons.mpr hb.symm

/-- The nodes of a ring without `x`, when its neighbours are linked with each other. -/
theorem RingOf.out (h : RingOf next prev (x :: l : List N)) (hl : l ≠ []) (hp : next' (prev x) = next x)
    (hn : prev' (next x) = prev x) (hnext : ∀ b ∈ l, b ≠ prev x → next' b = next b)
    (hprev : ∀ b ∈ l, b ≠ next x → prev' b = prev b) : RingOf next' prev' (l : List N) := by
  obtain ⟨hnodup, hchain⟩ := ringOf_cons.mp h
  obtain ⟨b, l, rfl⟩ := List.exists_cons_of_ne_nil hl
  rw [List.cons_append, List.isChain_cons_cons] at hchain
  obtain ⟨⟨hb, -⟩, hchain⟩ := hchain
  have hnodup := (List.nodup_cons.mp hnodup).2
  induction l using List.reverseRecOn with
  | nil =>
    have hlink := List.isChain_pair.mp hchain
    rw [hb, hlink.2] at hp hn
    exact ringOf_singleton.mpr ⟨hp, hn⟩
  | append_singleton l e _ =>
    rw [List.append_assoc, ← List.cons_append, List.singleton_append, List.isChain_split] at hchain
    obtain ⟨hway, hend⟩ := hchain
    obtain ⟨-, he⟩ := List.isChain_pair.mp hend
    rw [hb, he] at hp hn
    rw [he] at hnext
    rw [hb] at hprev
    refine ringOf_cons.mpr ⟨hnodup, ?_⟩
    rw [List.append_assoc, ← List.cons_append, List.singleton_append, List.isChain_split]
    have hfirst : b ∉ l ++ [e] := (List.nodup_cons.mp hnodup).1
    have hlast : ∀ a ∈ b :: l, a ≠ e := by
      rw [← List.cons_append] at hnodup
      exact fun a ha => (List.nodup_append.mp hnodup).2.2 a ha e (by simp)
    refine ⟨isChain_congr hway (fun a ha => hnext a ?_ (hlast a ha)) fun a ha => hprev a ?_ ?_,
      List.isChain_pair.mpr ⟨hp, hn⟩⟩
    · rw [← List.cons_append]
      exact List.mem_append_left _ ha
    · exact List.mem_cons_of_mem _ ha
    · rintro rfl
      exact hfirst ha

/-- The nodes of a ring with a new node `x` behind `y`. -/
theorem RingOf.insert (h : RingOf next prev (y :: l : List N)) (hx : x ∉ y :: l) (hy : next' y = x) (hxy : prev' x = y)
    (hxn : next' x = next y) (hn : prev' (next y) = x) (hnext : ∀ b ∈ l, next' b = next b)
    (hprev : ∀ b ∈ y :: l, b ≠ next y → prev' b = prev b) : RingOf next' prev' (y :: x :: l : List N) := by
  obtain ⟨hnodup, hchain⟩ := ringOf_cons.mp h
  obtain ⟨hyl, hnodup⟩ := List.nodup_cons.mp hnodup
  have hnodup' : (y :: x :: l).Nodup := by
    rw [List.nodup_cons, List.nodup_cons, List.mem_cons, not_or]
    exact ⟨⟨fun heq => hx (heq ▸ List.mem_cons_self), hyl⟩, List.not_mem_of_not_mem_cons hx, hnodup⟩
  refine ringOf_cons.mpr ⟨hnodup', ?_⟩
  rw [List.cons_append, List.isChain_cons_cons]
  refine ⟨⟨hy, hxy⟩, ?_⟩
  cases l with
  | nil =>
    have hlink := List.isChain_pair.mp hchain
    rw [hlink.1] at hxn hn
    exact List.isChain_pair.mpr ⟨hxn, hn⟩
  | cons n l =>
    rw [List.cons_append, List.isChain_cons_cons] at hchain ⊢
    obtain ⟨⟨hyn, -⟩, hway⟩ := hchain
    rw [hyn] at hxn hn hprev
    refine ⟨⟨hxn, hn⟩, isChain_congr hway hnext fun a ha => hprev a ?_ ?_⟩
    · rw [List.mem_append, List.mem_singleton] at ha
      exact ha.elim (fun hal => List.mem_cons_of_mem _ (List.mem_cons_of_mem _ hal)) fun hay => hay ▸ List.mem_cons_self
    · rintro rfl
      rcases List.mem_append.mp ha with hal | hay
      · exact (List.nodup_cons.mp hnodup).1 hal
      · exact hyl (List.mem_singleton.mp hay ▸ List.mem_cons_self)

end TdUtils.Lib.Rings
