import TdUtils.Container.ListNodeCalls

/-!
# Container.ListNodeRuns — programs with nodes

In every state that a program reaches the nodes are parted into rings.  A call keeps the order of the nodes that it does
not take out or put in.  `get` returns what was inserted with `put` in the order of the insertions: a `Queue` is what the
history of a program says of the ring of one node.
-/

namespace TdUtils

open Lib Rings

universe u

variable {N : Type u} [DecidableEq N]

namespace ListNode

variable {s s' : State N} {call : Call N} {answer : Option N} {l : List N} {r x : N}

/-- The pointers are inverse to each other, and the rings part the nodes. -/
structure Sound (s : State N) : Prop where
  next_mem : ∀ x ∈ s.nodes, s.heap.next x ∈ s.nodes
  prev_mem : ∀ x ∈ s.nodes, s.heap.prev x ∈ s.nodes
  prev_next : ∀ x ∈ s.nodes, s.heap.prev (s.heap.next x) = x
  next_prev : ∀ x ∈ s.nodes, s.heap.next (s.heap.prev x) = x
  partition : ∀ x ∈ s.nodes, ∃! c : Cycle N, s.heap.Rings c ∧ x ∈ c

omit [DecidableEq N] in
theorem Whole.sound (hs : Whole s) : Sound s := by
  refine ⟨fun x hx => ?_, fun x hx => ?_, fun x hx => ?_, fun x hx => ?_, fun x hx => ?_⟩ <;>
    obtain ⟨c, hc, hxc, hall⟩ := hs x hx
  · exact hall _ (hc.next_mem hxc)
  · exact hall _ (hc.prev_mem hxc)
  · exact hc.prev_next hxc
  · exact hc.next_prev hxc
  · exact ⟨c, ⟨hc, hxc⟩, fun c' h => h.1.eq_of_mem hc h.2 hxc⟩

theorem whole_start (memory : Heap N) (nodes : Finset N) : Whole (start memory nodes) := by
  intro x hx
  have hnodes : x ∈ nodes := hx
  refine ⟨([x] : List N), ringOf_singleton.mpr (by simp [start, hnodes]), by simp, fun b hb => ?_⟩
  have heq : b = x := by simpa using hb
  rwa [heq]

theorem whole_of_history {memory : Heap N} {nodes : Finset N} (events : List (Call N × Option N))
    (h : machine.History (start memory nodes) events s) : Whole s :=
  Machine.history_of_step (P := fun _ t => Whole t) (whole_start memory nodes)
    (fun _ _ _ _ _ ht hstep => (step_rearranged ht hstep).whole ht) events h

/-! ### What a call does not touch -/

theorem filter_place (call : Call N) (answer : Option N) (b : N) :
    (call.place answer b).filter (· ∉ call.touched answer) = [b].filter (· ∉ call.touched answer) := by
  cases call with
  | construct x => rfl
  | destroy x => by_cases hb : b = x <;> simp [Call.place, Call.touched, without, hb]
  | put y x =>
    by_cases hyx : y = x
    · simp [Call.place, hyx]
    · by_cases hb : b = x
      · simp [Call.place, Call.touched, putBehind, hyx, hb]
      · by_cases hby : b = y <;> simp [Call.place, Call.touched, putBehind, hyx, hb, hby]
  | putBack y x =>
    by_cases hyx : y = x
    · simp [Call.place, hyx]
    · by_cases hb : b = x
      · simp [Call.place, Call.touched, putBefore, hyx, hb]
      · by_cases hby : b = y <;> simp [Call.place, Call.touched, putBefore, hyx, hb, hby]
  | get x =>
    cases answer with
    | none => rfl
    | some result => by_cases hb : b = result <;> simp [Call.place, Call.touched, without, hb]
  | remove x => by_cases hb : b = x <;> simp [Call.place, Call.touched, without, hb]
  | moveConstruct x y =>
    by_cases hb : b = x
    · simp [Call.place, Call.touched, moved, hb]
    · by_cases hby : b = y <;> simp [Call.place, Call.touched, moved, hb, hby]
  | moveAssign x y =>
    by_cases hxy : x = y
    · simp [Call.place, hxy]
    · by_cases hb : b = x
      · simp [Call.place, Call.touched, moved, hxy, hb]
      · by_cases hby : b = y <;> simp [Call.place, Call.touched, moved, hxy, hb, hby]

theorem alone_touched (h : x ∈ call.alone answer) : x ∈ call.touched answer := by
  cases call with
  | get y => cases answer <;> simp_all [Call.alone, Call.touched]
  | moveAssign y z =>
    by_cases hyz : y = z <;> simp_all [Call.alone, Call.touched]
  | _ => simp_all [Call.alone, Call.touched]

theorem mem_place_iff {b : N} (hx : x ∉ call.touched answer) : x ∈ call.place answer b ↔ x = b := by
  have hfilter := filter_place call answer b
  have hmem : x ∈ (call.place answer b).filter (· ∉ call.touched answer) ↔ x ∈ call.place answer b := by
    simp [List.mem_filter, hx]
  rw [← hmem, hfilter]
  simp only [List.mem_filter, List.mem_singleton, and_iff_left_iff_imp]
  rintro rfl
  simpa using hx

/-- A node that is not touched stays. -/
theorem Rearranged.mem_iff (h : Rearranged s s' (call.place answer) (call.alone answer))
    (hx : x ∉ call.touched answer) : x ∈ s'.nodes ↔ x ∈ s.nodes := by
  rw [h.nodes]
  constructor
  · rintro (halone | ⟨b, hb, hplace⟩)
    · exact absurd (alone_touched halone) hx
    · rwa [(mem_place_iff hx).mp hplace]
  · exact fun hmem => .inr ⟨x, hmem, (mem_place_iff hx).mpr rfl⟩

/-- The other nodes of a ring keep their order. -/
theorem Rearranged.order (h : Rearranged s s' (call.place answer) (call.alone answer)) (hl : ∀ b ∈ l, b ∈ s.nodes)
    (hring : s.heap.Rings l) (hother : ∃ b ∈ l, b ∉ call.touched answer) : ∃ l' : List N, s'.heap.Rings l' ∧
      l'.filter (· ∉ call.touched answer) = l.filter (· ∉ call.touched answer) := by
  obtain ⟨b, hb, huntouched⟩ := hother
  have hmem : b ∈ l.flatMap (call.place answer) :=
    List.mem_flatMap.mpr ⟨b, hb, (mem_place_iff huntouched).mpr rfl⟩
  refine ⟨_, h.rings l hl hring (List.ne_nil_of_mem hmem), ?_⟩
  rw [List.filter_flatMap, List.flatMap_congr fun b _ => filter_place call answer b, ← List.filter_flatMap,
    List.flatMap_singleton']

/-! ### What waits for `get` -/

/-- What the history says of the ring of a node: which nodes were inserted with its `put` and are still there, in the
order of the calls and under the names they were moved to; and whether nothing else came in. -/
structure Queue (N : Type u) where
  inserted : List N
  plain : Bool

namespace Queue

def empty : Queue N := ⟨[], true⟩

/-- Each node is replaced by some nodes. -/
def map (q : Queue N) (place : N → List N) : Queue N := { q with inserted := q.inserted.flatMap place }

/-- Something comes in that was not inserted with `put`. -/
def mixed (q : Queue N) : Queue N := { q with plain := false }

/-- Something comes in next to `this`. -/
def beside (q : Queue N) (this : N) : Queue N := if this ∈ q.inserted then q.mixed else q

/-- What a call makes of the queues; a node that is moved hands over its queue. -/
def after (q : N → Queue N) (call : Call N) (answer : Option N) (r : N) : Queue N :=
  if r ∈ call.alone answer then empty
  else match call with
    | .destroy this => if r = this then empty else (q r).map (call.place answer)
    | .put this other =>
      if this = other then q r
      else if r = other then empty.mixed
      else if r = this then { q r with inserted := (q r).inserted ++ [other] }
      else (q r).beside this
    | .putBack this other =>
      if this = other then q r
      else if r = other then empty.mixed
      else if r = this then (q r).mixed
      else (q r).beside this
    | .moveConstruct this other => (if r = this then q other else q r).map (call.place answer)
    | .moveAssign this other =>
      if this = other then q r else (if r = this then q other else q r).map (call.place answer)
    | call => (q r).map (call.place answer)

end Queue

/-- The queue of each node after a program. -/
def queue (events : List (Call N × Option N)) : N → Queue N :=
  events.foldl (fun q event => Queue.after q event.1 event.2) fun _ => .empty

/-- The queue tells what is in the ring of `r`. -/
structure Waits (s : State N) (r : N) (q : Queue N) : Prop where
  absent : r ∉ s.nodes → q.inserted = []
  ring : r ∈ s.nodes → ∃ l : List N, (∀ b ∈ r :: l, b ∈ s.nodes) ∧ s.heap.Rings (r :: l : List N) ∧
    q.inserted.reverse.Sublist l ∧ (q.plain → q.inserted.reverse = l)

omit [DecidableEq N] in
theorem Whole.exists_ring (hs : Whole s) (hr : r ∈ s.nodes) :
    ∃ l : List N, (∀ b ∈ r :: l, b ∈ s.nodes) ∧ s.heap.Rings (r :: l : List N) := by
  obtain ⟨c, hc, hrc, hall⟩ := hs r hr
  obtain ⟨l, rfl⟩ := exists_eq_cons hrc
  exact ⟨l, hall, hc⟩

omit [DecidableEq N] in
/-- Nothing was inserted, but there may be other nodes. -/
theorem Whole.waits_mixed (hs : Whole s) (r : N) : Waits s r Queue.empty.mixed := by
  refine ⟨fun _ => rfl, fun hr => ?_⟩
  obtain ⟨l, hl, hring⟩ := hs.exists_ring hr
  exact ⟨l, hl, hring, List.nil_sublist l, fun h => absurd h (by simp [Queue.mixed])⟩

omit [DecidableEq N] in
theorem waits_empty (hring : r ∈ s.nodes → s.heap.Rings ([r] : List N)) : Waits s r .empty := by
  refine ⟨fun _ => rfl, fun hr => ⟨[], by simpa using hr, hring hr, List.nil_sublist [], fun _ => rfl⟩⟩

theorem waits_start (r : N) (memory : Heap N) (nodes : Finset N) : Waits (start memory nodes) r .empty := by
  refine waits_empty fun hr => ?_
  have hnodes : r ∈ nodes := hr
  exact ringOf_singleton.mpr (by simp [start, hnodes])

omit [DecidableEq N] in
theorem Waits.mixed {q : Queue N} (h : Waits s r q) : Waits s r q.mixed := by
  refine ⟨h.absent, fun hr => ?_⟩
  obtain ⟨l, hl, hring, hsub, -⟩ := h.ring hr
  exact ⟨l, hl, hring, hsub, fun h => absurd h (by simp [Queue.mixed])⟩

omit [DecidableEq N] in
/-- The node `b` is replaced by `r`, and each other node by one at most. -/
theorem Waits.map {q : Queue N} {place : N → List N} {lone : List N} {b : N} (h : Waits s b q)
    (hr : Rearranged s s' place lone) (hb : place b = [r]) (honly : r ∈ s'.nodes → b ∈ s.nodes)
    (hone : ∀ z, place z = [] ∨ ∃ a, place z = [a]) : Waits s' r (q.map place) := by
  have hreverse : (q.inserted.flatMap place).reverse = q.inserted.reverse.flatMap place := by
    rw [List.reverse_flatMap]
    refine List.flatMap_congr fun z _ => ?_
    rcases hone z with hz | ⟨a, hz⟩ <;> simp [hz]
  constructor
  · intro habsent
    have hbs : b ∉ s.nodes := fun hbs => habsent ((hr.nodes r).mpr (.inr ⟨b, hbs, by simp [hb]⟩))
    simp [Queue.map, h.absent hbs]
  · intro hmem
    obtain ⟨l, hl, hring, hsub, hplain⟩ := h.ring (honly hmem)
    have hflat : (b :: l).flatMap place = r :: l.flatMap place := by simp [hb]
    refine ⟨l.flatMap place, fun z hz => ?_, ?_, ?_, fun hq => ?_⟩
    · rw [← hflat] at hz
      obtain ⟨a, ha, hza⟩ := List.mem_flatMap.mp hz
      exact (hr.nodes z).mpr (.inr ⟨a, hl a ha, hza⟩)
    · rw [← hflat]
      exact hr.rings (b :: l) hl hring (by simp [hb])
    · simp only [Queue.map, hreverse]
      exact hsub.flatMap place
    · simp only [Queue.map, hreverse, hplain hq]

/-- The node `x`, which was alone, comes next to `y`, which is not `r`. -/
theorem Waits.beside {q : Queue N} {place : N → List N} {lone : List N} {y : N} (h : Waits s r q)
    (hr : Rearranged s s' place lone) (hnodes : s'.nodes = s.nodes) (halone : s.heap.next x = x) (hrx : r ≠ x)
    (hry : r ≠ y) (hsub : ∀ b, b ≠ x → [b].Sublist (place b)) (hpure : ∀ b, b ≠ x → b ≠ y → place b = [b]) :
    Waits s' r (q.beside y) := by
  have hinserted : (q.beside y).inserted = q.inserted := by
    unfold Queue.beside
    split_ifs <;> rfl
  constructor
  · rw [hinserted, hnodes]
    exact h.absent
  · rw [hinserted, hnodes]
    intro hmem
    obtain ⟨l, hl, hring, hwait, hplain⟩ := h.ring hmem
    have hxl : x ∉ r :: l := not_mem_of_alone halone hring fun heq => hrx (List.cons.inj heq).1
    have hne : ∀ b ∈ l, b ≠ x := fun b hb heq => hxl (heq ▸ List.mem_cons_of_mem r hb)
    have hflat : (r :: l).flatMap place = r :: l.flatMap place := by simp [hpure r hrx hry]
    refine ⟨l.flatMap place, fun z hz => ?_, ?_, ?_, fun hq => ?_⟩
    · rw [← hflat] at hz
      obtain ⟨a, ha, hza⟩ := List.mem_flatMap.mp hz
      rw [← hnodes]
      exact (hr.nodes z).mpr (.inr ⟨a, hl a ha, hza⟩)
    · rw [← hflat]
      exact hr.rings (r :: l) hl hring (by simp [hflat])
    · have hkept := List.Sublist.flatMap_right l fun b hb => hsub b (hne b hb)
      rw [List.flatMap_singleton'] at hkept
      exact hwait.trans hkept
    · unfold Queue.beside at hq
      split_ifs at hq with hy
      · simp [Queue.mixed] at hq
      · have hl := hplain hq
        rw [← List.mem_reverse, hl] at hy
        rw [hl, flatMap_pure fun b hb => hpure b (hne b hb) fun heq => hy (heq ▸ hb)]

/-- The node `x`, which was alone, is put behind `r`. -/
theorem Waits.put {q : Queue N} {lone : List N} (h : Waits s r q) (hr : Rearranged s s' (putBehind r x) lone)
    (hnodes : s'.nodes = s.nodes) (hmem : r ∈ s.nodes) (hx : x ∈ s.nodes) (halone : s.heap.next x = x) (hne : r ≠ x) :
    Waits s' r { q with inserted := q.inserted ++ [x] } := by
  refine ⟨fun habsent => absurd (hnodes ▸ hmem) habsent, fun _ => ?_⟩
  obtain ⟨l, hl, hring, hwait, hplain⟩ := h.ring hmem
  have hxl : x ∉ r :: l := not_mem_of_alone halone hring fun heq => hne (List.cons.inj heq).1
  have hrl : r ∉ l := hring.not_mem_tail
  have hflat : (r :: l).flatMap (putBehind r x) = r :: x :: l := by
    rw [List.flatMap_cons, flatMap_pure, putBehind, if_neg hne, if_pos rfl]
    · rfl
    · intro b hb
      have hbx : b ≠ x := fun heq => hxl (heq ▸ List.mem_cons_of_mem r hb)
      have hbr : b ≠ r := fun heq => hrl (heq ▸ hb)
      rw [putBehind, if_neg hbx, if_neg hbr]
  have hnew := hr.rings (r :: l) hl hring (by simp [hflat])
  rw [hflat] at hnew
  refine ⟨x :: l, ?_, hnew, ?_, fun hq => ?_⟩
  · rw [hnodes]
    simpa [hx] using hl
  · simpa using hwait
  · simp [hplain hq]

/-- The node `x`, which was alone, is put in front of `r`. -/
theorem Waits.putBack {q : Queue N} {lone : List N} (h : Waits s r q) (hr : Rearranged s s' (putBefore r x) lone)
    (hnodes : s'.nodes = s.nodes) (hmem : r ∈ s.nodes) (hx : x ∈ s.nodes) (halone : s.heap.next x = x) (hne : r ≠ x) :
    Waits s' r q.mixed := by
  refine ⟨fun habsent => absurd (hnodes ▸ hmem) habsent, fun _ => ?_⟩
  obtain ⟨l, hl, hring, hwait, -⟩ := h.ring hmem
  have hxl : x ∉ r :: l := not_mem_of_alone halone hring fun heq => hne (List.cons.inj heq).1
  have hrl : r ∉ l := hring.not_mem_tail
  have hflat : (r :: l).flatMap (putBefore r x) = [x] ++ r :: l := by
    rw [List.flatMap_cons, flatMap_pure, putBefore, if_neg hne, if_pos rfl]
    · rfl
    · intro b hb
      have hbx : b ≠ x := fun heq => hxl (heq ▸ List.mem_cons_of_mem r hb)
      have hbr : b ≠ r := fun heq => hrl (heq ▸ hb)
      rw [putBefore, if_neg hbx, if_neg hbr]
  have hnew := hr.rings (r :: l) hl hring (by simp [hflat])
  rw [hflat, coe_append] at hnew
  refine ⟨l ++ [x], ?_, hnew, ?_, fun hq => absurd hq (by simp [Queue.mixed])⟩
  · rw [hnodes]
    simpa [hx, or_imp, forall_and] using hl
  · exact hwait.trans (List.sublist_append_left l [x])

theorem without_or (x b : N) : without x b = [] ∨ ∃ a, without x b = [a] := by
  unfold without
  split_ifs <;> simp

theorem moved_or (x y b : N) : moved x y b = [] ∨ ∃ a, moved x y b = [a] := by
  unfold moved
  split_ifs <;> simp

theorem sublist_putBehind {y b : N} (hb : b ≠ x) : [b].Sublist (putBehind y x b) := by
  rw [putBehind, if_neg hb]
  split_ifs with hby <;> simp [hby]

theorem sublist_putBefore {y b : N} (hb : b ≠ x) : [b].Sublist (putBefore y x b) := by
  rw [putBefore, if_neg hb]
  split_ifs with hby <;> simp [hby]

theorem Waits.moved {q : N → Queue N} {lone : List N} {y : N} (h : ∀ r, Waits s r (q r))
    (hr : Rearranged s s' (moved x y) lone) (hrl : r ∉ lone) (hry : r ≠ y) :
    Waits s' r ((if r = x then q y else q r).map (ListNode.moved x y)) := by
  have honly : r ∈ s'.nodes → ∃ b ∈ s.nodes, r ∈ ListNode.moved x y b := fun hmem =>
    ((hr.nodes r).mp hmem).resolve_left hrl
  split_ifs with hrx
  · subst hrx
    refine (h y).map hr ?_ (fun hmem => ?_) (moved_or r y)
    · rw [ListNode.moved, if_neg hry.symm, if_pos rfl]
    · obtain ⟨b, hb, hplace⟩ := honly hmem
      obtain ⟨hbr, ⟨rfl, -⟩ | ⟨-, rfl⟩⟩ := mem_moved.mp hplace
      · exact hb
      · exact absurd rfl hbr
  · refine (h r).map hr ?_ (fun hmem => ?_) (moved_or x y)
    · rw [ListNode.moved, if_neg hrx, if_neg hry]
    · obtain ⟨b, hb, hplace⟩ := honly hmem
      obtain ⟨-, ⟨-, rfl⟩ | ⟨-, rfl⟩⟩ := mem_moved.mp hplace
      · exact absurd rfl hrx
      · exact hb

/-- **Each call** changes the queues as it says. -/
theorem Waits.after {q : N → Queue N} (h : ∀ r, Waits s r (q r)) (hs : Whole s)
    (hstep : step s call = some (s', answer)) (r : N) : Waits s' r (Queue.after q call answer r) := by
  have hr := step_rearranged hs hstep
  have hs' := hr.whole hs
  have hkept : ∀ b, call.place answer b = [b] → b ∉ call.touched answer →
      (∀ z, call.place answer z = [] ∨ ∃ a, call.place answer z = [a]) → Waits s' b ((q b).map (call.place answer)) :=
    fun b hb htouched hone => (h b).map hr hb (hr.mem_iff htouched).mp hone
  unfold Queue.after
  by_cases halone : r ∈ call.alone answer
  · rw [if_pos halone]
    exact waits_empty fun _ => hr.alone r halone
  rw [if_neg halone]
  cases call with
  | construct this => exact hkept r rfl halone fun z => .inr ⟨z, rfl⟩
  | destroy this =>
    simp only
    split_ifs with hrt
    · refine waits_empty fun hmem => ?_
      obtain ⟨b, -, hplace⟩ := ((hr.nodes r).mp hmem).resolve_left halone
      obtain ⟨rfl, hne⟩ := mem_without.mp hplace
      exact absurd hrt hne
    · exact hkept r (if_neg hrt) (by simpa [Call.touched] using hrt) (without_or this)
  | put this other =>
    obtain ⟨hthis, hother, hempty, rfl, rfl⟩ := step_put hstep
    simp only
    split_ifs with hself hro hrt
    · subst hself
      rw [hs.put_self hthis hempty]
      exact h r
    · exact hs'.waits_mixed r
    · subst hrt
      exact (h r).put (hs.put hthis hother hempty hself) rfl hthis hother hempty hself
    · refine (h r).beside (hs.put hthis hother hempty hself) rfl hempty hro hrt (fun b => sublist_putBehind)
        fun b hb hbt => ?_
      rw [putBehind, if_neg hb, if_neg hbt]
  | putBack this other =>
    obtain ⟨hthis, hother, hempty, rfl, rfl⟩ := step_putBack hstep
    simp only
    split_ifs with hself hro hrt
    · subst hself
      rw [hs.putBack_self hthis hempty]
      exact h r
    · exact hs'.waits_mixed r
    · subst hrt
      rw [hs.putBack_eq hthis hempty hself]
      exact (h r).putBack (hs.putBack hthis hother hempty hself) rfl hthis hother hempty hself
    · rw [hs.putBack_eq hthis hempty hself]
      refine (h r).beside (hs.putBack hthis hother hempty hself) rfl hempty hro hrt (fun b => sublist_putBefore)
        fun b hb hbt => ?_
      rw [putBefore, if_neg hb, if_neg hbt]
  | get this =>
    cases answer with
    | none => exact hkept r rfl (by simp [Call.touched]) fun z => .inr ⟨z, rfl⟩
    | some result =>
      have hrr : r ≠ result := by simpa [Call.alone] using halone
      exact hkept r (if_neg hrr) (by simpa [Call.touched] using hrr) (without_or result)
  | remove this =>
    have hrt : r ≠ this := by simpa [Call.alone] using halone
    exact hkept r (if_neg hrt) (by simpa [Call.touched] using hrt) (without_or this)
  | moveConstruct this other =>
    have hro : r ≠ other := by simpa [Call.alone] using halone
    exact Waits.moved h hr halone hro
  | moveAssign this other =>
    by_cases hself : this = other
    · have hplace : (Call.moveAssign this other).place answer = fun b => [b] := funext fun b => if_pos hself
      simp only [if_pos hself]
      have hmap := hkept r (congrFun hplace r) (by simp [Call.touched, hself]) fun z => .inr ⟨z, congrFun hplace z⟩
      rw [hplace] at hmap
      simpa [Queue.map] using hmap
    · have hplace : (Call.moveAssign this other).place answer = ListNode.moved this other :=
        funext fun b => if_neg hself
      have hro : r ≠ other := by simpa [Call.alone, hself] using halone
      simp only [if_neg hself, hplace]
      rw [hplace] at hr
      exact Waits.moved h hr halone hro

theorem waits_of_history {memory : Heap N} {nodes : Finset N} (events : List (Call N × Option N))
    (h : machine.History (start memory nodes) events s) (r : N) : Waits s r (queue events r) := by
  have hrun := Machine.history_of_step (P := fun events t => Whole t ∧ ∀ r, Waits t r (queue events r))
    ⟨whole_start memory nodes, fun r => waits_start r memory nodes⟩ (fun events t call u answer ht hstep => ?_) events h
  · exact hrun.2 r
  · refine ⟨(step_rearranged ht.1 hstep).whole ht.1, fun r => ?_⟩
    unfold queue
    rw [List.foldl_append]
    exact Waits.after ht.2 ht.1 hstep r

/-- The answer of `get` is in the order of the insertions. -/
theorem Waits.get {q : Queue N} (h : Waits s x q) (hs : Whole s) (hstep : step s (.get x) = some (s', answer)) :
    (q.plain → answer = q.inserted.head?) ∧ (answer = none → q.inserted = []) ∧
      ∀ result ∈ answer, result ∈ q.inserted → q.inserted.head? = some result := by
  obtain ⟨hx, hget⟩ := hs.step_get hstep
  obtain ⟨l, -, hring, hwait, hplain⟩ := h.ring hx
  rcases hget with ⟨halone, -, rfl⟩ | ⟨hne, -, rfl⟩
  · have hnil : q.inserted = [] := by
      obtain rfl : l = [] := by
        by_contra hl
        exact hring.prev_ne hl halone
      exact List.reverse_eq_nil_iff.mp (List.sublist_nil.mp hwait)
    simp [hnil]
  · have hl : l ≠ [] := by
      rintro rfl
      exact hne (ringOf_singleton.mp hring).2
    obtain ⟨m, rfl, hlast⟩ := hring.exists_concat hl
    rw [← List.reverse_sublist, List.reverse_reverse, List.reverse_append, List.reverse_singleton,
      List.singleton_append] at hwait
    refine ⟨fun hq => ?_, by simp, fun result hresult hmem => ?_⟩
    · rw [← List.reverse_reverse q.inserted, hplain hq]
      simp
    · obtain rfl := Option.some.inj hresult
      obtain ⟨a, t, ht⟩ := List.exists_cons_of_ne_nil (List.ne_nil_of_mem hmem)
      rw [ht] at hmem hwait ⊢
      rcases List.cons_sublist_cons'.mp hwait with hrest | ⟨rfl, -⟩
      · exact absurd (List.mem_reverse.mp (hrest.subset hmem)) hlast
      · rfl

/-- What a call does to the rings, after the given calls. -/
structure Called (events : List (Call N × Option N)) (s : State N) (call : Call N) (answer : Option N) (s' : State N) :
    Prop where
  rearranged : Rearranged s s' (call.place answer) (call.alone answer)
  self : ∀ this, call = .moveAssign this this → s' = s
  moved : ∀ this other l, call = .moveConstruct this other ∨ call = .moveAssign this other → this ≠ other →
    (∀ b ∈ other :: l, b ∈ s.nodes) → s.heap.Rings (other :: l : List N) →
    s'.heap.Rings (this :: l.filter (· ≠ this) : List N) ∧ s'.heap.Rings ([other] : List N)
  order : ∀ l : List N, (∀ b ∈ l, b ∈ s.nodes) → s.heap.Rings l → (∃ b ∈ l, b ∉ call.touched answer) →
    ∃ l' : List N, s'.heap.Rings l' ∧ l'.filter (· ∉ call.touched answer) = l.filter (· ∉ call.touched answer)
  fifo : ∀ x, call = .get x → (let q := queue events x
    (q.plain → answer = q.inserted.head?) ∧ (answer = none → q.inserted = []) ∧
      ∀ result ∈ answer, result ∈ q.inserted → q.inserted.head? = some result)

theorem flatMap_moved_eq_filter {y : N} (hy : y ∉ l) : l.flatMap (moved x y) = l.filter (· ≠ x) := by
  induction l with
  | nil => rfl
  | cons b l ih =>
    have hby : b ≠ y := fun heq => hy (heq ▸ List.mem_cons_self)
    rw [List.flatMap_cons, ih (List.not_mem_of_not_mem_cons hy)]
    by_cases hbx : b = x <;> simp [moved, hbx, hby]

/-- The node `x` comes where `y` was. -/
theorem Rearranged.moved {lone : List N} {y : N} (h : Rearranged s s' (moved x y) lone) (hne : x ≠ y)
    (hl : ∀ b ∈ y :: l, b ∈ s.nodes) (hring : s.heap.Rings (y :: l : List N)) :
    s'.heap.Rings (x :: l.filter (· ≠ x) : List N) := by
  have hyl : y ∉ l := hring.not_mem_tail
  have hflat : (y :: l).flatMap (ListNode.moved x y) = x :: l.filter (· ≠ x) := by
    rw [List.flatMap_cons, flatMap_moved_eq_filter hyl, ListNode.moved, if_neg hne.symm, if_pos rfl]
    rfl
  have hnew := h.rings (y :: l) hl hring (by simp [hflat])
  rwa [hflat] at hnew

/-- **In every program** the rings part the nodes, a moved node has the place of the one it was moved from, the others
keep their order, and `get` returns what was inserted with `put` in that order. -/
theorem runs_sound (memory : Heap N) (nodes : Finset N) (events : List (Call N × Option N))
    (h : machine.History (start memory nodes) events s) : Sound s ∧ ∀ call answer s',
      step s call = some (s', answer) → Sound s' ∧ Called events s call answer s' := by
  have hs := whole_of_history events h
  refine ⟨hs.sound, fun call answer s' hstep => ?_⟩
  have hr := step_rearranged hs hstep
  refine ⟨(hr.whole hs).sound, hr, ?_, ?_, fun l hl hring hother => hr.order hl hring hother, ?_⟩
  · rintro x rfl
    obtain ⟨-, heq⟩ := Option.ite_none_right_eq_some.mp hstep
    obtain ⟨rfl, -⟩ := Prod.mk.inj (Option.some.inj heq)
    have hheap : s.heap.moveAssign x x = s.heap := if_pos rfl
    rw [hheap]
  · rintro x y l (rfl | rfl) hne hl hring
    · exact ⟨hr.moved hne hl hring, hr.alone y (by simp [Call.alone])⟩
    · have hplace : (Call.moveAssign x y).place answer = moved x y := funext fun b => if_neg hne
      have hone := hr.alone y (by simp [Call.alone, hne])
      rw [hplace] at hr
      exact ⟨hr.moved hne hl hring, hone⟩
  · rintro x rfl
    exact (waits_of_history events h x).get hs hstep

/-- A queue of two nodes, which is moved before the first of them is taken out. -/
theorem runs_sound_two : let events := [(.put 0 1, none), (.put 0 2, none), (.moveConstruct 3 0, none)]
    ∃ s s' : State ℕ, machine.History (start ⟨id, id⟩ {0, 1, 2}) events s ∧ step s (.get 3) = some (s', some 1) ∧
      Sound s ∧ Called events s (.get 3) (some 1) s' := by
  intro events
  have hruns : ∃ s s' : State ℕ, machine.History (start ⟨id, id⟩ {0, 1, 2}) events s ∧
      step s (.get 3) = some (s', some 1) := by
    exact ⟨_, _, rfl, rfl⟩
  obtain ⟨s, s', h, hstep⟩ := hruns
  obtain ⟨hs, hcalled⟩ := runs_sound _ _ events h
  exact ⟨s, s', h, hstep, hs, (hcalled _ _ _ hstep).2⟩

end ListNode

end TdUtils
