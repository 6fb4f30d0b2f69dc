import TdUtils.Concurrent.HazardSafety
import TdUtils.Concurrent.MpmcQueue

/-!
# Concurrent.MpmcQueueNodes — nobody accesses a node that was deleted

The linked nodes are a chain, and neither of the two pointers goes back in it.  A node is retired when both are behind
it, so that the hazard pointers keep it while some thread holds it.
-/

namespace TdUtils

/-! ### The hazard pointers -/

namespace HazardPointers

variable {n m : ℕ} {π ν : Type} {events : List (Event n m π ν)}

theorem once_concat (h : Once events) {event : Event n m π ν} (hevent : ∀ ptr, ptr ∈ events.filterMap Event.retired →
    event.retired ≠ some ptr ∧ event.linked ≠ some ptr) : Once (events ++ [event]) := by
  refine List.pairwise_append.mpr ⟨h, List.pairwise_singleton _ _, fun earlier hearlier later hlater ptr hptr => ?_⟩
  rw [List.mem_singleton.mp hlater]
  exact hevent ptr (List.mem_filterMap.mpr ⟨earlier, hearlier, hptr⟩)

theorem retired_concat (events : List (Event n m π ν)) (event : Event n m π ν) :
    (events ++ [event]).filterMap Event.retired = events.filterMap Event.retired ++ event.retired.toList := by
  rw [List.filterMap_append]
  cases hretired : event.retired <;> simp [hretired]

/-- Pointers that are set before anything else happens. -/
theorem inv_shared (shared : π → Option ν) : Inv ({ shared := shared } : HazardPointers n m π ν) [] [] where
  slots := fun _ _ _ hheld => by cases hheld
  place := fun _ => trivial
  unlinked := fun _ _ hptr => by cases hptr
  waiting := Lib.Waiting.start

end HazardPointers

namespace MpmcQueue

open HazardPointers (holds holds_concat)

variable {n : ℕ} {α : Type} {s t : MpmcQueue n α} {events : List (HazardPointers.Event n 1 Pointer ℕ)}
  {answers : List (HazardPointers.Answer n 1 ℕ)} {nodes nodes' : List (Node α)} {chain : List ℕ} {r w a b c k : ℕ}
  {i j : Fin n} {value : α}

/-! ### The invariant -/

structure ChainOk (nodes : List (Node α)) (chain : List ℕ) : Prop where
  nodup : chain.Nodup
  next : ∀ (k a : ℕ), chain[k]? = some a → ∃ node : Node α, nodes[a]? = some node ∧ node.next = chain[k + 1]?

/-- `b` is linked behind `a`. -/
def Linked (chain : List ℕ) (a b : ℕ) : Prop := ∃ k, chain[k]? = some a ∧ chain[k + 1]? = some b

/-- All cells of the node were claimed by readers. -/
def Drained (nodes : List (Node α)) (a : ℕ) : Prop := ∀ node : Node α, nodes[a]? = some node → blockSize ≤ node.readPos

/-- `a` is before the node at `read_pos_`. -/
def Behind (chain : List ℕ) (r a : ℕ) : Prop := ∃ k, k < r ∧ chain[k]? = some a

/-- The node that only this thread deals with: one that is not linked yet, or not retired yet. -/
def Place.owns : Place α → Option ℕ
  | .link _ b _ | .unprotect b | .retire b => some b
  | _ => none

def PlaceOk (nodes : List (Node α)) (chain retired : List ℕ) (r : ℕ) : Place α → Prop
  | .link _ b value => b ∉ chain ∧ nodes[b]? = some (newNode value)
  | .publish a b | .help a b _ => Linked chain a b
  | .nextRead a => Drained nodes a ∧ a ∈ chain
  | .moveRead a b => Drained nodes a ∧ Linked chain a b
  | .unprotect a | .retire a => Behind chain r a ∧ a ∉ retired
  | _ => True

/-- `r` and `w` are where the two pointers are in the chain. -/
structure Safe (s : MpmcQueue n α) (events : List (HazardPointers.Event n 1 Pointer ℕ))
    (answers : List (HazardPointers.Answer n 1 ℕ)) (chain : List ℕ) (r w : ℕ) : Prop where
  hazards : HazardPointers.Inv s.hazardPointers events answers
  once : HazardPointers.Once events
  ok : ChainOk s.nodes chain
  writePos : s.hazardPointers.shared .writePos = chain[w]?
  readPos : s.hazardPointers.shared .readPos = chain[r]?
  le : r ≤ w
  lt : w < chain.length
  retired : ∀ a, a ∈ events.filterMap HazardPointers.Event.retired → Behind chain r a
  held : ∀ i a, holds answers i 0 = some a → a ∈ chain ∧ a ∉ s.deleted
  deleted : ∀ a, a ∈ s.deleted → a < s.nodes.length ∧ (a ∈ chain → Behind chain r a)
  drained : ∀ a, Behind chain r a → Drained s.nodes a
  sync : ∀ i, InStep (s.hazardPointers.place i) (s.place i)
  holding : ∀ i a, (s.place i).node = some a → holds answers i 0 = some a
  place : ∀ i, PlaceOk s.nodes chain (events.filterMap HazardPointers.Event.retired) r (s.place i)
  apart : ∀ i j a, (s.place i).owns = some a → (s.place j).owns = some a → i = j
  new : ∀ i c b value, s.place i = .link c b value → b ∉ s.deleted

/-! ### The chain -/

theorem ChainOk.index (h : ChainOk nodes chain) {j : ℕ} (hk : chain[k]? = some a) (hj : chain[j]? = some a) : k = j := by
  obtain ⟨hk, hak⟩ := List.getElem?_eq_some_iff.mp hk
  obtain ⟨hj, haj⟩ := List.getElem?_eq_some_iff.mp hj
  exact (List.Nodup.getElem_inj_iff h.nodup).mp (hak.trans haj.symm)

theorem ChainOk.not_behind (h : ChainOk nodes chain) (hk : chain[k]? = some a) (hle : r ≤ k) : ¬Behind chain r a := by
  rintro ⟨j, hj, ha⟩
  have heq := h.index hk ha
  omega

theorem ChainOk.lt_length (h : ChainOk nodes chain) (ha : a ∈ chain) : a < nodes.length := by
  obtain ⟨k, hk⟩ := List.mem_iff_getElem?.mp ha
  obtain ⟨node, hnode, -⟩ := h.next k a hk
  exact (List.getElem?_eq_some_iff.mp hnode).1

theorem Behind.mem (h : Behind chain r a) : a ∈ chain := by
  obtain ⟨k, -, hk⟩ := h
  exact List.mem_of_getElem? hk

theorem Behind.mono {r' : ℕ} (h : Behind chain r a) (hle : r ≤ r') : Behind chain r' a := by
  obtain ⟨k, hk, ha⟩ := h
  exact ⟨k, Nat.lt_of_lt_of_le hk hle, ha⟩

/-- What the two pointers point to is not behind them. -/
theorem Safe.shared_not_behind (h : Safe s events answers chain r w) {ptr : Pointer}
    (hptr : s.hazardPointers.shared ptr = some a) : a ∈ chain ∧ ¬Behind chain r a := by
  cases ptr with
  | writePos =>
    have hat := h.writePos.symm.trans hptr
    exact ⟨List.mem_of_getElem? hat, h.ok.not_behind hat h.le⟩
  | readPos =>
    have hat := h.readPos.symm.trans hptr
    exact ⟨List.mem_of_getElem? hat, h.ok.not_behind hat (Nat.le_refl r)⟩

/-- The pointers point to nodes. -/
theorem Safe.exists_shared (h : Safe s events answers chain r w) (ptr : Pointer) :
    ∃ a, s.hazardPointers.shared ptr = some a := by
  cases ptr with
  | writePos => exact ⟨_, h.writePos.trans (List.getElem?_eq_getElem h.lt)⟩
  | readPos => exact ⟨_, h.readPos.trans (List.getElem?_eq_getElem (Nat.lt_of_le_of_lt h.le h.lt))⟩

/-- The access of a thread to the node that it holds. -/
theorem Safe.access (h : Safe s events answers chain r w) (ha : (s.place i).node = some a) :
    ∃ node, s.node a = some node ∧ s.nodes[a]? = some node ∧ a ∈ chain := by
  obtain ⟨hmem, hdeleted⟩ := h.held i a (h.holding i a ha)
  obtain ⟨k, hk⟩ := List.mem_iff_getElem?.mp hmem
  obtain ⟨node, hnode, -⟩ := h.ok.next k a hk
  refine ⟨node, ?_, hnode, hmem⟩
  unfold MpmcQueue.node
  rw [if_neg hdeleted]
  exact hnode

/-! ### A step that leaves the chain and the hazard pointers -/

theorem InStep.idle {place : Place α} {at_ : HazardPointers.Place n 1 Pointer ℕ} (h : InStep at_ place)
    (hprotect : ∀ call, place ≠ .protecting call) (hscan : ∀ popping, place ≠ .scan popping) : at_ = .idle := by
  cases place with
  | protecting call => exact absurd rfl (hprotect call)
  | scan popping => exact absurd rfl (hscan popping)
  | _ => exact h

/-- Nodes get further, and those that are not linked stay as they are. -/
structure Grows (chain : List ℕ) (nodes nodes' : List (Node α)) : Prop where
  further : ∀ (a : ℕ) (node : Node α), nodes[a]? = some node →
    ∃ node' : Node α, nodes'[a]? = some node' ∧ node'.next = node.next ∧ node.readPos ≤ node'.readPos
  same : ∀ (a : ℕ) (node : Node α), a ∉ chain → nodes[a]? = some node → nodes'[a]? = some node

theorem Grows.refl (chain : List ℕ) (nodes : List (Node α)) : Grows chain nodes nodes :=
  ⟨fun _ node h => ⟨node, h, rfl, Nat.le_refl _⟩, fun _ _ _ h => h⟩

theorem Grows.set {node node' : Node α} (ha : a ∈ chain) (hnode : nodes[a]? = some node)
    (hnext : node'.next = node.next) (hle : node.readPos ≤ node'.readPos) : Grows chain nodes (nodes.set a node') := by
  refine ⟨fun c other hc => ?_, fun c other hne hc => ?_⟩
  · by_cases heq : a = c
    · subst heq
      obtain rfl := Option.some.inj (hnode.symm.trans hc)
      exact ⟨node', List.getElem?_set_self (List.getElem?_eq_some_iff.mp hc).1, hnext, hle⟩
    · exact ⟨other, (List.getElem?_set_ne heq).trans hc, rfl, Nat.le_refl _⟩
  · rw [List.getElem?_set_ne fun heq : a = c => hne (heq ▸ ha)]
    exact hc

theorem Grows.alloc (chain : List ℕ) (nodes : List (Node α)) (new : Node α) : Grows chain nodes (nodes ++ [new]) := by
  have hold : ∀ (a : ℕ) (node : Node α), nodes[a]? = some node → (nodes ++ [new])[a]? = some node := by
    intro a node ha
    rw [List.getElem?_append_left (List.getElem?_eq_some_iff.mp ha).1]
    exact ha
  exact ⟨fun a node ha => ⟨node, hold a node ha, rfl, Nat.le_refl _⟩, fun a node _ ha => hold a node ha⟩

theorem Grows.lt_length (h : Grows chain nodes nodes') (ha : a < nodes.length) : a < nodes'.length := by
  obtain ⟨node', hnode', -⟩ := h.further a _ (List.getElem?_eq_getElem ha)
  exact (List.getElem?_eq_some_iff.mp hnode').1

theorem Drained.grows (hgrows : Grows chain nodes nodes') (ha : a < nodes.length) (h : Drained nodes a) :
    Drained nodes' a := by
  intro node' hnode'
  obtain ⟨other, hother, -, hle⟩ := hgrows.further a _ (List.getElem?_eq_getElem ha)
  obtain rfl := Option.some.inj (hnode'.symm.trans hother)
  exact Nat.le_trans (h _ (List.getElem?_eq_getElem ha)) hle

theorem ChainOk.grows (hgrows : Grows chain nodes nodes') (h : ChainOk nodes chain) : ChainOk nodes' chain := by
  refine ⟨h.nodup, fun k a hk => ?_⟩
  obtain ⟨node, hnode, hnext⟩ := h.next k a hk
  obtain ⟨node', hnode', hnext', -⟩ := hgrows.further a node hnode
  exact ⟨node', hnode', hnext'.trans hnext⟩

theorem Linked.mem (h : Linked chain a b) : a ∈ chain ∧ b ∈ chain := by
  obtain ⟨k, ha, hb⟩ := h
  exact ⟨List.mem_of_getElem? ha, List.mem_of_getElem? hb⟩

theorem PlaceOk.grows (hgrows : Grows chain nodes nodes') (hok : ChainOk nodes chain) {retired : List ℕ}
    {place : Place α} (h : PlaceOk nodes chain retired r place) : PlaceOk nodes' chain retired r place := by
  cases place with
  | link a b value => exact ⟨h.1, hgrows.same b _ h.1 h.2⟩
  | nextRead a => exact ⟨h.1.grows hgrows (hok.lt_length h.2), h.2⟩
  | moveRead a b => exact ⟨h.1.grows hgrows (hok.lt_length h.2.mem.1), h.2⟩
  | _ => exact h

/-- A thread goes to another place, and the nodes get further. -/
theorem Safe.turn (h : Safe s events answers chain r w) (i : Fin n) (place : Place α)
    (hgrows : Grows chain s.nodes nodes') (hsync : InStep (s.hazardPointers.place i) place)
    (hnode : ∀ a, place.node = some a → holds answers i 0 = some a)
    (hplace : PlaceOk nodes' chain (events.filterMap HazardPointers.Event.retired) r place)
    (howns : ∀ a, place.owns = some a → ∀ j, j ≠ i → (s.place j).owns ≠ some a)
    (hnew : ∀ c b value, place = .link c b value → b ∉ s.deleted) :
    Safe ({ s with nodes := nodes' }.goes i place) events answers chain r w := by
  have hat : ∀ j, j ≠ i → ({ s with nodes := nodes' }.goes i place).place j = s.place j :=
    fun j hj => Function.update_of_ne hj _ _
  have hself : ({ s with nodes := nodes' }.goes i place).place i = place := Function.update_self _ _ _
  refine ⟨h.hazards, h.once, h.ok.grows hgrows, h.writePos, h.readPos, h.le, h.lt, h.retired, h.held,
    fun a ha => ⟨hgrows.lt_length (h.deleted a ha).1, (h.deleted a ha).2⟩,
    fun a ha => (h.drained a ha).grows hgrows (h.ok.lt_length ha.mem), fun j => ?_, fun j a ha => ?_, fun j => ?_,
    fun j k a hj hk => ?_, fun j c b value hj => ?_⟩
  · by_cases hj : j = i
    · rw [hj, hself]
      exact hsync
    · rw [hat j hj]
      exact h.sync j
  · by_cases hj : j = i
    · rw [hj, hself] at ha
      exact hj ▸ hnode a ha
    · rw [hat j hj] at ha
      exact h.holding j a ha
  · by_cases hj : j = i
    · rw [hj, hself]
      exact hplace
    · rw [hat j hj]
      exact (h.place j).grows hgrows h.ok
  · by_cases hji : j = i
    · by_cases hki : k = i
      · exact hji.trans hki.symm
      · rw [hji, hself] at hj
        rw [hat k hki] at hk
        exact absurd hk (howns a hj k hki)
    · by_cases hki : k = i
      · rw [hki, hself] at hk
        rw [hat j hji] at hj
        exact absurd hj (howns a hk j hji)
      · rw [hat j hji] at hj
        rw [hat k hki] at hk
        exact h.apart j k a hj hk
  · by_cases hji : j = i
    · rw [hji, hself] at hj
      exact hnew c b value hj
    · rw [hat j hji] at hj
      exact h.new j c b value hj

/-- The thread does not get hold of a node that others must not know. -/
theorem Safe.moves (h : Safe s events answers chain r w) (i : Fin n) (place : Place α)
    (hgrows : Grows chain s.nodes nodes') (hidle : s.hazardPointers.place i = .idle)
    (hsync : InStep (n := n) .idle place) (hnode : ∀ a, place.node = some a → holds answers i 0 = some a)
    (hplace : PlaceOk nodes' chain (events.filterMap HazardPointers.Event.retired) r place) (howns : place.owns = none) :
    Safe ({ s with nodes := nodes' }.goes i place) events answers chain r w := by
  refine h.turn i place hgrows (hidle ▸ hsync) hnode hplace (fun a ha => ?_) fun c b value hlink => ?_
  · rw [howns] at ha
    cases ha
  · rw [hlink] at howns
    cases howns

/-! ### A step of the hazard pointers -/

theorem PlaceOk.retire {retired retired' : List ℕ} {place : Place α} (h : PlaceOk nodes chain retired r place)
    (hretired : ∀ a, place.owns = some a → a ∈ retired' → a ∈ retired) : PlaceOk nodes chain retired' r place := by
  cases place with
  | unprotect a => exact ⟨h.1, fun ha => h.2 (hretired a rfl ha)⟩
  | retire a => exact ⟨h.1, fun ha => h.2 (hretired a rfl ha)⟩
  | _ => exact h

/-- A thread makes a step in the hazard pointers that links nothing. -/
theorem Safe.hazard (h : Safe s events answers chain r w) (i : Fin n) (place : Place α)
    {event : HazardPointers.Event n 1 Pointer ℕ} {answer : HazardPointers.Answer n 1 ℕ}
    {hazardPointers : HazardPointers n 1 Pointer ℕ}
    (hstep : s.hazardPointers.step event = (hazardPointers, answer)) (hlinked : event.linked = none)
    (hshared : hazardPointers.shared = s.hazardPointers.shared)
    (hplaces : ∀ j, j ≠ i → hazardPointers.place j = s.hazardPointers.place j)
    (hanswer : ∀ j, j ≠ i → ∀ held, answer.holds j 0 held = held)
    (hheld : ∀ a, answer.holds i 0 (holds answers i 0) = some a → a ∈ chain ∧ a ∉ s.deleted)
    (hretired : ∀ a, event.retired = some a → s.place i = .retire a)
    (hsync : InStep (hazardPointers.place i) place)
    (hnode : ∀ a, place.node = some a → answer.holds i 0 (holds answers i 0) = some a)
    (hplace : PlaceOk s.nodes chain ((events ++ [event]).filterMap HazardPointers.Event.retired) r place)
    (howns : ∀ a, place.owns = some a → (s.place i).owns = some a) (hnew : ∀ c b value, place ≠ .link c b value) :
    Safe ({ s with hazardPointers := hazardPointers }.goes i place) (events ++ [event]) (answers ++ [answer]) chain r w := by
  have hat : ∀ j, j ≠ i → ({ s with hazardPointers := hazardPointers }.goes i place).place j = s.place j :=
    fun j hj => Function.update_of_ne hj _ _
  have hself : ({ s with hazardPointers := hazardPointers }.goes i place).place i = place := Function.update_self _ _ _
  have hretire : ∀ a, event.retired = some a →
      Behind chain r a ∧ a ∉ events.filterMap HazardPointers.Event.retired := by
    intro a ha
    have hok := h.place i
    rw [hretired a ha] at hok
    exact hok
  have hconcat := HazardPointers.retired_concat events event
  have honce : HazardPointers.Once (events ++ [event]) := by
    refine HazardPointers.once_concat h.once fun ptr hptr => ⟨fun hevent => (hretire ptr hevent).2 hptr, ?_⟩
    rw [hlinked]
    exact fun heq => by cases heq
  have hunlinked : HazardPointers.Unlinked s.hazardPointers event :=
    fun a ha ptr hptr => (h.shared_not_behind hptr).2 (hretire a ha).1
  have hinv := (h.hazards.step honce hunlinked).1
  rw [hstep] at hinv
  have hholds : ∀ j a, holds (answers ++ [answer]) j 0 = some a → j = i ∨ holds answers j 0 = some a := by
    intro j a ha
    by_cases hj : j = i
    · exact .inl hj
    · rw [holds_concat, hanswer j hj] at ha
      exact .inr ha
  refine ⟨hinv, honce, h.ok, ?_, ?_, h.le, h.lt, fun a ha => ?_, fun j a ha => ?_, h.deleted, h.drained, fun j => ?_,
    fun j a ha => ?_, fun j => ?_, fun j k a hj hk => ?_, fun j c b value hj => ?_⟩
  · exact (congrFun hshared _).trans h.writePos
  · exact (congrFun hshared _).trans h.readPos
  · rw [hconcat, List.mem_append, Option.mem_toList] at ha
    rcases ha with ha | ha
    · exact h.retired a ha
    · exact (hretire a ha).1
  · rcases hholds j a ha with rfl | hold
    · rw [holds_concat] at ha
      exact hheld a ha
    · exact h.held j a hold
  · by_cases hj : j = i
    · rw [hj, hself]
      exact hsync
    · rw [hat j hj]
      have hold := h.sync j
      rw [← hplaces j hj] at hold
      exact hold
  · by_cases hj : j = i
    · rw [hj, hself] at ha
      rw [hj, holds_concat]
      exact hnode a ha
    · rw [hat j hj] at ha
      rw [holds_concat, hanswer j hj]
      exact h.holding j a ha
  · by_cases hj : j = i
    · rw [hj, hself]
      exact hplace
    · rw [hat j hj]
      refine (h.place j).retire fun a hown ha => ?_
      rw [hconcat, List.mem_append, Option.mem_toList] at ha
      rcases ha with ha | ha
      · exact ha
      · have hi : (s.place i).owns = some a := by
          rw [hretired a ha]
          rfl
        exact absurd (h.apart j i a hown hi) hj
  · have hold : ∀ j, (({ s with hazardPointers := hazardPointers }.goes i place).place j).owns = some a →
        (s.place j).owns = some a := by
      intro j hj
      by_cases hji : j = i
      · rw [hji, hself] at hj
        exact hji ▸ howns a hj
      · rwa [hat j hji] at hj
    exact h.apart j k a (hold j hj) (hold k hk)
  · by_cases hji : j = i
    · rw [hji, hself] at hj
      exact absurd hj (hnew c b value)
    · rw [hat j hji] at hj
      exact h.new j c b value hj

theorem retired_concat_none {event : HazardPointers.Event n 1 Pointer ℕ} (hevent : event.retired = none) :
    (events ++ [event]).filterMap HazardPointers.Event.retired = events.filterMap HazardPointers.Event.retired := by
  rw [HazardPointers.retired_concat, hevent]
  exact List.append_nil _

/-- A node that was retired and that nobody holds is deleted. -/
theorem Safe.delete (h : Safe s events answers chain r w) (ha : a ∈ events.filterMap HazardPointers.Event.retired)
    (hfree : ∀ i, holds answers i 0 ≠ some a) : Safe (s.delete a) events answers chain r w := by
  have hbehind := h.retired a ha
  refine ⟨h.hazards, h.once, h.ok, h.writePos, h.readPos, h.le, h.lt, h.retired, fun i b hb => ?_, fun b hb => ?_,
    h.drained, h.sync, h.holding, h.place, h.apart, fun i c b value hlink hb => ?_⟩
  · refine ⟨(h.held i b hb).1, fun hmem => ?_⟩
    rcases List.mem_cons.mp hmem with rfl | hmem
    · exact hfree i hb
    · exact (h.held i b hb).2 hmem
  · rcases List.mem_cons.mp hb with rfl | hb
    · exact ⟨h.ok.lt_length hbehind.mem, fun _ => hbehind⟩
    · exact h.deleted b hb
  · rcases List.mem_cons.mp hb with rfl | hb
    · have hok := h.place i
      have hlink : s.place i = .link c b value := hlink
      rw [hlink] at hok
      exact hok.1 hbehind.mem
    · exact h.new i c b value hlink hb

/-- A step of the thread itself: what it may hold after it. -/
theorem holds_other {answer : HazardPointers.Answer n 1 ℕ} (hanswer : answer = .nothing ∨ (∃ a, answer = .obtained i 0 a) ∨
    answer = .overwrote i 0 ∨ answer = .cleared i 0 ∨ ∃ a, answer = .deleted a) (hj : j ≠ i) (held : Option ℕ) :
    answer.holds j 0 held = held := by
  rcases hanswer with rfl | ⟨a, rfl⟩ | rfl | rfl | ⟨a, rfl⟩
  · rfl
  · exact if_neg fun h => hj h.1.symm
  · exact if_neg fun h => hj h.1.symm
  · exact if_neg fun h => hj h.1.symm
  · rfl

/-! ### `protect`, `clear` and `retire` -/

/-- After a step the nodes are as the hazard pointers need them, with more of their history and of the chain. -/
def Kept (chain : List ℕ) (t : MpmcQueue n α) : Prop :=
  ∃ events answers chain' r w, Safe t events answers chain' r w ∧ chain <+: chain'

theorem Safe.kept (h : Safe s events answers chain r w) : Kept chain s :=
  ⟨events, answers, chain, r, w, h, List.prefix_refl chain⟩

theorem goes_self (s : MpmcQueue n α) (i : Fin n) : s.goes i (s.place i) = s := by
  unfold goes
  rw [Function.update_eq_self]

/-- The thread stays at its place. -/
theorem Safe.stays (h : Safe s events answers chain r w) (i : Fin n) {event : HazardPointers.Event n 1 Pointer ℕ}
    {answer : HazardPointers.Answer n 1 ℕ} {hazardPointers : HazardPointers n 1 Pointer ℕ}
    (hstep : s.hazardPointers.step event = (hazardPointers, answer)) (hlinked : event.linked = none)
    (hevent : event.retired = none) (hshared : hazardPointers.shared = s.hazardPointers.shared)
    (hplaces : ∀ j, j ≠ i → hazardPointers.place j = s.hazardPointers.place j)
    (hanswer : ∀ j, j ≠ i → ∀ held, answer.holds j 0 held = held)
    (hheld : ∀ a, answer.holds i 0 (holds answers i 0) = some a → a ∈ chain ∧ a ∉ s.deleted)
    (hsync : InStep (hazardPointers.place i) (s.place i)) (hnode : (s.place i).node = none)
    (hnew : ∀ c b value, s.place i ≠ .link c b value) :
    Safe { s with hazardPointers := hazardPointers } (events ++ [event]) (answers ++ [answer]) chain r w := by
  have hturn := h.hazard i (s.place i) hstep hlinked hshared hplaces hanswer hheld (fun a ha => by rw [hevent] at ha; cases ha) hsync
    (fun a ha => by rw [hnode] at ha; cases ha) (by rw [retired_concat_none hevent]; exact h.place i) (fun a ha => ha) hnew
  have hself : ({ s with hazardPointers := hazardPointers } : MpmcQueue n α).goes i (s.place i) =
    { s with hazardPointers := hazardPointers } := goes_self _ i
  rwa [hself] at hturn

theorem Safe.protect (h : Safe s events answers chain r w) {call : Call α} (hat : s.place i = .protect call) :
    Kept chain ((s.hazard (.protect i 0 call.pointer)).1.goes i (.protecting call)) := by
  have hidle : s.hazardPointers.place i = .idle := by
    have hsync := h.sync i
    rw [hat] at hsync
    exact hsync
  have hstep : s.hazardPointers.step (.protect i 0 call.pointer) =
      (s.hazardPointers.goes i (.load 0 call.pointer none), .nothing) := by
    dsimp only [HazardPointers.step]
    rw [hidle]
  unfold MpmcQueue.hazard
  rw [hstep]
  exact (h.hazard i (.protecting call) hstep rfl rfl (fun j hj => Function.update_of_ne hj _ _) (fun j hj => holds_other (.inl rfl) hj)
    (h.held i) (fun a ha => by cases ha) (Or.inl ⟨none, Function.update_self _ _ _⟩) (fun a ha => by cases ha) trivial
    (fun a ha => by cases ha) fun _ _ _ heq => by cases heq).kept

theorem Call.first_node (call : Call α) (a : ℕ) : (call.first a).node = some a := by
  cases call <;> rfl

theorem Call.first_ok (call : Call α) (a : ℕ) (nodes : List (Node α)) (chain retired : List ℕ) (r : ℕ) :
    PlaceOk nodes chain retired r (call.first a) ∧ (call.first a).owns = none ∧
      InStep (n := n) .idle (call.first a) := by
  cases call with
  | push value => exact ⟨trivial, rfl, rfl⟩
  | pop => exact ⟨trivial, rfl, rfl⟩

/-- The pointer is read and published, and read again. -/
theorem Safe.protectStep (h : Safe s events answers chain r w) {call : Call α} (hat : s.place i = .protecting call) :
    Kept chain (s.protectStep i call) := by
  have hsync := h.sync i
  rw [hat] at hsync
  obtain ⟨linked, hlinked⟩ := h.exists_shared call.pointer
  unfold MpmcQueue.protectStep MpmcQueue.hazard
  rcases hsync with ⟨saved, hplace⟩ | ⟨toSave, hplace⟩
  · by_cases hsaved : s.hazardPointers.shared call.pointer = saved
    · obtain rfl : some linked = saved := hlinked.symm.trans hsaved
      have hstep : s.hazardPointers.step (.thread i) = (s.hazardPointers.goes i .idle, .obtained i 0 linked) := by
        dsimp only [HazardPointers.step, HazardPointers.threadStep]
        rw [hplace]
        exact if_pos hsaved
      obtain ⟨hmem, hbehind⟩ := h.shared_not_behind hlinked
      obtain ⟨hok, howns, hidle⟩ := call.first_ok (n := n) linked s.nodes chain
        ((events ++ [HazardPointers.Event.thread i]).filterMap HazardPointers.Event.retired) r
      rw [hstep]
      dsimp only
      have hself : (HazardPointers.Answer.obtained i (0 : Fin 1) linked).holds i 0 (holds answers i 0) = some linked :=
        if_pos ⟨rfl, rfl⟩
      refine (h.hazard i (call.first linked) hstep rfl rfl (fun j hj => Function.update_of_ne hj _ _)
        (fun j hj => holds_other (.inr (.inl ⟨linked, rfl⟩)) hj) (fun a ha => ?_) (fun a ha => by cases ha) ?_
        (fun a ha => ?_) hok (fun a ha => ?_) fun c b value heq => ?_).kept
      · rw [hself] at ha
        obtain rfl := Option.some.inj ha
        exact ⟨hmem, fun hdeleted => hbehind ((h.deleted _ hdeleted).2 hmem)⟩
      · show InStep (Function.update s.hazardPointers.place i .idle i) _
        rw [Function.update_self]
        exact hidle
      · rw [call.first_node] at ha
        rw [hself]
        exact ha
      · rw [howns] at ha
        cases ha
      · rw [heq] at howns
        cases howns
    · have hstep : s.hazardPointers.step (.thread i) =
          (s.hazardPointers.goes i (.store 0 call.pointer (s.hazardPointers.shared call.pointer)), .nothing) := by
        dsimp only [HazardPointers.step, HazardPointers.threadStep]
        rw [hplace]
        exact if_neg hsaved
      rw [hstep]
      dsimp only
      refine (h.stays i hstep rfl rfl rfl (fun j hj => Function.update_of_ne hj _ _) (fun j hj => holds_other (.inl rfl) hj)
        (h.held i) ?_ (by rw [hat]; rfl) (by rw [hat]; exact fun _ _ _ heq => by cases heq)).kept
      rw [hat]
      exact Or.inr ⟨_, Function.update_self _ _ _⟩
  · have hstep : s.hazardPointers.step (.thread i) =
        ((s.hazardPointers.setHazard i 0 toSave).goes i (.load 0 call.pointer toSave), .overwrote i 0) := by
      dsimp only [HazardPointers.step, HazardPointers.threadStep]
      rw [hplace]
    have hnone : (HazardPointers.Answer.overwrote i (0 : Fin 1) : HazardPointers.Answer n 1 ℕ).holds i 0
        (holds answers i 0) = none := if_pos ⟨rfl, rfl⟩
    rw [hstep]
    dsimp only
    refine (h.stays i hstep rfl rfl rfl (fun j hj => Function.update_of_ne hj _ _)
      (fun j hj => holds_other (.inr (.inr (.inl rfl))) hj) (fun a ha => ?_) ?_ (by rw [hat]; rfl)
      (by rw [hat]; exact fun _ _ _ heq => by cases heq)).kept
    · rw [hnone] at ha
      cases ha
    · rw [hat]
      exact Or.inl ⟨_, Function.update_self _ _ _⟩

end MpmcQueue

end TdUtils
