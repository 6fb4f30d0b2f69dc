import TdUtils.Concurrent.MpmcQueueNodes

/-!
# Concurrent.MpmcQueueRuns — no value is lost, and none is delivered twice

While `read_pos_` leaves no node that `write_pos_` still points to, every access of every run is to a node that is there, and
each value that was pushed is in the hands of its pusher, in a cell that a reader has claimed or will claim, or was delivered.
-/

namespace TdUtils

namespace MpmcQueue

open HazardPointers (holds holds_concat)

variable {n : ℕ} {α : Type} {s t : MpmcQueue n α} {events : List (HazardPointers.Event n 1 Pointer ℕ)}
  {answers : List (HazardPointers.Answer n 1 ℕ)} {nodes nodes' : List (Node α)} {chain : List ℕ} {r w a b c k : ℕ}
  {i j : Fin n} {value : α} {node : Node α}

/-! ### `clear`, `retire` and its scan -/

theorem Safe.hazards_idle (h : Safe s events answers chain r w) (hprotect : ∀ call, s.place i ≠ .protecting call)
    (hscan : ∀ popping, s.place i ≠ .scan popping) : s.hazardPointers.place i = .idle :=
  (h.sync i).idle hprotect hscan

theorem Safe.clear (h : Safe s events answers chain r w) {place : Place α}
    (hplace : (s.place i = .leave ∧ place = .idle) ∨ ∃ a, s.place i = .unprotect a ∧ place = .retire a) :
    Kept chain ((s.hazard (.clear i 0)).1.goes i place) := by
  have hidle : s.hazardPointers.place i = .idle := by
    rcases hplace with ⟨hat, -⟩ | ⟨a, hat, -⟩
    · exact h.hazards_idle (by rw [hat]; nofun) (by rw [hat]; nofun)
    · exact h.hazards_idle (by rw [hat]; nofun) (by rw [hat]; nofun)
  have hstep : s.hazardPointers.step (.clear i 0) = (s.hazardPointers.setHazard i 0 none, .cleared i 0) := by
    dsimp only [HazardPointers.step]
    rw [hidle]
  have hnone : (HazardPointers.Answer.cleared i (0 : Fin 1) : HazardPointers.Answer n 1 ℕ).holds i 0 (holds answers i 0) =
    none := if_pos ⟨rfl, rfl⟩
  unfold MpmcQueue.hazard
  rw [hstep]
  refine (h.hazard i place hstep rfl rfl (fun _ _ => rfl) (fun j hj => holds_other (.inr (.inr (.inr (.inl rfl)))) hj)
    (fun a ha => ?_) (fun a ha => nomatch ha) ?_ (fun a ha => ?_) ?_ (fun a ha => ?_) fun c b value heq => ?_).kept
  · rw [hnone] at ha
    cases ha
  · have hidle' : (s.hazardPointers.setHazard i 0 none).place i = .idle := hidle
    rcases hplace with ⟨-, rfl⟩ | ⟨a, -, rfl⟩
    · exact hidle'
    · exact hidle'
  · rcases hplace with ⟨-, rfl⟩ | ⟨a', -, rfl⟩
    · cases ha
    · cases ha
  · rcases hplace with ⟨-, rfl⟩ | ⟨a, hat, rfl⟩
    · trivial
    · rw [retired_concat_none rfl]
      have hok := h.place i
      rw [hat] at hok
      exact hok
  · rcases hplace with ⟨-, rfl⟩ | ⟨a', hat, rfl⟩
    · cases ha
    · rw [hat]
      exact ha
  · rcases hplace with ⟨-, rfl⟩ | ⟨a, -, rfl⟩
    · cases heq
    · cases heq

theorem Safe.retire (h : Safe s events answers chain r w) {ptr : Option ℕ} {popping : Bool}
    (hplace : (s.place i = .idle ∧ ptr = none) ∨ ∃ a, s.place i = .retire a ∧ ptr = some a) :
    Kept chain ((s.hazard (.retire i ptr)).1.goes i (.scan popping)) := by
  have hidle : s.hazardPointers.place i = .idle := by
    rcases hplace with ⟨hat, -⟩ | ⟨a, hat, -⟩
    · exact h.hazards_idle (by rw [hat]; nofun) (by rw [hat]; nofun)
    · exact h.hazards_idle (by rw [hat]; nofun) (by rw [hat]; nofun)
  have hstep : s.hazardPointers.step (.retire i ptr) = (s.hazardPointers.retire i ptr, .nothing) := by
    dsimp only [HazardPointers.step]
    rw [hidle]
  unfold MpmcQueue.hazard
  rw [hstep]
  refine (h.hazard i (.scan popping) hstep rfl rfl (fun j hj => Function.update_of_ne hj _ _)
    (fun j hj => holds_other (.inl rfl) hj) (h.held i) (fun a ha => ?_) ⟨0, _, Function.update_self _ _ _⟩
    (fun a ha => nomatch ha) trivial (fun a ha => nomatch ha) nofun).kept
  rcases hplace with ⟨-, rfl⟩ | ⟨a', hat, rfl⟩
  · cases ha
  · rw [hat, Option.some.inj ha]

theorem Safe.scan_stays (h : Safe s events answers chain r w) {popping : Bool} (hat : s.place i = .scan popping)
    {it : ℕ} {slots : List (Fin n × Fin 1)} {hazardPointers : HazardPointers n 1 Pointer ℕ}
    {answer : HazardPointers.Answer n 1 ℕ} (hanswer : answer = .nothing ∨ ∃ a, answer = .deleted a)
    (hstep : s.hazardPointers.step (.thread i) = (hazardPointers.goes i (.scan it slots), answer))
    (hshared : hazardPointers.shared = s.hazardPointers.shared) (hplaces : hazardPointers.place = s.hazardPointers.place) :
    Safe { s with hazardPointers := hazardPointers.goes i (.scan it slots) } (events ++ [.thread i]) (answers ++ [answer])
      chain r w := by
  have hholds : ∀ j held, answer.holds j 0 held = held := by
    rcases hanswer with rfl | ⟨a, rfl⟩
    · exact fun _ _ => rfl
    · exact fun _ _ => rfl
  refine h.stays i hstep rfl rfl hshared (fun j hj => (Function.update_of_ne hj _ _).trans (congrFun hplaces j))
    (fun j _ held => hholds j held) (fun a ha => h.held i a ((hholds i _).symm.trans ha)) ?_ (by rw [hat]; rfl)
    (by rw [hat]; nofun)
  rw [hat]
  exact ⟨it, slots, Function.update_self _ _ _⟩

/-- One slot is read, a node is deleted, or `retire` returns. -/
theorem Safe.scanStep (h : Safe s events answers chain r w) {popping : Bool} (hat : s.place i = .scan popping) :
    Kept chain (s.scanStep i popping) := by
  have hsync := h.sync i
  rw [hat] at hsync
  obtain ⟨it, slots, hplace⟩ := hsync
  have hturn : s.hazardPointers.step (.thread i) = s.hazardPointers.scan i it slots := by
    dsimp only [HazardPointers.step, HazardPointers.threadStep]
    rw [hplace]
  have hspec := h.hazards.scan hplace (.thread i)
  unfold MpmcQueue.scanStep MpmcQueue.hazard
  cases hdelete : (s.hazardPointers.toDelete i)[it]? with
  | none =>
    have hstep : s.hazardPointers.step (.thread i) = (s.hazardPointers.goes i .idle, .nothing) := by
      rw [hturn]
      unfold HazardPointers.scan
      rw [hdelete]
    have hself : (s.hazardPointers.goes i .idle).place i = .idle := Function.update_self _ _ _
    rw [hstep]
    dsimp only
    rw [hself]
    refine (h.hazard i _ hstep rfl rfl (fun j hj => Function.update_of_ne hj _ _) (fun j hj => holds_other (.inl rfl) hj)
      (h.held i) nofun ?_ ?_ ?_ ?_ ?_).kept
    · rw [hself]
      cases popping with
      | true => exact rfl
      | false => exact rfl
    · cases popping with
      | true => exact nofun
      | false => exact nofun
    · cases popping with
      | true => exact trivial
      | false => exact trivial
    · cases popping with
      | true => exact nofun
      | false => exact nofun
    · cases popping with
      | true => exact nofun
      | false => exact nofun
  | some ptr =>
    cases slots with
    | nil =>
      have hscan : s.hazardPointers.scan i it [] =
          ((s.hazardPointers.setToDelete i ((s.hazardPointers.toDelete i).eraseIdx it)).goes i
            (.scan it (HazardPointers.allSlots n 1)), .deleted ptr) := by
        unfold HazardPointers.scan
        rw [hdelete]
      have hstep := hturn.trans hscan
      rw [hscan] at hspec
      have hsafe := h.scan_stays hat (.inr ⟨ptr, rfl⟩) hstep rfl rfl
      rw [hstep]
      dsimp only
      refine (hsafe.delete ?_ fun j hj => ?_).kept
      · refine hspec.1.waiting.origin ptr (.inr ?_)
        rw [HazardPointers.deletes_concat]
        exact List.mem_append_right _ List.mem_cons_self
      · rw [holds_concat] at hj
        exact hspec.2 ptr rfl j 0 hj
    | cons slot slots =>
      by_cases hprotected : s.hazardPointers.hazard slot.1 slot.2 = some ptr
      · have hstep : s.hazardPointers.step (.thread i) =
            (s.hazardPointers.goes i (.scan (it + 1) (HazardPointers.allSlots n 1)), .nothing) := by
          rw [hturn]
          unfold HazardPointers.scan
          rw [hdelete]
          exact if_pos hprotected
        rw [hstep]
        dsimp only
        rw [show (s.hazardPointers.goes i (.scan (it + 1) (HazardPointers.allSlots n 1))).place i = _ from
          Function.update_self _ _ _]
        exact (h.scan_stays hat (.inl rfl) hstep rfl rfl).kept
      · have hstep : s.hazardPointers.step (.thread i) = (s.hazardPointers.goes i (.scan it slots), .nothing) := by
          rw [hturn]
          unfold HazardPointers.scan
          rw [hdelete]
          exact if_neg hprotected
        rw [hstep]
        dsimp only
        rw [show (s.hazardPointers.goes i (.scan it slots)).place i = _ from Function.update_self _ _ _]
        exact (h.scan_stays hat (.inl rfl) hstep rfl rfl).kept

/-! ### The two pointers -/

theorem PlaceOk.mono {retired : List ℕ} {place : Place α} {r' : ℕ} (h : PlaceOk nodes chain retired r place) (hle : r ≤ r') :
    PlaceOk nodes chain retired r' place := by
  cases place with
  | unprotect a => exact ⟨h.1.mono hle, h.2⟩
  | retire a => exact ⟨h.1.mono hle, h.2⟩
  | _ => exact h

/-- A pointer goes on in the chain. -/
theorem Safe.exchange (h : Safe s events answers chain r w) (i : Fin n) (place : Place α) {ptr : Pointer} {r' w' : ℕ}
    (hwrite : Function.update s.hazardPointers.shared ptr (some b) .writePos = chain[w']?)
    (hread : Function.update s.hazardPointers.shared ptr (some b) .readPos = chain[r']?)
    (hr : r ≤ r') (hle : r' ≤ w') (hlt : w' < chain.length) (hdrained : ∀ a, Behind chain r' a → Drained s.nodes a)
    (hb : ¬ Behind chain r b) (hsync : InStep (s.hazardPointers.place i) place) (hnode : place.node = none)
    (hplace : PlaceOk s.nodes chain (events.filterMap HazardPointers.Event.retired) r' place)
    (howns : ∀ a, place.owns = some a → ∀ j, j ≠ i → (s.place j).owns ≠ some a)
    (hnew : ∀ c b value, place ≠ .link c b value) :
    Safe ((s.hazard (.exchange ptr (some b))).1.goes i place) (events ++ [.exchange ptr (some b)]) (answers ++ [.nothing])
      chain r' w' := by
  have hself : ((s.hazard (.exchange ptr (some b))).1.goes i place).place i = place := Function.update_self _ _ _
  have hat : ∀ j, j ≠ i → ((s.hazard (.exchange ptr (some b))).1.goes i place).place j = s.place j :=
    fun j hj => Function.update_of_ne hj _ _
  have hretired : (events ++ [HazardPointers.Event.exchange ptr (some b)]).filterMap HazardPointers.Event.retired =
      events.filterMap HazardPointers.Event.retired := retired_concat_none rfl
  have hholds : ∀ j, holds (answers ++ [.nothing]) j 0 = holds answers j 0 := fun j => holds_concat _ _ _
  have honce : HazardPointers.Once (events ++ [.exchange ptr (some b)]) := by
    refine HazardPointers.once_concat h.once fun a ha => ⟨nofun, fun heq => hb ?_⟩
    rw [Option.some.inj heq]
    exact h.retired a ha
  have hinv := (h.hazards.step honce fun a ha => nomatch ha).1
  refine ⟨hinv, honce, h.ok, hwrite, hread, hle, hlt, fun a ha => ?_, fun j a ha => ?_, fun a ha => ?_, hdrained,
    fun j => ?_, fun j a ha => ?_, fun j => ?_, fun j k a hj hk => ?_, fun j c b value hj => ?_⟩
  · rw [hretired] at ha
    exact (h.retired a ha).mono hr
  · exact h.held j a ((hholds j).symm.trans ha)
  · exact ⟨(h.deleted a ha).1, fun hmem => ((h.deleted a ha).2 hmem).mono hr⟩
  · by_cases hj : j = i
    · rw [hj, hself]
      exact hsync
    · rw [hat j hj]
      exact h.sync j
  · by_cases hj : j = i
    · rw [hj, hself, hnode] at ha
      cases ha
    · rw [hat j hj] at ha
      exact (hholds j).trans (h.holding j a ha)
  · rw [hretired]
    by_cases hj : j = i
    · rw [hj, hself]
      exact hplace
    · rw [hat j hj]
      exact (h.place j).mono hr
  · by_cases hji : j = i
    · by_cases hki : k = i
      · exact hji.trans hki.symm
      · rw [hji, hself] at hj
        rw [hat k hki] at hk
        exact absurd hk (howns a hj k hki)
    · by_cases hki : k = i
      · rw [hki, hself] at hk
        rw [hat j hji] at hj
        exact absurd hj (howns a hk j hji)
      · rw [hat j hji] at hj
        rw [hat k hki] at hk
        exact h.apart j k a hj hk
  · by_cases hji : j = i
    · rw [hji, hself] at hj
      exact absurd hj (hnew c b value)
    · rw [hat j hji] at hj
      exact h.new j c b value hj

/-- A thread that does nothing else goes to another place. -/
theorem Safe.passes (h : Safe s events answers chain r w) (i : Fin n) (place : Place α)
    (hidle : s.hazardPointers.place i = .idle) (hsync : InStep (n := n) .idle place) (hnode : place.node = none)
    (hplace : PlaceOk s.nodes chain (events.filterMap HazardPointers.Event.retired) r place) (howns : place.owns = none) :
    Safe (s.goes i place) events answers chain r w :=
  h.moves i place (.refl chain s.nodes) hidle hsync (fun a ha => by rw [hnode] at ha; cases ha) hplace howns

/-- `write_pos_` goes on to the next node, or another thread has moved it. -/
theorem Safe.moveWrite (h : Safe s events answers chain r w) (i : Fin n) (place : Place α) (hlinked : Linked chain a b)
    (hidle : s.hazardPointers.place i = .idle) (hsync : InStep (n := n) .idle place) (hnode : place.node = none)
    (hplace : PlaceOk s.nodes chain (events.filterMap HazardPointers.Event.retired) r place) (howns : place.owns = none) :
    Kept chain ((s.compareExchange .writePos a b).1.goes i place) := by
  unfold compareExchange
  split_ifs with hptr
  · obtain ⟨k, hk, hnext⟩ := hlinked
    obtain rfl := h.ok.index hk (h.writePos.symm.trans hptr)
    have hlt : k + 1 < chain.length := (List.getElem?_eq_some_iff.mp hnext).1
    have hle := h.le
    refine (h.exchange i place ((Function.update_self _ _ _).trans hnext.symm)
      ((Function.update_of_ne (by decide) _ _).trans h.readPos) (Nat.le_refl r) (by omega) hlt h.drained
      (h.ok.not_behind hnext (by omega)) (hidle ▸ hsync) hnode hplace (fun a ha => ?_) fun c b value heq => ?_).kept
    · rw [howns] at ha
      cases ha
    · rw [heq] at howns
      cases howns
  · exact (h.passes i place hidle hsync hnode hplace howns).kept

/-- `read_pos_` goes on to the next node when `write_pos_` is not there any more, and the node is to be retired. -/
theorem Safe.moveRead (h : Safe s events answers chain r w) (hat : s.place i = .moveRead a b)
    (hptr : s.hazardPointers.shared .readPos = some a) (hadvanced : s.hazardPointers.shared .writePos ≠ some a) :
    Kept chain ((s.hazard (.exchange .readPos (some b))).1.goes i (.unprotect a)) := by
  have hidle := h.hazards_idle (i := i) (by rw [hat]; nofun) (by rw [hat]; nofun)
  have hplace := h.place i
  rw [hat] at hplace
  obtain ⟨hdrained, k, hk, hnext⟩ := hplace
  obtain rfl := h.ok.index hk (h.readPos.symm.trans hptr)
  have hle := h.le
  have hlt := h.lt
  have hne : k ≠ w := fun heq => hadvanced (h.writePos.trans (heq ▸ hk))
  refine (h.exchange i (.unprotect a) ((Function.update_of_ne (by decide) _ _).trans h.writePos)
    ((Function.update_self _ _ _).trans hnext.symm) (Nat.le_succ k) (by omega) h.lt ?_ (h.ok.not_behind hnext (Nat.le_succ k))
    hidle rfl ⟨⟨k, Nat.lt_succ_self k, hk⟩, fun hretired => ?_⟩ ?_ nofun).kept
  · rintro c ⟨j, hj, hc⟩
    rcases Nat.lt_succ_iff_lt_or_eq.mp hj with hlt | rfl
    · exact h.drained c ⟨j, hlt, hc⟩
    · rwa [Option.some.inj (hc.symm.trans hk)]
  · exact h.ok.not_behind hk (Nat.le_refl k) (h.retired a hretired)
  · intro c hc j _ howns
    obtain rfl := Option.some.inj hc
    have hother := h.place j
    cases hj : s.place j with
    | link d e value =>
      rw [hj] at hother howns
      obtain rfl := Option.some.inj howns
      exact hother.1 (List.mem_of_getElem? hk)
    | unprotect d =>
      rw [hj] at hother howns
      obtain rfl := Option.some.inj howns
      exact h.ok.not_behind hk (Nat.le_refl k) hother.1
    | retire d =>
      rw [hj] at hother howns
      obtain rfl := Option.some.inj howns
      exact h.ok.not_behind hk (Nat.le_refl k) hother.1
    | _ =>
      rw [hj] at howns
      cases howns

/-! ### The nodes -/

theorem behind_concat (hr : r ≤ chain.length) : Behind (chain ++ [b]) r a ↔ Behind chain r a := by
  constructor
  · rintro ⟨k, hk, ha⟩
    rw [List.getElem?_append_left (by omega)] at ha
    exact ⟨k, hk, ha⟩
  · rintro ⟨k, hk, ha⟩
    exact ⟨k, hk, by rw [List.getElem?_append_left (by omega)]; exact ha⟩

theorem Linked.concat (h : Linked chain a c) : Linked (chain ++ [b]) a c := by
  obtain ⟨k, ha, hc⟩ := h
  have hk := (List.getElem?_eq_some_iff.mp ha).1
  have hk' := (List.getElem?_eq_some_iff.mp hc).1
  exact ⟨k, by rw [List.getElem?_append_left hk]; exact ha, by rw [List.getElem?_append_left hk']; exact hc⟩

/-- The last node gets a next one. -/
theorem ChainOk.link (h : ChainOk nodes chain) (hk : chain[k]? = some a) (hnode : nodes[a]? = some node)
    (hlast : node.next = none) (hb : b ∉ chain) (hnew : ∃ new : Node α, nodes[b]? = some new ∧ new.next = none) :
    ChainOk (nodes.set a { node with next := some b }) (chain ++ [b]) := by
  obtain ⟨new, hbnode, hbnext⟩ := hnew
  have hlen : k + 1 = chain.length := by
    obtain ⟨node', hnode', hnext⟩ := h.next k a hk
    obtain rfl := Option.some.inj (hnode.symm.trans hnode')
    have hle := List.getElem?_eq_none_iff.mp (hnext.symm.trans hlast)
    have hlt := (List.getElem?_eq_some_iff.mp hk).1
    omega
  have hne : a ≠ b := fun heq => hb (heq ▸ List.mem_of_getElem? hk)
  refine ⟨List.nodup_append.mpr ⟨h.nodup, List.nodup_singleton b, fun c hc d hd heq => ?_⟩, fun j c hj => ?_⟩
  · rw [List.mem_singleton.mp hd] at heq
    exact hb (heq ▸ hc)
  · rcases Nat.lt_or_ge j chain.length with hlt | hge
    · rw [List.getElem?_append_left hlt] at hj
      by_cases hc : a = c
      · subst hc
        obtain rfl := h.index hk hj
        refine ⟨_, List.getElem?_set_self (List.getElem?_eq_some_iff.mp hnode).1, ?_⟩
        rw [List.getElem?_append_right (by omega), hlen, Nat.sub_self]
        rfl
      · obtain ⟨other, hother, hnext⟩ := h.next j c hj
        have hlt' : j + 1 < chain.length := by
          refine lt_of_le_of_ne hlt fun heq => hc ?_
          have hjk : j = k := by omega
          subst hjk
          exact Option.some.inj (hk.symm.trans hj)
        exact ⟨other, (List.getElem?_set_ne hc).trans hother, by rw [List.getElem?_append_left hlt']; exact hnext⟩
    · have hj' : j = chain.length := by
        have hlt := (List.getElem?_eq_some_iff.mp hj).1
        rw [List.length_append, List.length_singleton] at hlt
        omega
      subst hj'
      rw [List.getElem?_append_right (Nat.le_refl _), Nat.sub_self] at hj
      obtain rfl : b = c := Option.some.inj hj
      refine ⟨new, (List.getElem?_set_ne hne).trans hbnode, hbnext.trans ?_⟩
      rw [eq_comm, List.getElem?_eq_none_iff, List.length_append, List.length_singleton]

/-- The new node is linked. -/
theorem Safe.link (h : Safe s events answers chain r w) (hat : s.place i = .link a b value) (hnode : s.nodes[a]? = some node)
    (hlast : node.next = none) :
    Kept chain ((s.setNode a { node with next := some b }).goes i (.publish a b)) := by
  have hplace := h.place i
  rw [hat] at hplace
  obtain ⟨hb, hbnode⟩ := hplace
  obtain ⟨-, -, -, ha⟩ := h.access (i := i) (a := a) (by rw [hat]; rfl)
  obtain ⟨k, hk⟩ := List.mem_iff_getElem?.mp ha
  have hne : a ≠ b := fun heq => hb (heq ▸ ha)
  have hr : r ≤ chain.length := (Nat.lt_of_le_of_lt h.le h.lt).le
  have hchain := h.ok.link hk hnode hlast hb ⟨_, hbnode, rfl⟩
  have hklen : k + 1 = chain.length := by
    obtain ⟨node', hnode', hnext⟩ := h.ok.next k a hk
    obtain rfl := Option.some.inj (hnode.symm.trans hnode')
    have hle := List.getElem?_eq_none_iff.mp (hnext.symm.trans hlast)
    have hlt := (List.getElem?_eq_some_iff.mp hk).1
    omega
  have hself : ((s.setNode a { node with next := some b }).goes i (.publish a b)).place i = .publish a b :=
    Function.update_self _ _ _
  have hother : ∀ j, j ≠ i → ((s.setNode a { node with next := some b }).goes i (.publish a b)).place j = s.place j :=
    fun j hj => Function.update_of_ne hj _ _
  have hdrained : ∀ {c}, Drained s.nodes c → Drained (s.nodes.set a { node with next := some b }) c := by
    intro c hc node' hnode'
    by_cases heq : a = c
    · subst heq
      rw [List.getElem?_set_self (List.getElem?_eq_some_iff.mp hnode).1] at hnode'
      rw [← Option.some.inj hnode']
      exact hc node hnode
    · rw [List.getElem?_set_ne heq] at hnode'
      exact hc node' hnode'
  have hsafe : Safe ((s.setNode a { node with next := some b }).goes i (.publish a b)) events answers (chain ++ [b]) r w := by
    refine ⟨h.hazards, h.once, hchain, ?_, ?_, h.le, ?_, fun c hc => (behind_concat hr).mpr (h.retired c hc),
      fun j c hc => ⟨List.mem_append_left _ (h.held j c hc).1, (h.held j c hc).2⟩, fun c hc => ?_, fun c hc => ?_,
      fun j => ?_, fun j c hc => ?_, fun j => ?_, fun j l c hj hl => ?_, fun j c d v hj => ?_⟩
    · rw [List.getElem?_append_left h.lt]
      exact h.writePos
    · rw [List.getElem?_append_left (Nat.lt_of_le_of_lt h.le h.lt)]
      exact h.readPos
    · rw [List.length_append]
      exact Nat.lt_add_right _ h.lt
    · refine ⟨by rw [show ((s.setNode a { node with next := some b }).goes i (.publish a b)).nodes.length = s.nodes.length from
        List.length_set]; exact (h.deleted c hc).1, fun hmem => (behind_concat hr).mpr ?_⟩
      rcases List.mem_append.mp hmem with hmem | hmem
      · exact (h.deleted c hc).2 hmem
      · rw [List.mem_singleton.mp hmem] at hc
        exact absurd hc (h.new i a b value hat)
    · exact hdrained (h.drained c ((behind_concat hr).mp hc))
    · by_cases hj : j = i
      · rw [hj, hself]
        exact h.hazards_idle (by rw [hat]; nofun) (by rw [hat]; nofun)
      · rw [hother j hj]
        exact h.sync j
    · by_cases hj : j = i
      · rw [hj, hself] at hc
        cases hc
      · rw [hother j hj] at hc
        exact h.holding j c hc
    · by_cases hj : j = i
      · rw [hj, hself]
        refine ⟨k, ?_, ?_⟩
        · rw [List.getElem?_append_left (List.getElem?_eq_some_iff.mp hk).1]
          exact hk
        · rw [List.getElem?_append_right (by omega), hklen, Nat.sub_self]
          rfl
      · rw [hother j hj]
        have hold := h.place j
        have howns := h.apart i j b (by rw [hat]; rfl)
        cases hplace : s.place j with
        | link c d v =>
          rw [hplace] at hold howns
          refine ⟨fun hmem => ?_, (List.getElem?_set_ne fun heq : a = d => hold.1 (heq ▸ ha)).trans hold.2⟩
          rcases List.mem_append.mp hmem with hmem | hmem
          · exact hold.1 hmem
          · exact hj (howns (congrArg some (List.mem_singleton.mp hmem))).symm
        | publish c d =>
          rw [hplace] at hold
          exact Linked.concat hold
        | help c d v =>
          rw [hplace] at hold
          exact Linked.concat hold
        | nextRead c =>
          rw [hplace] at hold
          exact ⟨hdrained hold.1, List.mem_append_left _ hold.2⟩
        | moveRead c d =>
          rw [hplace] at hold
          exact ⟨hdrained hold.1, hold.2.concat⟩
        | unprotect c =>
          rw [hplace] at hold
          exact ⟨(behind_concat hr).mpr hold.1, hold.2⟩
        | retire c =>
          rw [hplace] at hold
          exact ⟨(behind_concat hr).mpr hold.1, hold.2⟩
        | _ => trivial
    · by_cases hji : j = i
      · rw [hji, hself] at hj
        cases hj
      · by_cases hli : l = i
        · rw [hli, hself] at hl
          cases hl
        · rw [hother j hji] at hj
          rw [hother l hli] at hl
          exact h.apart j l c hj hl
    · by_cases hji : j = i
      · rw [hji, hself] at hj
        cases hj
      · rw [hother j hji] at hj
        exact h.new j c d v hj
  exact ⟨events, answers, chain ++ [b], r, w, hsafe, List.prefix_append chain [b]⟩

/-- A node that is not linked, and that nobody deals with any more, is deleted. -/
theorem Safe.drop (h : Safe s events answers chain r w) (hb : b ∉ chain) (hlt : b < s.nodes.length)
    (howns : ∀ j, (s.place j).owns ≠ some b) (new : Node α) : Safe ((s.setNode b new).delete b) events answers chain r w := by
  have hnodes : ∀ {c}, c ∈ chain → (s.nodes.set b new)[c]? = s.nodes[c]? := fun hc =>
    List.getElem?_set_ne fun heq : b = _ => hb (heq ▸ hc)
  have hdrained : ∀ {c}, c ∈ chain → Drained s.nodes c → Drained (s.nodes.set b new) c := fun hc hdrained node hnode =>
    hdrained node ((hnodes hc).symm.trans hnode)
  refine ⟨h.hazards, h.once, ⟨h.ok.nodup, fun k a hk => ?_⟩, h.writePos, h.readPos, h.le, h.lt, h.retired,
    fun j a ha => ?_, fun a ha => ?_, fun a ha => hdrained ha.mem (h.drained a ha), h.sync, h.holding, fun j => ?_, h.apart,
    fun j c d value hj hd => ?_⟩
  · obtain ⟨node, hnode, hnext⟩ := h.ok.next k a hk
    exact ⟨node, (hnodes (List.mem_of_getElem? hk)).trans hnode, hnext⟩
  · refine ⟨(h.held j a ha).1, fun hmem => ?_⟩
    rcases List.mem_cons.mp hmem with rfl | hmem
    · exact hb (h.held j _ ha).1
    · exact (h.held j a ha).2 hmem
  · have hlen : ((s.setNode b new).delete b).nodes.length = s.nodes.length := List.length_set
    rw [hlen]
    rcases List.mem_cons.mp ha with rfl | ha
    · exact ⟨hlt, fun hmem => absurd hmem hb⟩
    · exact h.deleted a ha
  · have hold := h.place j
    have hown := howns j
    show PlaceOk (s.nodes.set b new) chain _ r (s.place j)
    cases hplace : s.place j with
    | link c d value =>
      rw [hplace] at hold hown
      exact ⟨hold.1, (List.getElem?_set_ne fun heq : b = d => hown (congrArg some heq.symm)).trans hold.2⟩
    | nextRead c =>
      rw [hplace] at hold
      exact ⟨hdrained hold.2 hold.1, hold.2⟩
    | moveRead c d =>
      rw [hplace] at hold
      exact ⟨hdrained hold.2.mem.1 hold.1, hold.2⟩
    | _ =>
      rw [hplace] at hold
      exact hold
  · rcases List.mem_cons.mp hd with rfl | hd
    · have hown := howns j
      have hj : s.place j = .link c d value := hj
      rw [hj] at hown
      exact hown rfl
    · exact h.new j c d value hj hd

/-- The new node is linked, or deleted again. -/
theorem Safe.linkStep (h : Safe s events answers chain r w) (hat : s.place i = .link a b value)
    (hnode : s.nodes[a]? = some node) : ∃ t, s.linkStep i a b value node = some t ∧ Kept chain t := by
  unfold MpmcQueue.linkStep
  cases hnext : node.next with
  | none => exact ⟨_, rfl, h.link hat hnode hnext⟩
  | some c =>
    have hplace := h.place i
    rw [hat] at hplace
    obtain ⟨hb, hbnode⟩ := hplace
    have hnew : s.node b = some (newNode value) := by
      unfold MpmcQueue.node
      rw [if_neg (h.new i a b value hat)]
      exact hbnode
    rw [hnew]
    refine ⟨_, rfl, ?_⟩
    have hpassed := h.passes i (.protect (.push (((newNode value).getValue 0).2.getD value)))
      (h.hazards_idle (by rw [hat]; nofun) (by rw [hat]; nofun)) rfl rfl trivial rfl
    refine (hpassed.drop hb (List.getElem?_eq_some_iff.mp hbnode).1 (fun j hown => ?_) _).kept
    by_cases hj : j = i
    · rw [hj, show (s.goes i _).place i = _ from Function.update_self _ _ _] at hown
      cases hown
    · rw [show (s.goes i _).place j = _ from Function.update_of_ne hj _ _] at hown
      exact hj (h.apart j i b hown (by rw [hat]; rfl))

/-- The node of a thread changes, and gets no next one. -/
theorem Safe.sets (h : Safe s events answers chain r w) {node' : Node α} (place : Place α) (hat : (s.place i).node = some a)
    (hnode : s.nodes[a]? = some node) (hnext : node'.next = node.next) (hle : node.readPos ≤ node'.readPos)
    (hidle : s.hazardPointers.place i = .idle) (hsync : InStep (n := n) .idle place)
    (hheld : ∀ b, place.node = some b → b = a)
    (hplace : PlaceOk (s.nodes.set a node') chain (events.filterMap HazardPointers.Event.retired) r place)
    (howns : place.owns = none) : Kept chain ((s.setNode a node').goes i place) := by
  obtain ⟨-, -, -, ha⟩ := h.access hat
  exact (h.moves i place (.set ha hnode hnext hle) hidle hsync
    (fun b hb => by rw [hheld b hb]; exact h.holding i a hat) hplace howns).kept

/-- A thread goes on, with the same node or without one. -/
theorem Safe.goesOn (h : Safe s events answers chain r w) (place : Place α) (hat : (s.place i).node = some a)
    (hidle : s.hazardPointers.place i = .idle) (hsync : InStep (n := n) .idle place)
    (hheld : ∀ b, place.node = some b → b = a)
    (hplace : PlaceOk s.nodes chain (events.filterMap HazardPointers.Event.retired) r place) (howns : place.owns = none) :
    Kept chain (s.goes i place) :=
  (h.moves i place (.refl chain s.nodes) hidle hsync (fun b hb => by rw [hheld b hb]; exact h.holding i a hat) hplace
    howns).kept

theorem ChainOk.linked (h : ChainOk nodes chain) (ha : a ∈ chain) (hnode : nodes[a]? = some node)
    (hnext : node.next = some b) : Linked chain a b := by
  obtain ⟨k, hk⟩ := List.mem_iff_getElem?.mp ha
  obtain ⟨node', hnode', hnext'⟩ := h.next k a hk
  obtain rfl := Option.some.inj (hnode.symm.trans hnode')
  exact ⟨k, hk, hnext'.symm.trans hnext⟩

theorem setValue_spec (node : Node α) (pos : ℕ) (value : α) :
    (node.setValue pos value = (node, false) ∧ node.data[pos]? ≠ some .empty) ∨
      node.setValue pos value = ({ node with data := node.data.set pos (.value value) }, true) ∧
        node.data[pos]? = some .empty := by
  unfold Node.setValue
  split
  · next hempty => exact Or.inr ⟨rfl, hempty⟩
  · next hother => exact Or.inl ⟨rfl, hother⟩

/-- A new node gets its number, which nobody knows. -/
theorem Safe.alloc (h : Safe s events answers chain r w) (hat : s.place i = .next a value) :
    Kept chain ((s.alloc (newNode value)).goes i (.link a s.nodes.length value)) := by
  have hidle := h.hazards_idle (i := i) (by rw [hat]; nofun) (by rw [hat]; nofun)
  have hfresh : ∀ c ∈ chain, c ≠ s.nodes.length := fun c hc => Nat.ne_of_lt (h.ok.lt_length hc)
  refine (h.turn i (.link a s.nodes.length value) (.alloc chain s.nodes (newNode value)) hidle (fun c hc => ?_)
    ⟨fun hmem => hfresh _ hmem rfl, ?_⟩ (fun c hc j hj howns => ?_) fun c b v heq hb => ?_).kept
  · obtain rfl := Option.some.inj hc
    exact h.holding i a (by rw [hat]; rfl)
  · rw [List.getElem?_append_right (Nat.le_refl _), Nat.sub_self]
    rfl
  · obtain rfl := Option.some.inj hc
    have hplace := h.place j
    cases hj : s.place j with
    | link d e v =>
      rw [hj] at hplace howns
      obtain rfl : e = s.nodes.length := Option.some.inj howns
      exact absurd (List.getElem?_eq_some_iff.mp hplace.2).1 (Nat.lt_irrefl _)
    | unprotect d =>
      rw [hj] at hplace howns
      obtain rfl : d = s.nodes.length := Option.some.inj howns
      exact hfresh _ hplace.1.mem rfl
    | retire d =>
      rw [hj] at hplace howns
      obtain rfl : d = s.nodes.length := Option.some.inj howns
      exact hfresh _ hplace.1.mem rfl
    | _ =>
      rw [hj] at howns
      cases howns
  · obtain ⟨rfl, rfl, rfl⟩ := Place.link.inj heq
    exact absurd (h.deleted _ hb).1 (Nat.lt_irrefl _)

theorem Safe.idle_of_node (h : Safe s events answers chain r w) (hat : (s.place i).node = some a) :
    s.hazardPointers.place i = .idle := by
  refine h.hazards_idle (fun call hplace => ?_) fun popping hplace => ?_
  · rw [hplace] at hat
    cases hat
  · rw [hplace] at hat
    cases hat

/-- The next operation on the node of a thread. -/
theorem Safe.nodeStep (h : Safe s events answers chain r w) (hat : (s.place i).node = some a)
    (hnode : s.nodes[a]? = some node) (readFirst : Bool) :
    ∃ t answer, s.nodeStep i readFirst node (s.place i) = some (t, answer) ∧ Kept chain t := by
  obtain ⟨-, -, -, ha⟩ := h.access hat
  have hown := h.place i
  have hidle := h.idle_of_node hat
  cases hplace : s.place i with
  | claim c value =>
    obtain rfl : c = a := by rw [hplace] at hat; exact Option.some.inj hat
    refine ⟨_, _, rfl, ?_⟩
    split_ifs
    · exact h.sets _ hat hnode rfl (Nat.le_refl _) hidle rfl (fun b hb => (Option.some.inj hb).symm) trivial rfl
    · exact h.sets _ hat hnode rfl (Nat.le_refl _) hidle rfl (fun b hb => (Option.some.inj hb).symm) trivial rfl
  | next c value =>
    obtain rfl : c = a := by rw [hplace] at hat; exact Option.some.inj hat
    unfold MpmcQueue.nodeStep
    dsimp only
    cases hnext : node.next with
    | none => exact ⟨_, _, rfl, h.alloc hplace⟩
    | some b => exact ⟨_, _, rfl, h.goesOn _ hat hidle rfl nofun (h.ok.linked ha hnode hnext) rfl⟩
  | link c b value =>
    obtain rfl : c = a := by rw [hplace] at hat; exact Option.some.inj hat
    obtain ⟨t, hstep, hkept⟩ := h.linkStep hplace hnode
    unfold MpmcQueue.nodeStep
    dsimp only
    rw [hstep]
    exact ⟨_, _, rfl, hkept⟩
  | set c pos value =>
    obtain rfl : c = a := by rw [hplace] at hat; exact Option.some.inj hat
    refine ⟨_, _, rfl, ?_⟩
    unfold setStep
    rcases setValue_spec node pos value with ⟨hset, -⟩ | ⟨hset, -⟩
    · rw [hset]
      exact h.goesOn _ hat hidle rfl nofun trivial rfl
    · rw [hset]
      exact h.sets _ hat hnode rfl (Nat.le_refl _) hidle rfl nofun trivial rfl
  | compare c =>
    obtain rfl : c = a := by rw [hplace] at hat; exact Option.some.inj hat
    refine ⟨_, _, rfl, ?_⟩
    split_ifs
    · exact h.goesOn _ hat hidle rfl (fun b hb => (Option.some.inj hb).symm) trivial rfl
    · exact h.goesOn _ hat hidle rfl (fun b hb => (Option.some.inj hb).symm) trivial rfl
  | compareRead c writePos =>
    obtain rfl : c = a := by rw [hplace] at hat; exact Option.some.inj hat
    refine ⟨_, _, rfl, ?_⟩
    split_ifs
    · exact h.goesOn _ hat hidle rfl (fun b hb => (Option.some.inj hb).symm) trivial rfl
    · exact h.goesOn _ hat hidle rfl (fun b hb => (Option.some.inj hb).symm) trivial rfl
  | compareWrite c readPos =>
    obtain rfl : c = a := by rw [hplace] at hat; exact Option.some.inj hat
    refine ⟨_, _, rfl, ?_⟩
    split_ifs
    · exact h.goesOn _ hat hidle rfl (fun b hb => (Option.some.inj hb).symm) trivial rfl
    · exact h.goesOn _ hat hidle rfl (fun b hb => (Option.some.inj hb).symm) trivial rfl
  | last c =>
    obtain rfl : c = a := by rw [hplace] at hat; exact Option.some.inj hat
    refine ⟨_, _, rfl, ?_⟩
    split_ifs
    · exact h.goesOn _ hat hidle rfl nofun trivial rfl
    · exact h.goesOn _ hat hidle rfl (fun b hb => (Option.some.inj hb).symm) trivial rfl
  | claimRead c =>
    obtain rfl : c = a := by rw [hplace] at hat; exact Option.some.inj hat
    refine ⟨_, _, rfl, ?_⟩
    split_ifs with hall
    · refine h.sets _ hat hnode rfl (Nat.le_succ _) hidle rfl (fun b hb => (Option.some.inj hb).symm)
        ⟨fun node' hnode' => ?_, ha⟩ rfl
      rw [List.getElem?_set_self (List.getElem?_eq_some_iff.mp hnode).1] at hnode'
      rw [← Option.some.inj hnode']
      exact Nat.le_succ_of_le hall
    · exact h.sets _ hat hnode rfl (Nat.le_succ _) hidle rfl (fun b hb => (Option.some.inj hb).symm) trivial rfl
  | nextRead c =>
    obtain rfl : c = a := by rw [hplace] at hat; exact Option.some.inj hat
    rw [hplace] at hown
    unfold MpmcQueue.nodeStep
    dsimp only
    cases hnext : node.next with
    | none => exact ⟨_, _, rfl, h.goesOn _ hat hidle rfl nofun trivial rfl⟩
    | some b => exact ⟨_, _, rfl, h.goesOn _ hat hidle rfl nofun ⟨hown.1, h.ok.linked ha hnode hnext⟩ rfl⟩
  | get c pos =>
    obtain rfl : c = a := by rw [hplace] at hat; exact Option.some.inj hat
    obtain ⟨out, hget⟩ : ∃ out, node.getValue pos = ({ node with data := node.data.set pos .taken }, out) := ⟨_, rfl⟩
    unfold MpmcQueue.nodeStep getStep
    dsimp only
    rw [hget]
    cases out with
    | none => exact ⟨_, _, rfl, h.sets _ hat hnode rfl (Nat.le_refl _) hidle rfl nofun trivial rfl⟩
    | some value => exact ⟨_, _, rfl, h.sets _ hat hnode rfl (Nat.le_refl _) hidle rfl nofun trivial rfl⟩
  | _ =>
    rw [hplace] at hat
    cases hat

theorem threadStep_of_node (hat : (s.place i).node = some a) (hnode : s.node a = some node) (readFirst : Bool) :
    s.threadStep i readFirst = s.nodeStep i readFirst node (s.place i) := by
  have hbind : ((s.place i).node.bind fun a => (s.node a).bind fun node => s.nodeStep i readFirst node (s.place i)) =
      s.nodeStep i readFirst node (s.place i) := by
    rw [hat, Option.bind_some, hnode, Option.bind_some]
  unfold MpmcQueue.threadStep
  cases hplace : s.place i with
  | claim | next | link | set | compare | compareRead | compareWrite | last | claimRead | nextRead | get =>
    rw [hplace] at hbind
    exact hbind
  | _ =>
    rw [hplace] at hat
    cases hat

/-- A thread in a call goes on. -/
theorem Safe.threadStep (h : Safe s events answers chain r w) {readFirst : Bool}
    (hadvanced : Advanced s (.thread i readFirst)) :
    ∃ t answer, s.threadStep i readFirst = some (t, answer) ∧ Kept chain t := by
  cases hnode : (s.place i).node with
  | some a =>
    obtain ⟨node, haccess, hat, -⟩ := h.access hnode
    rw [threadStep_of_node hnode haccess]
    exact h.nodeStep hnode hat readFirst
  | none =>
    have hown := h.place i
    unfold MpmcQueue.threadStep
    cases hplace : s.place i with
    | idle => exact ⟨s, _, rfl, h.kept⟩
    | protect call => exact ⟨_, _, rfl, h.protect hplace⟩
    | protecting call => exact ⟨_, _, rfl, h.protectStep hplace⟩
    | publish a b =>
      rw [hplace] at hown
      exact ⟨_, _, rfl, h.moveWrite i .leave hown (h.hazards_idle (by rw [hplace]; nofun) (by rw [hplace]; nofun)) rfl rfl
        trivial rfl⟩
    | help a b value =>
      rw [hplace] at hown
      exact ⟨_, _, rfl, h.moveWrite i (.protect (.push value)) hown
        (h.hazards_idle (by rw [hplace]; nofun) (by rw [hplace]; nofun)) rfl rfl trivial rfl⟩
    | moveRead a b =>
      dsimp only
      unfold compareExchange
      split_ifs with hptr
      · exact ⟨_, _, rfl, h.moveRead hplace hptr (hadvanced a b hplace hptr)⟩
      · exact ⟨_, _, rfl, (h.passes i (.protect .pop) (h.hazards_idle (by rw [hplace]; nofun) (by rw [hplace]; nofun)) rfl rfl
          trivial rfl).kept⟩
    | unprotect a => exact ⟨_, _, rfl, h.clear (.inr ⟨a, hplace, rfl⟩)⟩
    | retire a => exact ⟨_, _, rfl, h.retire (.inr ⟨a, hplace, rfl⟩)⟩
    | scan popping => exact ⟨_, _, rfl, h.scanStep hplace⟩
    | leave => exact ⟨_, _, rfl, h.clear (.inl ⟨hplace, rfl⟩)⟩
    | _ =>
      rw [hplace] at hnode
      cases hnode

/-- Every access is to a node that is there. -/
theorem Safe.step (h : Safe s events answers chain r w) {event : Event n α} (hadvanced : Advanced s event) :
    ∃ t answer, s.step event = some (t, answer) ∧ Kept chain t := by
  have hbegins : ∀ {i : Fin n} (call : Call α), s.place i = .idle → Kept chain (s.goes i (.protect call)) :=
    fun call hplace => (h.passes _ (.protect call) (h.hazards_idle (by rw [hplace]; nofun) (by rw [hplace]; nofun)) rfl rfl
      trivial rfl).kept
  cases event with
  | push i value =>
    dsimp only [MpmcQueue.step]
    split
    · next hplace => exact ⟨_, _, rfl, hbegins (.push value) hplace⟩
    · exact ⟨s, _, rfl, h.kept⟩
  | tryPop i =>
    dsimp only [MpmcQueue.step]
    split
    · next hplace => exact ⟨_, _, rfl, hbegins .pop hplace⟩
    · exact ⟨s, _, rfl, h.kept⟩
  | gc i =>
    dsimp only [MpmcQueue.step]
    split
    · next hplace => exact ⟨_, _, rfl, h.retire (.inl ⟨hplace, rfl⟩)⟩
    · exact ⟨s, _, rfl, h.kept⟩
  | thread i readFirst => exact h.threadStep hadvanced

/-! ### Where the values go -/

/-- What a step of a thread does to the nodes and to the place of the thread. -/
inductive Turn (nodes : List (Node α)) : Place α → List (Node α) → Place α → Answer α → Prop
  /-- Only the place changes. -/
  | walks {p p' : Place α} (hheld : p'.held = p.held) (hget : ∀ a pos, p ≠ .get a pos)
    (hlink : ∀ a b value, p ≠ .link a b value) : Turn nodes p nodes p' .nothing
  /-- A cell is claimed for a value. -/
  | claim {a : ℕ} {node : Node α} {value : α} {p' : Place α} (hnode : nodes[a]? = some node) (hheld : p'.held = {value}) :
    Turn nodes (.claim a value) (nodes.set a { node with writePos := node.writePos + 1 }) p' .nothing
  | claimRead {a : ℕ} {node : Node α} (hnode : nodes[a]? = some node) :
    Turn nodes (.claimRead a) (nodes.set a { node with readPos := node.readPos + 1 })
      (if blockSize ≤ node.readPos then .nextRead a else .get a node.readPos) .nothing
  | alloc (a : ℕ) (value : α) : Turn nodes (.next a value) (nodes ++ [newNode value]) (.link a nodes.length value) .nothing
  | link {a b : ℕ} {node : Node α} {value : α} (hnode : nodes[a]? = some node) :
    Turn nodes (.link a b value) (nodes.set a { node with next := some b }) (.publish a b) .nothing
  | unlink {a b : ℕ} {value : α} (hnode : nodes[b]? = some (newNode value)) :
    Turn nodes (.link a b value) (nodes.set b ((newNode value).getValue 0).1) (.protect (.push value)) .nothing
  | set {a pos : ℕ} {node : Node α} {value : α} (hnode : nodes[a]? = some node) (hempty : node.data[pos]? = some .empty) :
    Turn nodes (.set a pos value) (nodes.set a { node with data := node.data.set pos (.value value) }) .leave .nothing
  | misses {a pos : ℕ} {node : Node α} (hnode : nodes[a]? = some node)
    (hnone : ∀ value, node.data[pos]? ≠ some (.value value)) :
    Turn nodes (.get a pos) (nodes.set a { node with data := node.data.set pos .taken }) (.protect .pop) .nothing
  | gets {a pos : ℕ} {node : Node α} {value : α} (hnode : nodes[a]? = some node)
    (hvalue : node.data[pos]? = some (.value value)) :
    Turn nodes (.get a pos) (nodes.set a { node with data := node.data.set pos .taken }) .leave (.popped value)

theorem nodes_of_node (h : s.node a = some node) : s.nodes[a]? = some node := by
  unfold MpmcQueue.node at h
  split_ifs at h
  exact h

theorem nodeStep_turn (hnew : ∀ a b value, s.place i = .link a b value → s.nodes[b]? = some (newNode value))
    (hnode : s.nodes[a]? = some node) (hat : (s.place i).node = some a) {readFirst : Bool} {answer : Answer α}
    (hstep : s.nodeStep i readFirst node (s.place i) = some (t, answer)) :
    ∃ p', t.place = Function.update s.place i p' ∧ Turn s.nodes (s.place i) t.nodes p' answer := by
  cases hplace : s.place i with
  | claim c value =>
    rw [hplace] at hat hstep
    obtain rfl := Option.some.inj hat
    obtain ⟨rfl, rfl⟩ := Prod.mk.inj (Option.some.inj hstep)
    refine ⟨_, rfl, .claim hnode ?_⟩
    split_ifs
    · rfl
    · rfl
  | next c value =>
    rw [hplace] at hat hstep
    obtain rfl := Option.some.inj hat
    unfold MpmcQueue.nodeStep at hstep
    dsimp only at hstep
    split at hstep
    · obtain ⟨rfl, rfl⟩ := Prod.mk.inj (Option.some.inj hstep)
      exact ⟨_, rfl, .alloc _ value⟩
    · obtain ⟨rfl, rfl⟩ := Prod.mk.inj (Option.some.inj hstep)
      exact ⟨_, rfl, .walks rfl nofun nofun⟩
  | link c b value =>
    rw [hplace] at hat hstep
    obtain rfl := Option.some.inj hat
    unfold MpmcQueue.nodeStep MpmcQueue.linkStep at hstep
    dsimp only at hstep
    split at hstep
    · obtain ⟨rfl, rfl⟩ := Prod.mk.inj (Option.some.inj hstep)
      exact ⟨_, rfl, .link hnode⟩
    · cases hb : s.node b with
      | none =>
        rw [hb] at hstep
        cases hstep
      | some new =>
        obtain rfl := Option.some.inj ((hnew _ _ _ hplace).symm.trans (nodes_of_node hb))
        rw [hb] at hstep
        obtain ⟨rfl, rfl⟩ := Prod.mk.inj (Option.some.inj hstep)
        exact ⟨_, rfl, .unlink (hnew _ _ _ hplace)⟩
  | set c pos value =>
    rw [hplace] at hat hstep
    obtain rfl := Option.some.inj hat
    have hstep := Option.some.inj hstep
    unfold setStep at hstep
    rcases setValue_spec node pos value with ⟨hset, -⟩ | ⟨hset, hempty⟩
    · rw [hset] at hstep
      obtain ⟨rfl, rfl⟩ := Prod.mk.inj hstep
      exact ⟨_, rfl, .walks rfl nofun nofun⟩
    · rw [hset] at hstep
      obtain ⟨rfl, rfl⟩ := Prod.mk.inj hstep
      exact ⟨_, rfl, .set hnode hempty⟩
  | claimRead c =>
    rw [hplace] at hat hstep
    obtain rfl := Option.some.inj hat
    obtain ⟨rfl, rfl⟩ := Prod.mk.inj (Option.some.inj hstep)
    exact ⟨_, rfl, .claimRead hnode⟩
  | nextRead c =>
    rw [hplace] at hat hstep
    unfold MpmcQueue.nodeStep at hstep
    dsimp only at hstep
    split at hstep
    · obtain ⟨rfl, rfl⟩ := Prod.mk.inj (Option.some.inj hstep)
      exact ⟨_, rfl, .walks rfl nofun nofun⟩
    · obtain ⟨rfl, rfl⟩ := Prod.mk.inj (Option.some.inj hstep)
      exact ⟨_, rfl, .walks rfl nofun nofun⟩
  | get c pos =>
    rw [hplace] at hat hstep
    obtain rfl := Option.some.inj hat
    have hstep := Option.some.inj hstep
    unfold getStep Node.getValue at hstep
    split at hstep
    · next node' value heq =>
      obtain ⟨rfl, hvalue⟩ := Prod.mk.inj heq
      obtain ⟨rfl, rfl⟩ := Prod.mk.inj hstep
      split at hvalue
      · next v hdata =>
        obtain rfl := Option.some.inj hvalue
        exact ⟨_, rfl, .gets hnode hdata⟩
      · cases hvalue
    · next node' heq =>
      obtain ⟨rfl, hvalue⟩ := Prod.mk.inj heq
      obtain ⟨rfl, rfl⟩ := Prod.mk.inj hstep
      split at hvalue
      · cases hvalue
      · next hother => exact ⟨_, rfl, .misses hnode hother⟩
  | compare | compareRead | compareWrite | last =>
    rw [hplace] at hat hstep
    obtain ⟨rfl, rfl⟩ := Prod.mk.inj (Option.some.inj hstep)
    refine ⟨_, rfl, .walks ?_ nofun nofun⟩
    split_ifs
    · rfl
    · rfl
  | _ =>
    rw [hplace] at hat
    cases hat

/-- Of a step in the hazard pointers the thread sees the place where it goes on. -/
theorem protectStep_turn {call : Call α} (hplace : s.place i = .protecting call) :
    (s.protectStep i call).nodes = s.nodes ∧ ∃ p', (s.protectStep i call).place = Function.update s.place i p' ∧
      p'.held = (s.place i).held := by
  unfold MpmcQueue.protectStep
  split
  · next s' j pos a hhazard =>
    obtain ⟨rfl, -⟩ := Prod.mk.inj hhazard
    refine ⟨rfl, call.first a, rfl, ?_⟩
    rw [hplace]
    cases call with
    | push value => rfl
    | pop => rfl
  · next s' other hnot hhazard =>
    obtain ⟨rfl, -⟩ := Prod.mk.inj hhazard
    exact ⟨rfl, s.place i, (Function.update_eq_self _ _).symm, rfl⟩

theorem scanStep_turn {popping : Bool} (hplace : s.place i = .scan popping) :
    (s.scanStep i popping).nodes = s.nodes ∧ ∃ p', (s.scanStep i popping).place = Function.update s.place i p' ∧
      p'.held = (s.place i).held := by
  unfold MpmcQueue.scanStep
  split
  · next s' a hhazard =>
    obtain ⟨rfl, -⟩ := Prod.mk.inj hhazard
    exact ⟨rfl, s.place i, (Function.update_eq_self _ _).symm, rfl⟩
  · next s' other hnot hhazard =>
    obtain ⟨rfl, -⟩ := Prod.mk.inj hhazard
    split
    · refine ⟨rfl, _, rfl, ?_⟩
      rw [hplace]
      cases popping with
      | true => rfl
      | false => rfl
    · exact ⟨rfl, s.place i, (Function.update_eq_self _ _).symm, rfl⟩

theorem compareExchange_same (s : MpmcQueue n α) (ptr : Pointer) (a b : ℕ) :
    (s.compareExchange ptr a b).1.nodes = s.nodes ∧ (s.compareExchange ptr a b).1.place = s.place := by
  unfold compareExchange
  split_ifs
  · exact ⟨rfl, rfl⟩
  · exact ⟨rfl, rfl⟩

theorem threadStep_turn (hnew : ∀ a b value, s.place i = .link a b value → s.nodes[b]? = some (newNode value))
    {readFirst : Bool} {answer : Answer α} (hstep : s.threadStep i readFirst = some (t, answer)) :
    ∃ p', t.place = Function.update s.place i p' ∧ Turn s.nodes (s.place i) t.nodes p' answer := by
  cases hnode : (s.place i).node with
  | some a =>
    cases haccess : s.node a with
    | some node =>
      rw [threadStep_of_node hnode haccess] at hstep
      exact nodeStep_turn hnew (nodes_of_node haccess) hnode hstep
    | none =>
      exfalso
      have hbind : ((s.place i).node.bind fun a => (s.node a).bind fun node => s.nodeStep i readFirst node (s.place i)) = none := by
        rw [hnode, Option.bind_some, haccess, Option.bind_none]
      unfold MpmcQueue.threadStep at hstep
      cases hplace : s.place i with
      | claim | next | link | set | compare | compareRead | compareWrite | last | claimRead | nextRead | get =>
        rw [hplace] at hbind hstep
        cases hbind.symm.trans hstep
      | _ =>
        rw [hplace] at hnode
        cases hnode
  | none =>
    have hwalks : ∀ {p' : Place α} {nodes : List (Node α)}, nodes = s.nodes → p'.held = (s.place i).held →
        Turn s.nodes (s.place i) nodes p' .nothing := by
      rintro p' nodes rfl hheld
      refine .walks hheld (fun a pos hget => ?_) fun a b value hlink => ?_
      · rw [hget] at hnode
        cases hnode
      · rw [hlink] at hnode
        cases hnode
    unfold MpmcQueue.threadStep at hstep
    cases hplace : s.place i with
    | idle =>
      rw [hplace] at hstep
      obtain ⟨rfl, rfl⟩ := Prod.mk.inj (Option.some.inj hstep)
      exact ⟨_, (Function.update_eq_self i _).symm, hplace ▸ hwalks rfl rfl⟩
    | protecting call =>
      rw [hplace] at hstep
      obtain ⟨rfl, rfl⟩ := Prod.mk.inj (Option.some.inj hstep)
      obtain ⟨hnodes, p', hp', hheld⟩ := protectStep_turn hplace
      exact ⟨p', hp', hplace ▸ hwalks hnodes hheld⟩
    | scan popping =>
      rw [hplace] at hstep
      obtain ⟨rfl, rfl⟩ := Prod.mk.inj (Option.some.inj hstep)
      obtain ⟨hnodes, p', hp', hheld⟩ := scanStep_turn hplace
      exact ⟨p', hp', hplace ▸ hwalks hnodes hheld⟩
    | protect call =>
      rw [hplace] at hstep
      obtain ⟨rfl, rfl⟩ := Prod.mk.inj (Option.some.inj hstep)
      refine ⟨.protecting call, rfl, hplace ▸ hwalks rfl ?_⟩
      rw [hplace]
      cases call with
      | push value => rfl
      | pop => rfl
    | unprotect a | retire a | leave =>
      rw [hplace] at hstep
      obtain ⟨rfl, rfl⟩ := Prod.mk.inj (Option.some.inj hstep)
      exact ⟨_, rfl, hplace ▸ hwalks rfl (by rw [hplace]; rfl)⟩
    | publish a b | help a b value =>
      rw [hplace] at hstep
      obtain ⟨rfl, rfl⟩ := Prod.mk.inj (Option.some.inj hstep)
      obtain ⟨hnodes, hplaces⟩ := compareExchange_same s .writePos a b
      exact ⟨_, congrArg (Function.update · i _) hplaces, hplace ▸ hwalks hnodes (by rw [hplace]; rfl)⟩
    | moveRead a b =>
      rw [hplace] at hstep
      dsimp only at hstep
      unfold compareExchange at hstep
      split_ifs at hstep
      · obtain ⟨rfl, rfl⟩ := Prod.mk.inj (Option.some.inj hstep)
        exact ⟨_, rfl, hplace ▸ hwalks rfl (by rw [hplace]; rfl)⟩
      · obtain ⟨rfl, rfl⟩ := Prod.mk.inj (Option.some.inj hstep)
        exact ⟨_, rfl, hplace ▸ hwalks rfl (by rw [hplace]; rfl)⟩
    | _ =>
      rw [hplace] at hnode
      cases hnode

theorem sum_set {β : Type} (f : β → Multiset α) : ∀ {l : List β} {k : ℕ} {x : β} (y : β), l[k]? = some x →
    ((l.set k y).map f).sum + f x = (l.map f).sum + f y
  | z :: l, 0, x, y, h => by
    obtain rfl : z = x := Option.some.inj h
    rw [List.set_cons_zero, List.map_cons, List.map_cons, List.sum_cons, List.sum_cons,
      add_comm (f y), add_comm (f z), add_right_comm]
  | z :: l, k + 1, x, y, h => by
    have ih := sum_set f (l := l) (k := k) (x := x) y h
    rw [List.set_cons_succ, List.map_cons, List.map_cons, List.sum_cons, List.sum_cons, add_assoc, ih, add_assoc]

theorem held_replicate (m : ℕ) : ((List.replicate m (Cell.empty : Cell α)).map Cell.held).sum = 0 := by
  rw [List.map_replicate, List.sum_replicate]
  exact nsmul_zero m

theorem held_newNode (value : α) : (newNode value).held = {value} := by
  have h := sum_set (Cell.held (α := α)) (k := 0) (.value value)
    (show (List.replicate blockSize Cell.empty)[0]? = some .empty from rfl)
  rw [held_replicate, zero_add] at h
  exact (add_zero _).symm.trans h

theorem held_unlinked (value : α) : ((newNode value).getValue 0).1.held = 0 := by
  have h := sum_set (Cell.held (α := α)) (k := 0) .taken (show (newNode value).data[0]? = some (.value value) from rfl)
  have hnew : ((newNode value).data.map Cell.held).sum = {value} := held_newNode value
  rw [hnew] at h
  exact add_right_cancel (h.trans (add_comm _ _))

/-- No step loses a value or makes another one of it. -/
theorem Turn.values {p p' : Place α} {answer : Answer α} (h : Turn nodes p nodes' p' answer) :
    p.held + (nodes.map Node.held).sum = answer.out + p'.held + (nodes'.map Node.held).sum := by
  -- a node with the same values
  have hsame : ∀ {a : ℕ} {node : Node α} (node' : Node α), nodes[a]? = some node → node'.held = node.held →
      ((nodes.set a node').map Node.held).sum = (nodes.map Node.held).sum := by
    intro a node node' hnode hheld
    have hsum := sum_set Node.held node' hnode
    rw [hheld] at hsum
    exact add_right_cancel hsum
  cases h with
  | walks hheld _ _ =>
    show p.held + _ = 0 + p'.held + _
    rw [hheld, zero_add]
  | @claim a node value _ hnode hheld =>
    show {value} + _ = 0 + p'.held + _
    rw [hheld, zero_add, hsame { node with writePos := node.writePos + 1 } hnode rfl]
  | @claimRead a node hnode =>
    have hheld : (if blockSize ≤ node.readPos then (Place.nextRead a : Place α) else .get a node.readPos).held = 0 := by
      split_ifs
      · rfl
      · rfl
    show 0 + _ = 0 + Place.held _ + _
    rw [hheld, hsame { node with readPos := node.readPos + 1 } hnode rfl, add_zero]
  | alloc a value =>
    show ({value} : Multiset α) + _ = 0 + 0 + _
    rw [List.map_append, List.sum_append, List.map_singleton, List.sum_singleton, held_newNode, add_zero, zero_add, add_comm]
  | @link a b node value hnode =>
    show (0 : Multiset α) + _ = 0 + 0 + _
    rw [hsame { node with next := some b } hnode rfl, add_zero]
  | @unlink a b value hnode =>
    show (0 : Multiset α) + _ = 0 + {value} + _
    have hsum := sum_set Node.held ((newNode value).getValue 0).1 hnode
    rw [held_newNode, held_unlinked, add_zero] at hsum
    rw [zero_add, zero_add, ← hsum, add_comm]
  | @set a pos node value hnode hempty =>
    show ({value} : Multiset α) + _ = 0 + 0 + _
    have hcell : (node.data.set pos (.value value) |>.map Cell.held).sum = node.held + {value} :=
      (add_zero _).symm.trans (sum_set Cell.held (.value value) hempty)
    have hsum := sum_set Node.held { node with data := node.data.set pos (.value value) } hnode
    rw [show Node.held { node with data := node.data.set pos (.value value) } = _ from hcell, ← add_assoc,
      add_right_comm] at hsum
    rw [add_zero, zero_add, add_comm]
    exact (add_right_cancel hsum).symm
  | @misses a pos node hnode hnone =>
    show (0 : Multiset α) + _ = 0 + 0 + _
    have hcell : (node.data.set pos .taken |>.map Cell.held).sum = node.held := by
      cases hdata : node.data[pos]? with
      | none =>
        rw [List.set_eq_of_length_le (List.getElem?_eq_none_iff.mp hdata)]
        rfl
      | some cell =>
        have hheld : cell.held = 0 := by
          cases cell with
          | value value => exact absurd hdata (hnone value)
          | empty | taken => rfl
        have hsum := sum_set Cell.held .taken hdata
        rw [hheld] at hsum
        exact add_right_cancel hsum
    rw [hsame { node with data := node.data.set pos .taken } hnode hcell, add_zero]
  | @gets a pos node value hnode hvalue =>
    show (0 : Multiset α) + _ = {value} + 0 + _
    have hcell : (node.data.set pos .taken |>.map Cell.held).sum + {value} = node.held :=
      (sum_set Cell.held .taken hvalue).trans (add_zero _)
    have hsum := sum_set Node.held { node with data := node.data.set pos .taken } hnode
    rw [← hcell, ← add_assoc, add_right_comm] at hsum
    rw [zero_add, add_zero, add_comm]
    exact (add_right_cancel hsum).symm

/-- A thread makes a step, a value comes into the hand of one, or a thread that is in a call is not called. -/
theorem step_turn (hnew : ∀ i a b value, s.place i = .link a b value → s.nodes[b]? = some (newNode value))
    {event : Event n α} {answer : Answer α} (hstep : s.step event = some (t, answer)) :
    (∃ i p', t.place = Function.update s.place i p' ∧ Turn s.nodes (s.place i) t.nodes p' answer ∧ event.pushed s = 0) ∨
      (∃ i value, s.place i = .idle ∧ t = s.goes i (.protect (.push value)) ∧ answer = .nothing ∧
        event.pushed s = {value}) ∨
      t = s ∧ answer = .nothing ∧ event.pushed s = 0 := by
  cases event with
  | push i value =>
    dsimp only [MpmcQueue.step] at hstep
    unfold Event.pushed
    split at hstep
    · next hplace =>
      obtain ⟨rfl, rfl⟩ := Prod.mk.inj (Option.some.inj hstep)
      dsimp only
      rw [hplace]
      exact .inr (.inl ⟨i, value, hplace, rfl, rfl, rfl⟩)
    · next hbusy =>
      obtain ⟨rfl, rfl⟩ := Prod.mk.inj (Option.some.inj hstep)
      refine .inr (.inr ⟨rfl, rfl, ?_⟩)
      dsimp only
      split
      · next hplace => exact absurd hplace hbusy
      · rfl
  | tryPop i =>
    dsimp only [MpmcQueue.step] at hstep
    split at hstep
    · next hplace =>
      obtain ⟨rfl, rfl⟩ := Prod.mk.inj (Option.some.inj hstep)
      exact .inl ⟨i, _, rfl, hplace ▸ .walks rfl nofun nofun, rfl⟩
    · obtain ⟨rfl, rfl⟩ := Prod.mk.inj (Option.some.inj hstep)
      exact .inr (.inr ⟨rfl, rfl, rfl⟩)
  | gc i =>
    dsimp only [MpmcQueue.step] at hstep
    split at hstep
    · next hplace =>
      obtain ⟨rfl, rfl⟩ := Prod.mk.inj (Option.some.inj hstep)
      exact .inl ⟨i, _, rfl, hplace ▸ .walks rfl nofun nofun, rfl⟩
    · obtain ⟨rfl, rfl⟩ := Prod.mk.inj (Option.some.inj hstep)
      exact .inr (.inr ⟨rfl, rfl, rfl⟩)
  | thread i readFirst =>
    obtain ⟨p', hplace, hturn⟩ := threadStep_turn (hnew i) hstep
    exact .inl ⟨i, p', hplace, hturn, rfl⟩

theorem inHand_update (s : MpmcQueue n α) {i : Fin n} {p' : Place α} (hplace : t.place = Function.update s.place i p') :
    t.inHand + (s.place i).held = s.inHand + p'.held := by
  have hrest : ∑ j ∈ Finset.univ.erase i, (t.place j).held = ∑ j ∈ Finset.univ.erase i, (s.place j).held := by
    refine Finset.sum_congr rfl fun j hj => ?_
    rw [hplace, Function.update_of_ne (Finset.ne_of_mem_erase hj)]
  unfold inHand
  rw [← Finset.add_sum_erase _ (fun j => (t.place j).held) (Finset.mem_univ i),
    ← Finset.add_sum_erase _ (fun j => (s.place j).held) (Finset.mem_univ i), hrest,
    hplace, Function.update_self, add_right_comm, add_comm p'.held, add_right_comm]

/-- What comes into the queue, and what goes out of it. -/
theorem step_values (hnew : ∀ i a b value, s.place i = .link a b value → s.nodes[b]? = some (newNode value))
    {event : Event n α} {answer : Answer α} (hstep : s.step event = some (t, answer)) :
    event.pushed s + s.inHand + s.stored = answer.out + t.inHand + t.stored := by
  rcases step_turn hnew hstep with
    ⟨i, p', hplace, hturn, hpushed⟩ | ⟨i, value, hplace, rfl, rfl, hpushed⟩ | ⟨rfl, rfl, hpushed⟩
  · refine add_right_cancel (b := (s.place i).held) ?_
    have hvalues : (s.place i).held + s.stored = answer.out + p'.held + t.stored := hturn.values
    calc event.pushed s + s.inHand + s.stored + (s.place i).held
      _ = s.inHand + ((s.place i).held + s.stored) := by rw [hpushed, zero_add, add_assoc, add_comm s.stored]
      _ = answer.out + t.stored + (s.inHand + p'.held) := by
        rw [hvalues, add_right_comm, add_comm (s.inHand), add_comm (s.inHand) p'.held, add_assoc]
      _ = answer.out + t.inHand + t.stored + (s.place i).held := by
        rw [← inHand_update s hplace, ← add_assoc, add_right_comm answer.out]
  · have hhand := inHand_update s (t := s.goes i (.protect (.push value))) (i := i) rfl
    rw [hplace] at hhand
    rw [hpushed]
    show {value} + s.inHand + s.stored = 0 + (s.goes i (.protect (.push value))).inHand + s.stored
    rw [zero_add, add_comm ({value} : Multiset α), ← show _ = s.inHand + {value} from hhand,
      show (Place.idle : Place α).held = 0 from rfl, add_zero]
  · rw [hpushed]
    rfl

/-! ### No value is in a cell that readers have passed -/

/-- Readers pass a cell by claiming it, and a node with values is linked or in the hands of one thread. -/
structure CellsOk (nodes : List (Node α)) (place : Fin n → Place α) (chain : List ℕ) : Prop where
  length : ∀ (a : ℕ) (node : Node α), nodes[a]? = some node → node.data.length = blockSize
  claimed : ∀ (a : ℕ) (node : Node α) (pos : ℕ) (cell : Cell α), nodes[a]? = some node → node.data[pos]? = some cell →
    cell ≠ .taken → node.readPos ≤ pos ∨ ∃ i, place i = .get a pos
  linked : ∀ (a : ℕ) (node : Node α) (pos : ℕ) (value : α), nodes[a]? = some node →
    node.data[pos]? = some (.value value) → a ∈ chain ∨ ∃ i c value, place i = .link c a value

/-- A node changes, and the thread at it goes to another place. -/
theorem CellsOk.set {place : Fin n → Place α} {chain' : List ℕ} {p' : Place α} {node' : Node α} (h : CellsOk nodes place chain)
    (hstarts : chain <+: chain') (hnode : nodes[a]? = some node) (hlength : node'.data.length = node.data.length)
    (hcells : ∀ (pos : ℕ) (cell : Cell α), node'.data[pos]? = some cell → cell ≠ .taken →
      ∃ cell' : Cell α, node.data[pos]? = some cell' ∧ cell' ≠ .taken ∧ place i ≠ .get a pos ∧
        (node.readPos ≤ pos → pos < blockSize → node'.readPos ≤ pos ∨ p' = .get a pos))
    (hget : ∀ c pos, place i = .get c pos → c = a) (hlink : ∀ c b value, place i = .link c b value → b ∈ chain' ∨ b = a)
    (hlinked : a ∈ chain ∨ ∀ (pos : ℕ) (value : α), node'.data[pos]? ≠ some (.value value)) :
    CellsOk (nodes.set a node') (Function.update place i p') chain' := by
  have hat : ∀ j, j ≠ i → Function.update place i p' j = place j := fun j hj => Function.update_of_ne hj _ _
  have hself : (nodes.set a node')[a]? = some node' := List.getElem?_set_self (List.getElem?_eq_some_iff.mp hnode).1
  refine ⟨fun c other hother => ?_, fun c other pos cell hother hcell htaken => ?_, fun c other pos value hother hcell => ?_⟩
  · by_cases heq : a = c
    · subst heq
      obtain rfl := Option.some.inj (hself.symm.trans hother)
      exact hlength.trans (h.length a node hnode)
    · rw [List.getElem?_set_ne heq] at hother
      exact h.length c other hother
  · by_cases heq : a = c
    · subst heq
      obtain rfl := Option.some.inj (hself.symm.trans hother)
      obtain ⟨cell', hcell', htaken', hget', hpassed⟩ := hcells pos cell hcell htaken
      rcases h.claimed a node pos cell' hnode hcell' htaken' with hle | ⟨j, hj⟩
      · have hlt : pos < blockSize := h.length a node hnode ▸ (List.getElem?_eq_some_iff.mp hcell').1
        rcases hpassed hle hlt with hle | hp'
        · exact .inl hle
        · exact .inr ⟨i, (Function.update_self _ _ _).trans hp'⟩
      · exact .inr ⟨j, (hat j fun heq => hget' (heq ▸ hj)).trans hj⟩
    · rw [List.getElem?_set_ne heq] at hother
      rcases h.claimed c other pos cell hother hcell htaken with hle | ⟨j, hj⟩
      · exact .inl hle
      · exact .inr ⟨j, (hat j fun hji => heq (hget c pos (hji ▸ hj)).symm).trans hj⟩
  · by_cases heq : a = c
    · subst heq
      obtain rfl := Option.some.inj (hself.symm.trans hother)
      rcases hlinked with ha | hnone
      · exact .inl (hstarts.subset ha)
      · exact absurd hcell (hnone pos value)
    · rw [List.getElem?_set_ne heq] at hother
      rcases h.linked c other pos value hother hcell with hc | ⟨j, d, v, hj⟩
      · exact .inl (hstarts.subset hc)
      · by_cases hji : j = i
        · rcases hlink d c v (hji ▸ hj) with hc | hc
          · exact .inl hc
          · exact absurd hc.symm heq
        · exact .inr ⟨j, d, v, (hat j hji).trans hj⟩

/-- A thread that is at no cell and has no new node goes to another place. -/
theorem CellsOk.goes {place : Fin n → Place α} {chain' : List ℕ} (h : CellsOk nodes place chain) (hstarts : chain <+: chain')
    (hget : ∀ a pos, place i ≠ .get a pos) (hlink : ∀ a b value, place i ≠ .link a b value) (p' : Place α) :
    CellsOk nodes (Function.update place i p') chain' := by
  refine ⟨h.length, fun a node pos cell hnode hcell htaken => ?_, fun a node pos value hnode hcell => ?_⟩
  · rcases h.claimed a node pos cell hnode hcell htaken with hle | ⟨j, hj⟩
    · exact .inl hle
    · exact .inr ⟨j, (Function.update_of_ne (fun heq => hget _ _ (heq ▸ hj)) _ _).trans hj⟩
  · rcases h.linked a node pos value hnode hcell with ha | ⟨j, c, v, hj⟩
    · exact .inl (hstarts.subset ha)
    · exact .inr ⟨j, c, v, (Function.update_of_ne (fun heq => hlink _ _ _ (heq ▸ hj)) _ _).trans hj⟩

theorem length_newNode (value : α) : (newNode value).data.length = blockSize :=
  List.length_set.trans List.length_replicate

/-- A new node is in the hands of the thread. -/
theorem CellsOk.alloc {place : Fin n → Place α} {chain' : List ℕ} (h : CellsOk nodes place chain) (hstarts : chain <+: chain')
    (hget : ∀ a pos, place i ≠ .get a pos) (hlink : ∀ a b value, place i ≠ .link a b value) (a : ℕ) (value : α) :
    CellsOk (nodes ++ [newNode value]) (Function.update place i (.link a nodes.length value)) chain' := by
  have hgoes := h.goes hstarts hget hlink (.link a nodes.length value)
  have hcases : ∀ {c : ℕ} {node : Node α}, (nodes ++ [newNode value])[c]? = some node →
      nodes[c]? = some node ∨ (c = nodes.length ∧ node = newNode value) := by
    intro c node hnode
    rcases Nat.lt_or_ge c nodes.length with hlt | hge
    · rw [List.getElem?_append_left hlt] at hnode
      exact .inl hnode
    · have hlt := (List.getElem?_eq_some_iff.mp hnode).1
      rw [List.length_append, List.length_singleton] at hlt
      obtain rfl : c = nodes.length := by omega
      rw [List.getElem?_append_right (Nat.le_refl _), Nat.sub_self] at hnode
      exact .inr ⟨rfl, (Option.some.inj hnode).symm⟩
  refine ⟨fun c node hnode => ?_, fun c node pos cell hnode hcell htaken => ?_, fun c node pos v hnode hcell => ?_⟩
  · rcases hcases hnode with hold | ⟨-, rfl⟩
    · exact h.length c node hold
    · exact length_newNode value
  · rcases hcases hnode with hold | ⟨-, rfl⟩
    · exact hgoes.claimed c node pos cell hold hcell htaken
    · exact .inl (Nat.zero_le pos)
  · rcases hcases hnode with hold | ⟨rfl, -⟩
    · exact hgoes.linked c node pos v hold hcell
    · exact .inr ⟨i, a, value, Function.update_self _ _ _⟩

/-- A cell that is not `Taken` after another one was taken. -/
theorem getElem?_set_taken {data : List (Cell α)} {pos pos' : ℕ} {cell : Cell α}
    (hcell : (data.set pos .taken)[pos']? = some cell) (htaken : cell ≠ .taken) : pos ≠ pos' ∧ data[pos']? = some cell := by
  have hne : pos ≠ pos' := by
    rintro rfl
    have hlt := (List.getElem?_eq_some_iff.mp hcell).1
    rw [List.length_set] at hlt
    rw [List.getElem?_set_self hlt] at hcell
    exact htaken (Option.some.inj hcell).symm
  rw [List.getElem?_set_ne hne] at hcell
  exact ⟨hne, hcell⟩

/-- Every step keeps the cells. -/
theorem CellsOk.turn {place : Fin n → Place α} {chain' : List ℕ} {p' : Place α} {answer : Answer α}
    (h : CellsOk nodes place chain) (hturn : Turn nodes (place i) nodes' p' answer) (hstarts : chain <+: chain')
    (hok : ChainOk nodes' chain') (hat : ∀ a, (place i).node = some a → a ∈ chain) :
    CellsOk nodes' (Function.update place i p') chain' := by
  generalize hp : place i = p at hturn hat
  -- a step that changes no cell and does not claim one either
  have hsame : ∀ {a : ℕ} {node : Node α}, a ∈ chain → (∀ c pos, p ≠ .get c pos) → ∀ (pos : ℕ) (cell : Cell α),
      node.data[pos]? = some cell → cell ≠ .taken → ∃ cell' : Cell α, node.data[pos]? = some cell' ∧ cell' ≠ .taken ∧
        place i ≠ .get a pos ∧ (node.readPos ≤ pos → pos < blockSize → node.readPos ≤ pos ∨ p' = .get a pos) :=
    fun _ hget pos cell hcell htaken => ⟨cell, hcell, htaken, fun heq => hget _ _ (hp.symm.trans heq), fun hle _ => .inl hle⟩
  have htakes : ∀ {a pos : ℕ} {node : Node α}, nodes[a]? = some node → p = .get a pos →
      CellsOk (nodes.set a { node with data := node.data.set pos .taken }) (Function.update place i p') chain' := by
    rintro a pos node hnode rfl
    refine h.set hstarts hnode List.length_set (fun pos' cell hcell htaken => ?_) (fun c pos' hget => ?_) (by rw [hp]; nofun)
      (.inl (hat a rfl))
    · obtain ⟨hne, hold⟩ := getElem?_set_taken hcell htaken
      exact ⟨cell, hold, htaken, fun hget => hne (Place.get.inj (hp.symm.trans hget)).2, fun hle _ => .inl hle⟩
    · exact (Place.get.inj (hp.symm.trans hget)).1.symm
  cases hturn with
  | walks hheld hget hlink => exact h.goes hstarts (hp ▸ hget) (hp ▸ hlink) p'
  | @claim a node value _ hnode hheld =>
    have ha := hat a rfl
    exact h.set hstarts hnode rfl (hsame ha nofun) (by rw [hp]; nofun) (by rw [hp]; nofun) (.inl ha)
  | @claimRead a node hnode =>
    have ha := hat a rfl
    refine h.set hstarts hnode rfl (fun pos cell hcell htaken => ⟨cell, hcell, htaken, by rw [hp]; nofun, fun hle hlt => ?_⟩)
      (by rw [hp]; nofun) (by rw [hp]; nofun) (.inl ha)
    rcases Nat.lt_or_eq_of_le hle with hpassed | rfl
    · exact .inl hpassed
    · exact .inr (if_neg (Nat.not_le.mpr hlt))
  | alloc a value => exact h.alloc hstarts (by rw [hp]; nofun) (by rw [hp]; nofun) a value
  | @link a b node value hnode =>
    have ha := hat a rfl
    refine h.set hstarts hnode rfl (hsame ha nofun) (by rw [hp]; nofun) (fun c d v hlink => .inl ?_) (.inl ha)
    obtain ⟨rfl, rfl, rfl⟩ := Place.link.inj (hp.symm.trans hlink)
    exact (hok.linked (hstarts.subset ha) (List.getElem?_set_self (List.getElem?_eq_some_iff.mp hnode).1) rfl).mem.2
  | @unlink a b value hnode =>
    refine h.set hstarts hnode (List.length_set) (fun pos cell hcell htaken => ?_) (by rw [hp]; nofun)
      (fun c d v hlink => .inr ?_) (.inr fun pos v hcell => ?_)
    · exact ⟨cell, (getElem?_set_taken hcell htaken).2, htaken, by rw [hp]; nofun, fun _ _ => .inl (Nat.zero_le pos)⟩
    · obtain ⟨rfl, rfl, rfl⟩ := Place.link.inj (hp.symm.trans hlink)
      rfl
    · obtain ⟨hne, hold⟩ := getElem?_set_taken hcell nofun
      have hdata : (newNode value).data = (List.replicate blockSize .empty).set 0 (.value value) := rfl
      rw [hdata, List.getElem?_set_ne hne, List.getElem?_replicate] at hold
      split_ifs at hold
      cases hold
  | @set a pos node value hnode hempty =>
    have ha := hat a rfl
    refine h.set hstarts hnode List.length_set (fun pos' cell hcell htaken => ?_) (by rw [hp]; nofun) (by rw [hp]; nofun) (.inl ha)
    by_cases heq : pos = pos'
    · subst heq
      exact ⟨.empty, hempty, nofun, by rw [hp]; nofun, fun hle _ => .inl hle⟩
    · exact hsame ha nofun pos' cell ((List.getElem?_set_ne heq).symm.trans hcell) htaken
  | @misses a pos node hnode hnone => exact htakes hnode rfl
  | @gets a pos node value hnode hvalue => exact htakes hnode rfl

/-! ### All runs -/

/-- Only the first node is linked. -/
theorem safe_start : Safe ({} : MpmcQueue n α) [] [] [0] 0 0 := by
  refine ⟨HazardPointers.inv_shared _, List.Pairwise.nil, ⟨List.nodup_singleton 0, fun k a hk => ?_⟩, rfl, rfl, Nat.le_refl 0,
    Nat.zero_lt_one, nofun, nofun, nofun, ?_, fun _ => rfl, nofun, fun _ => trivial, nofun, nofun⟩
  · obtain ⟨hlt, ha⟩ := List.getElem?_eq_some_iff.mp hk
    obtain rfl : k = 0 := Nat.lt_one_iff.mp hlt
    exact ⟨{}, by rw [← ha]; rfl, rfl⟩
  · rintro a ⟨k, hk, -⟩
    exact absurd hk (Nat.not_lt_zero k)

theorem cellsOk_start : CellsOk ({} : MpmcQueue n α).nodes ({} : MpmcQueue n α).place [0] := by
  have hfirst : ∀ {a : ℕ} {node : Node α}, ({} : MpmcQueue n α).nodes[a]? = some node → a = 0 ∧ node = {} := by
    intro a node hnode
    obtain ⟨hlt, hnode⟩ := List.getElem?_eq_some_iff.mp hnode
    obtain rfl : a = 0 := Nat.lt_one_iff.mp hlt
    exact ⟨rfl, hnode.symm⟩
  refine ⟨fun a node hnode => ?_, fun a node pos cell hnode _ _ => ?_, fun a node pos value hnode _ => ?_⟩
  · obtain ⟨-, rfl⟩ := hfirst hnode
    exact List.length_replicate
  · obtain ⟨-, rfl⟩ := hfirst hnode
    exact .inl (Nat.zero_le pos)
  · exact .inl (List.mem_singleton.mpr (hfirst hnode).1)

theorem stored_start : ({} : MpmcQueue n α).stored = 0 :=
  (add_zero _).trans (held_replicate blockSize)

theorem inHand_start : ({} : MpmcQueue n α).inHand = 0 := Finset.sum_const_zero

/-- The nodes from `read_pos_` on are reached through the next ones. -/
theorem Safe.ahead (h : Safe s events answers chain r w) : ∀ (d : ℕ) {a : ℕ}, chain[r + d]? = some a → s.Ahead a
  | 0, a, ha => ⟨a, h.readPos.trans ha, .refl⟩
  | d + 1, b, hb => by
    have hlt : r + d < chain.length := Nat.lt_of_succ_lt (List.getElem?_eq_some_iff.mp hb).1
    obtain ⟨first, hfirst, hpath⟩ := h.ahead d (List.getElem?_eq_getElem hlt)
    obtain ⟨node, hnode, hnext⟩ := h.ok.next (r + d) _ (List.getElem?_eq_getElem hlt)
    exact ⟨first, hfirst, hpath.tail ⟨node, hnode, hnext.trans hb⟩⟩

/-- A value in a cell can still be delivered. -/
theorem Safe.deliverable (h : Safe s events answers chain r w) (hcells : CellsOk s.nodes s.place chain) {pos : ℕ}
    (hnode : s.nodes[a]? = some node) (hvalue : node.data[pos]? = some (.value value)) : s.Deliverable a pos node := by
  rcases hcells.linked a node pos value hnode hvalue with ha | hlink
  · rcases hcells.claimed a node pos _ hnode hvalue nofun with hle | hget
    · obtain ⟨k, hk⟩ := List.mem_iff_getElem?.mp ha
      have hlt : pos < blockSize := hcells.length a node hnode ▸ (List.getElem?_eq_some_iff.mp hvalue).1
      have hr : r ≤ k := by
        by_contra hbehind
        have hdrained := h.drained a ⟨k, Nat.not_le.mp hbehind, hk⟩ node hnode
        omega
      obtain ⟨d, rfl⟩ := Nat.exists_eq_add_of_le hr
      exact .inl ⟨hle, h.ahead d hk⟩
    · exact .inr (.inl hget)
  · exact .inr (.inr hlink)

/-- What holds after a run with these calls to `push`, in which the queue gave these answers. -/
structure Reached (given : Multiset α) (os : List (Answer α)) (s : MpmcQueue n α) : Prop where
  safe : ∃ events answers chain r w, Safe s events answers chain r w ∧ CellsOk s.nodes s.place chain
  values : given = (os.map Answer.out).sum + s.inHand + s.stored

theorem Reached.step {given : Multiset α} {os : List (Answer α)} (h : Reached given os s) {event : Event n α}
    (hadvanced : Advanced s event) :
    ∃ t answer, s.step event = some (t, answer) ∧ Reached (given + event.pushed s) (os ++ [answer]) t := by
  obtain ⟨events, answers, chain, r, w, hsafe, hcells⟩ := h.safe
  obtain ⟨t, answer, hstep, events', answers', chain', r', w', hsafe', hstarts⟩ := hsafe.step hadvanced
  have hnew : ∀ i a b value, s.place i = .link a b value → s.nodes[b]? = some (newNode value) := by
    intro i a b value hplace
    have hok := hsafe.place i
    rw [hplace] at hok
    exact hok.2
  refine ⟨t, answer, hstep, ⟨events', answers', chain', r', w', hsafe', ?_⟩, ?_⟩
  · rcases step_turn hnew hstep with ⟨i, p', hplace, hturn, -⟩ | ⟨i, value, hplace, rfl, rfl, -⟩ | ⟨rfl, rfl, -⟩
    · rw [hplace]
      refine hcells.turn hturn hstarts hsafe'.ok fun a ha => ?_
      obtain ⟨-, -, -, hmem⟩ := hsafe.access ha
      exact hmem
    · exact hcells.goes hstarts (by rw [hplace]; nofun) (by rw [hplace]; nofun) _
    · exact ⟨hcells.length, hcells.claimed, fun a node pos value hnode hvalue =>
        (hcells.linked a node pos value hnode hvalue).imp_left fun ha => hstarts.subset ha⟩
  · have hvalues := step_values hnew hstep
    rw [List.map_append, List.sum_append, List.map_singleton, List.sum_singleton, h.values]
    calc (os.map Answer.out).sum + s.inHand + s.stored + event.pushed s
      _ = (os.map Answer.out).sum + (event.pushed s + s.inHand + s.stored) := by
        rw [add_comm _ (event.pushed s), add_assoc (event.pushed s), add_assoc (os.map Answer.out).sum, add_left_comm]
      _ = (os.map Answer.out).sum + answer.out + t.inHand + t.stored := by
        rw [hvalues, add_assoc, add_assoc, add_assoc]

theorem Reached.run : ∀ (events : List (Event n α)) {s : MpmcQueue n α} {given : Multiset α} {os : List (Answer α)},
    Reached given os s → (machine n α).Along Advanced s events →
      ∃ t answers, (machine n α).run s events = some (t, answers) ∧
        Reached (given + pushed s events) (os ++ answers) t
  | [], s, given, os, h, _ => by
    refine ⟨s, [], rfl, ?_⟩
    rw [List.append_nil, pushed, add_zero]
    exact h
  | event :: events, s, given, os, h, hadvanced => by
    obtain ⟨t, answer, hstep, ht⟩ := h.step hadvanced.1
    obtain ⟨u, answers, hrun, hu⟩ := ht.run events (Lib.Machine.along_step hadvanced hstep)
    refine ⟨u, answer :: answers, Lib.Machine.run_cons_of hstep hrun, ?_⟩
    rw [pushed, hstep]
    rw [List.append_assoc, add_assoc] at hu
    exact hu

/-! ### A run through two nodes -/

/-- A run in which `read_pos_` leaves no node too early. -/
def Leads (s : MpmcQueue n α) (events : List (Event n α)) (t : MpmcQueue n α) : Prop :=
  (∃ answers, (machine n α).run s events = some (t, answers)) ∧ (machine n α).Along Advanced s events

theorem Leads.cons {u : MpmcQueue n α} {event : Event n α} {events : List (Event n α)} {answer : Answer α}
    (hstep : s.step event = some (t, answer)) (hadvanced : Advanced s event) (h : Leads t events u) :
    Leads s (event :: events) u := by
  obtain ⟨⟨answers, hrun⟩, halong⟩ := h
  refine ⟨⟨answer :: answers, Lib.Machine.run_cons_of hstep hrun⟩, hadvanced, ?_⟩
  have hstep' : (machine n α).step s event = some (t, answer) := hstep
  rw [hstep']
  exact halong

theorem Leads.append {u : MpmcQueue n α} {events events' : List (Event n α)} (h : Leads s events t)
    (h' : Leads t events' u) : Leads s (events ++ events') u := by
  induction events generalizing s with
  | nil =>
    obtain ⟨⟨answers, hrun⟩, -⟩ := h
    cases hrun
    exact h'
  | cons event events ih =>
    obtain ⟨⟨answers, hrun⟩, hadvanced, halong⟩ := h
    obtain ⟨s', answer, answers', hstep, hrest, -⟩ := Lib.Machine.run_cons_inv hrun
    rw [hstep] at halong
    exact .cons hstep hadvanced (ih ⟨⟨answers', hrest⟩, halong⟩)

/-- There is one node, and only the thread `i` is in a call. -/
def alone (i : Fin n) (node : Node ℕ) (hazard : Option ℕ) (inside : HazardPointers.Place n 1 Pointer ℕ) (place : Place ℕ) :
    MpmcQueue n ℕ where
  nodes := [node]
  hazardPointers :=
    { shared := fun _ => some 0
      hazard := Function.update (fun _ _ => none) i fun _ => hazard
      place := Function.update (fun _ => .idle) i inside }
  place := Function.update (fun _ => .idle) i place

theorem alone_idle (i : Fin n) : alone i {} none .idle .idle = {} := by
  unfold alone
  rw [Function.update_eq_self, Function.update_eq_self, Function.update_eq_self]

section Alone

variable {i : Fin n} {node : Node ℕ} {hazard : Option ℕ} {inside : HazardPointers.Place n 1 Pointer ℕ} {place : Place ℕ}

/-- A thread has one slot. -/
theorem update_slot (ptr : Option ℕ) : Function.update (fun _ : Fin 1 => hazard) 0 ptr = fun _ => ptr :=
  funext fun pos => by rw [Subsingleton.elim pos 0, Function.update_self]

/-- A step that does not move `read_pos_`. -/
theorem leads_thread {t u : MpmcQueue n ℕ} {events : List (Event n ℕ)} {answer : Answer ℕ}
    (hstep : (alone i node hazard inside place).step (.thread i false) = some (t, answer)) (hplace : ∀ a b, place ≠ .moveRead a b)
    (h : Leads t events u) : Leads (alone i node hazard inside place) (.thread i false :: events) u := by
  refine .cons hstep (fun a b hmove => ?_) h
  have hself : (alone i node hazard inside place).place i = place := by
    simp only [alone, Function.update_self]
  exact absurd (hself.symm.trans hmove) (hplace a b)

theorem leads_protect (call : Call ℕ) : Leads (alone i node none .idle (.protect call)) (List.replicate 4 (.thread i false))
    (alone i node (some 0) .idle (call.first 0)) := by
  have hprotect : (alone i node none .idle (.protect call)).step (.thread i false) =
      some (alone i node none (.load 0 call.pointer none) (.protecting call), .nothing) := by
    simp [step, threadStep, alone, MpmcQueue.hazard, goes, HazardPointers.step, HazardPointers.goes]
  have hload : (alone i node none (.load 0 call.pointer none) (.protecting call)).step (.thread i false) =
      some (alone i node none (.store 0 call.pointer (some 0)) (.protecting call), .nothing) := by
    simp [step, threadStep, alone, protectStep, MpmcQueue.hazard, HazardPointers.step, HazardPointers.threadStep,
      HazardPointers.load, HazardPointers.goes]
  have hstore : (alone i node none (.store 0 call.pointer (some 0)) (.protecting call)).step (.thread i false) =
      some (alone i node (some 0) (.load 0 call.pointer (some 0)) (.protecting call), .nothing) := by
    simp [step, threadStep, alone, protectStep, MpmcQueue.hazard, HazardPointers.step, HazardPointers.threadStep,
      HazardPointers.setHazard, HazardPointers.goes, update_slot]
  have hagain : (alone i node (some 0) (.load 0 call.pointer (some 0)) (.protecting call)).step (.thread i false) =
      some (alone i node (some 0) .idle (call.first 0), .nothing) := by
    simp [step, threadStep, alone, protectStep, MpmcQueue.hazard, goes, HazardPointers.step, HazardPointers.threadStep,
      HazardPointers.load, HazardPointers.goes]
  exact leads_thread hprotect nofun (leads_thread hload nofun (leads_thread hstore nofun
    (leads_thread hagain nofun ⟨⟨[], rfl⟩, trivial⟩)))

theorem leads_leave : Leads (alone i node (some 0) .idle .leave) [.thread i false] (alone i node none .idle .idle) := by
  have hclear : (alone i node (some 0) .idle .leave).step (.thread i false) = some (alone i node none .idle .idle, .nothing) := by
    simp [step, threadStep, alone, MpmcQueue.hazard, goes, HazardPointers.step, HazardPointers.setHazard, update_slot]
  exact leads_thread hclear nofun ⟨⟨[], rfl⟩, trivial⟩

theorem leads_push (i : Fin n) (node : Node ℕ) (value : ℕ) (hlt : node.writePos < blockSize)
    (hempty : node.data[node.writePos]? = some .empty) :
    Leads (alone i node none .idle .idle) (.push i value :: List.replicate 7 (.thread i false))
      (alone i { node with writePos := node.writePos + 1, data := node.data.set node.writePos (.value value) } none .idle
        .idle) := by
  have hpush : (alone i node none .idle .idle).step (.push i value) =
      some (alone i node none .idle (.protect (.push value)), .nothing) := by
    simp [step, alone, goes]
  have hclaim : (alone i node (some 0) .idle (.claim 0 value)).step (.thread i false) =
      some (alone i { node with writePos := node.writePos + 1 } (some 0) .idle (.set 0 node.writePos value), .nothing) := by
    simp [step, threadStep, alone, Place.node, MpmcQueue.node, nodeStep, setNode, goes, Nat.not_le_of_lt hlt]
  have hset : (alone i { node with writePos := node.writePos + 1 } (some 0) .idle (.set 0 node.writePos value)).step
      (.thread i false) =
        some (alone i { node with writePos := node.writePos + 1, data := node.data.set node.writePos (.value value) } (some 0)
          .idle .leave, .nothing) := by
    simp [step, threadStep, alone, Place.node, MpmcQueue.node, nodeStep, setStep, Node.setValue, hempty, setNode, goes]
  exact .cons hpush trivial ((leads_protect (.push value)).append (leads_thread hclaim nofun
    (leads_thread hset nofun leads_leave)))

theorem leads_pop (i : Fin n) (node : Node ℕ) {value : ℕ} (hlt : node.readPos < blockSize) (hread : node.readPos < node.writePos)
    (hvalue : node.data[node.readPos]? = some (.value value)) :
    Leads (alone i node none .idle .idle) (.tryPop i :: List.replicate 9 (.thread i false))
      (alone i { node with readPos := node.readPos + 1, data := node.data.set node.readPos .taken } none .idle .idle) := by
  have hpop : (alone i node none .idle .idle).step (.tryPop i) = some (alone i node none .idle (.protect .pop), .nothing) := by
    simp [step, alone, goes]
  have hcompare : (alone i node (some 0) .idle (.compare 0)).step (.thread i false) =
      some (alone i node (some 0) .idle (.compareRead 0 node.writePos), .nothing) := by
    simp [step, threadStep, alone, Place.node, MpmcQueue.node, nodeStep, goes]
  have hless : (alone i node (some 0) .idle (.compareRead 0 node.writePos)).step (.thread i false) =
      some (alone i node (some 0) .idle (.claimRead 0), .nothing) := by
    simp [step, threadStep, alone, Place.node, MpmcQueue.node, nodeStep, goes, Nat.not_le_of_lt hread]
  have hclaim : (alone i node (some 0) .idle (.claimRead 0)).step (.thread i false) =
      some (alone i { node with readPos := node.readPos + 1 } (some 0) .idle (.get 0 node.readPos), .nothing) := by
    simp [step, threadStep, alone, Place.node, MpmcQueue.node, nodeStep, setNode, goes, Nat.not_le_of_lt hlt]
  have hget : (alone i { node with readPos := node.readPos + 1 } (some 0) .idle (.get 0 node.readPos)).step (.thread i false) =
      some (alone i { node with readPos := node.readPos + 1, data := node.data.set node.readPos .taken } (some 0) .idle .leave,
        .popped value) := by
    simp [step, threadStep, alone, Place.node, MpmcQueue.node, nodeStep, getStep, Node.getValue, hvalue, setNode, goes]
  exact .cons hpop trivial ((leads_protect .pop).append (leads_thread hcompare nofun (leads_thread hless nofun
    (leads_thread hclaim nofun (leads_thread hget nofun leads_leave)))))

end Alone

/-- `k` values have gone through the cells of the first node, and `m` cells are left. -/
def quiet (i : Fin n) (k m : ℕ) : MpmcQueue n ℕ :=
  alone i ⟨k, k, List.replicate k .taken ++ List.replicate m .empty, none⟩ none .idle .idle

def pushAndPop (i : Fin n) : List (Event n ℕ) :=
  .push i 5 :: List.replicate 7 (.thread i false) ++ .tryPop i :: List.replicate 9 (.thread i false)

theorem leads_pushAndPop (i : Fin n) {k m : ℕ} (hsize : k + (m + 1) = blockSize) :
    Leads (quiet i k (m + 1)) (pushAndPop i) (quiet i (k + 1) m) := by
  have hlt : k < blockSize := by omega
  have hempty : (List.replicate k Cell.taken ++ List.replicate (m + 1) (.empty : Cell ℕ))[k]? = some .empty := by
    rw [List.getElem?_append_right (by simp)]
    simp
  have htaken : (List.replicate k Cell.taken ++ List.replicate (m + 1) (.empty : Cell ℕ)).set k .taken =
      List.replicate (k + 1) Cell.taken ++ List.replicate m .empty := by
    rw [List.set_append_right _ _ (by simp), List.replicate_succ' (n := k)]
    simp [List.replicate_succ]
  have hvalue : ((List.replicate k Cell.taken ++ List.replicate (m + 1) (.empty : Cell ℕ)).set k (.value 5))[k]? =
      some (.value 5) :=
    List.getElem?_set_self (List.getElem?_eq_some_iff.mp hempty).1
  have hpop := leads_pop i ⟨k + 1, k, _, none⟩ hlt (Nat.lt_succ_self k) hvalue
  dsimp only at hpop
  rw [List.set_set, htaken] at hpop
  exact (leads_push i ⟨k, k, _, none⟩ 5 hlt hempty).append hpop

/-- The cells of a node are used up. -/
theorem leads_quiet (i : Fin n) : ∀ {m k : ℕ}, k + m = blockSize →
    Leads (quiet i k m) (List.replicate m (pushAndPop i)).flatten (quiet i blockSize 0)
  | 0, k, hsize => by
    rw [← hsize]
    exact ⟨⟨[], rfl⟩, trivial⟩
  | m + 1, k, hsize => by
    rw [List.replicate_succ, List.flatten_cons]
    exact (leads_pushAndPop i hsize).append (leads_quiet i (by omega))

/-- The thread `i` links a second node for its value, and `j` moves `read_pos_` to it, deletes the first one and pops. -/
def nextNode (i j : Fin n) : List (Event n ℕ) :=
  [.push i 6, .tryPop j] ++ List.replicate 7 (.thread i false) ++ List.replicate 8 (.thread j false) ++
    List.replicate 2 (.thread i false) ++ List.replicate 16 (.thread j false)

theorem leads_nextNode : ∃ t : MpmcQueue 2 ℕ, Leads (quiet 0 blockSize 0) (nextNode 0 1) t ∧ t.deleted = [0] ∧
    ∀ i, t.place i = .idle := by
  refine ⟨_, ⟨⟨_, rfl⟩, trivial, trivial, ?_⟩, rfl, Fin.forall_fin_two.mpr ⟨rfl, rfl⟩⟩
  iterate 17 refine ⟨nofun, ?_⟩
  refine ⟨fun a b hmove _ => ?_, ?_⟩
  -- `write_pos_` has moved on before
  · cases hmove
    nofun
  · iterate 15 refine ⟨nofun, ?_⟩
    trivial

/-! ### Every run -/

/-- In every run in which `read_pos_` leaves no node that `write_pos_` still points to, each access is to a node that is there, and
the values that were pushed are those that were popped, that a call to `push` has in its hand, and that are in a cell where
`try_pop` finds them. -/
theorem no_value_lost (n : ℕ) (α : Type) (events : List (Event n α)) (hadvanced : (machine n α).Along Advanced {} events) :
    ∃ s answers, (machine n α).run {} events = some (s, answers) ∧
      pushed {} events = (answers.map Answer.out).sum + s.inHand + s.stored ∧
      ∀ (a : ℕ) (node : Node α) (pos : ℕ) (value : α), s.nodes[a]? = some node → node.data[pos]? = some (.value value) →
        s.Deliverable a pos node := by
  have hstart : Reached 0 [] ({} : MpmcQueue n α) :=
    ⟨⟨[], [], [0], 0, 0, safe_start, cellsOk_start⟩, by rw [inHand_start, stored_start]; rfl⟩
  obtain ⟨s, answers, hrun, hreached⟩ := hstart.run events hadvanced
  rw [zero_add, List.nil_append] at hreached
  obtain ⟨events', answers', chain, r, w, hsafe, hcells⟩ := hreached.safe
  exact ⟨s, answers, hrun, hreached.values, fun a node pos value hnode hvalue => hsafe.deliverable hcells hnode hvalue⟩

/-- The first node is used up, and the next value goes through a second one. -/
theorem no_value_lost_two : ∃ s answers,
    (machine 2 ℕ).run {} ((List.replicate blockSize (pushAndPop 0)).flatten ++ nextNode 0 1) = some (s, answers) ∧
    pushed ({} : MpmcQueue 2 ℕ) ((List.replicate blockSize (pushAndPop 0)).flatten ++ nextNode 0 1) =
      (answers.map Answer.out).sum + s.inHand + s.stored ∧
    (∀ (a : ℕ) (node : Node ℕ) (pos : ℕ) (value : ℕ), s.nodes[a]? = some node → node.data[pos]? = some (.value value) →
      s.Deliverable a pos node) ∧
    s.deleted = [0] ∧ ∀ i, s.place i = .idle := by
  obtain ⟨t, hnext, hdeleted, hidle⟩ := leads_nextNode
  have hleads : Leads {} ((List.replicate blockSize (pushAndPop 0)).flatten ++ nextNode 0 1) t := by
    rw [← alone_idle 0]
    exact (leads_quiet 0 (zero_add blockSize)).append hnext
  obtain ⟨⟨answers, hrun⟩, halong⟩ := hleads
  obtain ⟨s, answers', hrun', hpushed, hcells⟩ := no_value_lost 2 ℕ _ halong
  obtain ⟨rfl, rfl⟩ := Prod.mk.inj (Option.some.inj (hrun.symm.trans hrun'))
  exact ⟨t, answers, hrun, hpushed, hcells, hdeleted, hidle⟩

end MpmcQueue

end TdUtils
