import TdUtils.Container.Ids

/-!
# Container.Runs — what ids mean over whole runs

`tracked_run` carries `Tracked` through every run in which `reset_id` meets no counter at its last
value.  Operations may be given stale ids, but no ids that were never returned: such an id can hit
the generation of a free slot.
-/

namespace TdUtils.Container

open Lib

universe u

variable {D : Type u} [Inhabited D] {c c' : Container D} {ids : List ℕ} {live : ℕ → Option D}

/-! ### Steps -/

/-- What an operation can do to a container. -/
inductive Stepped (c : Container D) : Op D → Container D → Answer D → Prop where
  | stored {data : D} {type : UInt8} {pos : ℕ} {c' : Container D}
      (h : c.store data type = some (c', pos)) :
      Stepped c (.create data type) c' (.id (c'.encodeId pos))
  | got (id : ℕ) : Stepped c (.get id) c (.data (c.get id))
  | stale {id : ℕ} (h : c.decodeId id = none) : Stepped c (.erase id) c .none
  | erased {id i : ℕ} (h : c.decodeId id = some i) : Stepped c (.erase id) (c.release i) .none
  | extracted {id i : ℕ} (data : D) (h : c.decodeId id = some i) :
      Stepped c (.extract id) (c.release i) (.data (some data))
  | reset {id i : ℕ} (h : c.decodeId id = some i) :
      Stepped c (.resetId id) (c.incGeneration i) (.id ((c.incGeneration i).encodeId i))

theorem stepped {op : Op D} {answer : Answer D} (hs : c.step op = some (c', answer)) :
    Stepped c op c' answer := by
  unfold step at hs
  cases op with
  | create data type =>
    obtain ⟨⟨c₁, id⟩, hc, heq⟩ := Option.map_eq_some_iff.mp hs
    obtain ⟨rfl, rfl⟩ := Prod.mk.inj heq
    obtain ⟨⟨c₂, pos⟩, hstore, heq⟩ := Option.map_eq_some_iff.mp hc
    obtain ⟨rfl, rfl⟩ := Prod.mk.inj heq
    exact .stored hstore
  | get id =>
    obtain ⟨rfl, rfl⟩ := Prod.mk.inj (Option.some.inj hs)
    exact .got id
  | erase id =>
    obtain ⟨rfl, rfl⟩ := Prod.mk.inj (Option.some.inj hs)
    unfold erase
    rcases hi : c.decodeId id with - | i
    · exact .stale hi
    · exact .erased hi
  | extract id =>
    obtain ⟨⟨c₁, data⟩, he, heq⟩ := Option.map_eq_some_iff.mp hs
    obtain ⟨rfl, rfl⟩ := Prod.mk.inj heq
    obtain ⟨i, hi, hslot⟩ := Option.bind_eq_some_iff.mp he
    obtain ⟨slot, -, heq⟩ := Option.map_eq_some_iff.mp hslot
    obtain ⟨rfl, rfl⟩ := Prod.mk.inj heq
    exact .extracted slot.data hi
  | resetId id =>
    obtain ⟨⟨c₁, id'⟩, hr, heq⟩ := Option.map_eq_some_iff.mp hs
    obtain ⟨rfl, rfl⟩ := Prod.mk.inj heq
    obtain ⟨i, hi, heq⟩ := Option.map_eq_some_iff.mp hr
    obtain ⟨rfl, rfl⟩ := Prod.mk.inj heq
    exact .reset hi

theorem step_create {data : D} {type : UInt8} {pos : ℕ} (h : c.store data type = some (c', pos)) :
    (machine D).step c (.create data type) = some (c', .id (c'.encodeId pos)) := by
  have hcreate : c.create data type = some (c', c'.encodeId pos) := by
    unfold create
    rw [h, Option.map_some]
  simp only [machine, step]
  rw [hcreate, Option.map_some]

theorem step_erase {id i : ℕ} (h : c.decodeId id = some i) :
    (machine D).step c (.erase id) = some (c.release i, .none) := by
  have herase : c.erase id = c.release i := by
    unfold erase
    rw [h, Option.elim_some]
  simp only [machine, step]
  rw [herase]

theorem step_resetId {id i : ℕ} (h : c.decodeId id = some i) :
    (machine D).step c (.resetId id) =
      some (c.incGeneration i, .id ((c.incGeneration i).encodeId i)) := by
  have hreset : c.resetId id = some (c.incGeneration i, (c.incGeneration i).encodeId i) := by
    unfold resetId
    rw [h, Option.map_some]
  simp only [machine, step]
  rw [hreset, Option.map_some]

theorem Tracked.release (h : Tracked c ids live) {id i : ℕ} (hid : id ∈ ids)
    (hi : c.decodeId id = some i) :
    Tracked (c.release i) ids (Function.update live id none) := by
  obtain ⟨-, -, -, hocc⟩ := h.decodeId_some hid hi
  have hb := bumped_release hocc.lt
  have hfree := emptySlots_release hocc.lt
  refine h.of_bumped hb hid hi ?_ fun hmem => ?_
  · rw [hfree]
    split_ifs
    · exact h.free_nodup.append (List.nodup_singleton _) (by simpa using hocc.not_free)
    · simpa using h.free_nodup
  · rw [hb.generation_self]
    rw [hfree] at hmem
    split_ifs at hmem with hcount
    · exact hcount
    · exact absurd (by simpa using hmem) hocc.not_free

omit [Inhabited D] in
theorem Tracked.reset (h : Tracked c ids live) {id i : ℕ} (hid : id ∈ ids)
    (hleft : CounterLeft c id) (hi : c.decodeId id = some i) :
    Tracked (c.incGeneration i) (ids ++ [(c.incGeneration i).encodeId i])
      (Function.update (Function.update live id none) ((c.incGeneration i).encodeId i)
        (live id)) := by
  obtain ⟨hl, hslot, hgen, hocc⟩ := h.decodeId_some hid hi
  have hb := bumped_incGeneration hocc.lt
  unfold CounterLeft at hleft
  rw [← hslot] at hleft
  have hself : (c.incGeneration i).generation i = c.generation i + 256 := by
    rw [hb.generation_self, Nat.mod_eq_of_lt (by omega)]
  obtain ⟨data, hdata⟩ := getElem?_of_lt hocc.lt
  have hlive : live id = some data := by
    rw [h.live_iff hl]
    exact ⟨hid, hslot ▸ hgen, hslot ▸ hdata⟩
  have hocc' : Occupied (c.incGeneration i) i :=
    ⟨hb.length_eq ▸ hocc.lt, hocc.not_free, by omega⟩
  have hnew : (c.incGeneration i).encodeId i ∉ ids := by
    intro hmem
    have hlt : (c.incGeneration i).generation i < 2 ^ 32 := by omega
    have heq := encodeId_eq _ hlt
    have hpast := hb.past hocc (h.generation_lt i) (h.ids_issued _ hmem) (by omega)
    omega
  rw [hlive]
  refine (h.of_bumped hb hid hi h.free_nodup fun hmem => ?_).add hocc' hnew ?_
  · exact absurd hmem hocc.not_free
  · unfold incGeneration
    rw [dataAt_setGeneration, hdata]

/-- `reset_id` meets no counter at its last value. -/
def ResetFits (c : Container D) : Op D → Prop
  | .resetId id => CounterLeft c id
  | _ => True

theorem Tracked.step {op : Op D} {answer : Answer D} (h : Tracked c ids live)
    (hfits : ResetFits c op) (hknown : op.Known ids) (hs : c.step op = some (c', answer)) :
    Tracked c' (ids ++ issued [(op, answer)]) (liveStep live (op, answer)) := by
  cases stepped hs with
  | stored hstore =>
    have hstored := h.stored hstore
    exact (h.of_stored hstored).add (h.occupied_stored hstored) (h.stored_new hstored)
      hstored.dataAt_self
  | got id => exact (List.append_nil ids).symm ▸ h
  | stale hi => exact (List.append_nil ids).symm ▸ h.of_not_decodeId hknown hi
  | erased hi => exact (List.append_nil ids).symm ▸ h.release hknown hi
  | extracted data hi => exact (List.append_nil ids).symm ▸ h.release hknown hi
  | reset hi => exact h.reset hknown hfits hi

/-! ### Runs -/

/-- Every operation of the run is given ids that were returned before it. -/
def KnownIds (events : List (Op D × Answer D)) : Prop :=
  ∀ before e after, events = before ++ e :: after → e.1.Known (issued before)

omit [Inhabited D] in
theorem knownIds_nil : KnownIds ([] : List (Op D × Answer D)) := by
  intro before e after h
  simp at h

omit [Inhabited D] in
theorem KnownIds.concat {events : List (Op D × Answer D)} {e : Op D × Answer D}
    (h : KnownIds events) (he : e.1.Known (issued events)) : KnownIds (events ++ [e]) := by
  intro before e' after hsplit
  rcases List.eq_nil_or_concat after with rfl | ⟨after, last, rfl⟩
  · obtain ⟨rfl, heq⟩ := List.append_inj' hsplit rfl
    cases heq
    exact he
  · have hsplit' : events ++ [e] = (before ++ e' :: after) ++ [last] := by
      rw [hsplit, List.concat_eq_append, List.append_assoc]
      rfl
    exact h before e' after (List.append_inj' hsplit' rfl).1

omit [Inhabited D] in
theorem live_concat (events : List (Op D × Answer D)) (e : Op D × Answer D) :
    Container.live (events ++ [e]) = liveStep (Container.live events) e :=
  List.foldl_append

theorem tracked_run {events : List (Op D × Answer D)} (hrun : (machine D).History new events c)
    (hknown : KnownIds events) (hfits : (machine D).Along ResetFits new (events.map Prod.fst)) :
    Tracked c (issued events) (Container.live events) := by
  let P := fun (events : List (Op D × Answer D)) c => Tracked c (issued events) (Container.live events)
  have hstep : ∀ events c op c' answer, P events c → ResetFits c op → op.Known (issued events) →
      (machine D).step c op = some (c', answer) → P (events ++ [(op, answer)]) c' := by
    intro events c op c' answer h hfit huse hs
    have hnext := h.step hfit huse hs
    rwa [← issued_append, ← live_concat] at hnext
  exact Machine.history_inv hstep events [] tracked_new hfits hrun hknown

/-! ### Dead ids stay dead -/

/-- The operation ends the life of an id. -/
def Op.Kills : Op D → ℕ → Prop
  | .create _ _, _ | .get _, _ => False
  | .erase id, id' | .extract id, id' | .resetId id, id' => id = id'

omit [Inhabited D] in
/-- A dead id comes back only by being issued again. -/
theorem liveStep_dead {e : Op D × Answer D} {id : ℕ} (hdead : live id = none ∨ e.1.Kills id)
    (hnew : id ∉ issued [e]) : liveStep live e id = none := by
  have hupdate : ∀ id', live id = none ∨ id' = id → (Function.update live id' none) id = none := by
    rintro id' (hnone | rfl)
    · rw [Function.update_apply, hnone, ite_self]
    · exact Function.update_self _ _ _
  rcases e with ⟨op, answer⟩
  cases op with
  | create data type =>
    have hnone := hdead.resolve_right False.elim
    cases answer with
    | id id' =>
      have hne : id ≠ id' := fun heq => hnew (by simp [issued, heq])
      exact (Function.update_of_ne hne _ _).trans hnone
    | data data => exact hnone
    | none => exact hnone
  | get id' => exact hdead.resolve_right False.elim
  | erase id' => exact hupdate id' hdead
  | extract id' => exact hupdate id' hdead
  | resetId id' =>
    cases answer with
    | id id'' =>
      have hne : id ≠ id'' := fun heq => hnew (by simp [issued, heq])
      exact (Function.update_of_ne hne _ _).trans (hupdate id' hdead)
    | data data => exact hupdate id' hdead
    | none => exact hupdate id' hdead

omit [Inhabited D] in
theorem foldl_dead {id : ℕ} (events : List (Op D × Answer D)) (hdead : live id = none)
    (hnew : id ∉ issued events) : events.foldl liveStep live id = none := by
  induction events generalizing live with
  | nil => exact hdead
  | cons e events ih =>
    have hsplit := issued_append [e] events
    rw [List.singleton_append] at hsplit
    rw [hsplit, List.mem_append, not_or] at hnew
    exact ih (liveStep_dead (Or.inl hdead) hnew.1) hnew.2

omit [Inhabited D] in
theorem mem_issued_of_kills {op : Op D} {id : ℕ} (hknown : op.Known ids) (hkills : op.Kills id) :
    id ∈ ids := by
  cases op with
  | create data type => exact hkills.elim
  | get id' => exact hkills.elim
  | erase id' => exact hkills ▸ hknown
  | extract id' => exact hkills ▸ hknown
  | resetId id' => exact hkills ▸ hknown

omit [Inhabited D] in
theorem KnownIds.mem_issued {events before after : List (Op D × Answer D)} {e : Op D × Answer D}
    {id : ℕ} (hknown : KnownIds events) (hsplit : events = before ++ e :: after)
    (hkills : e.1.Kills id) : id ∈ issued events := by
  rw [hsplit, issued_append]
  exact List.mem_append_left _ (mem_issued_of_kills (hknown before e after hsplit) hkills)

omit [Inhabited D] in
theorem live_of_kills {events before after : List (Op D × Answer D)} {e : Op D × Answer D} {id : ℕ}
    (hnodup : (issued events).Nodup) (hknown : KnownIds events)
    (hsplit : events = before ++ e :: after) (hkills : e.1.Kills id) :
    Container.live events id = none := by
  have hmem := mem_issued_of_kills (hknown before e after hsplit) hkills
  have hissued : issued events = issued before ++ (issued [e] ++ issued after) := by
    rw [← issued_append, ← issued_append, hsplit]
    rfl
  rw [hissued] at hnodup
  have hnew : id ∉ issued [e] ++ issued after := List.disjoint_of_nodup_append hnodup hmem
  rw [List.mem_append, not_or] at hnew
  unfold Container.live
  rw [hsplit, List.foldl_append, List.foldl_cons]
  exact foldl_dead after (liveStep_dead (Or.inr hkills) hnew.1) hnew.2

omit [Inhabited D] in
theorem Tracked.zero_not_mem (h : Tracked c ids live) : 0 ∉ ids := by
  intro hmem
  have hcount := (h.ids_issued 0 hmem).counter
  omega

/-! ### Containers without `reset_id` -/

def Op.IsReset : Op D → Prop
  | .resetId _ => True
  | _ => False

/-- `create` finds a free slot, or its new slot is not the last one that the `CHECK` lets through. -/
def CreateFits (c : Container D) : Op D → Prop
  | .create _ _ => c.emptySlots = [] → c.slots.length < 2 ^ 31 - 1
  | _ => True

instance decidableResetFits (c : Container D) : ∀ op, Decidable (c.ResetFits op)
  | .resetId id => inferInstanceAs (Decidable (c.generation (id / 2 ^ 32) < (2 ^ 24 - 1) * 256))
  | .create _ _ | .get _ | .erase _ | .extract _ => isTrue trivial

instance decidableCreateFits (c : Container D) : ∀ op, Decidable (c.CreateFits op)
  | .create _ _ => inferInstanceAs (Decidable (c.emptySlots = [] → c.slots.length < 2 ^ 31 - 1))
  | .resetId _ | .get _ | .erase _ | .extract _ => isTrue trivial

theorem length_release (i : ℕ) : (c.release i).slots.length = c.slots.length := by
  rw [slots_release, length_setData]
  exact length_setGeneration

theorem Tracked.step_length {op : Op D} {answer : Answer D} (h : Tracked c ids live)
    (hfits : CreateFits c op) (hs : c.step op = some (c', answer)) (hl : c.slots.length < 2 ^ 31) :
    c'.slots.length < 2 ^ 31 := by
  cases stepped hs with
  | stored hstore =>
    rcases (h.stored hstore).pos_eq with ⟨-, hlen, -⟩ | ⟨-, hlen, -, -, hfree⟩
    · omega
    · have hlast := hfits hfree
      omega
  | got id => exact hl
  | stale hi => exact hl
  | erased hi =>
    rw [length_release]
    exact hl
  | extracted data hi =>
    rw [length_release]
    exact hl
  | reset hi => exact length_setGeneration.symm ▸ hl

theorem length_run {events : List (Op D × Answer D)} (hrun : (machine D).History new events c)
    (hknown : KnownIds events)
    (hfits : (machine D).Along (fun c op => ResetFits c op ∧ CreateFits c op) new
      (events.map Prod.fst)) :
    c.slots.length < 2 ^ 31 := by
  let P := fun (events : List (Op D × Answer D)) c =>
    Tracked c (issued events) (Container.live events) ∧ c.slots.length < 2 ^ 31
  have hstep : ∀ events c op c' answer, P events c → ResetFits c op ∧ CreateFits c op →
      op.Known (issued events) → (machine D).step c op = some (c', answer) →
      P (events ++ [(op, answer)]) c' := by
    intro events c op c' answer h hfit huse hs
    have hnext := h.1.step hfit.1 huse hs
    rw [← issued_append, ← live_concat] at hnext
    exact ⟨hnext, h.1.step_length hfit.2 hs h.2⟩
  exact (Machine.history_inv hstep events [] ⟨tracked_new, Nat.two_pow_pos 31⟩ hfits hrun hknown).2

/-- What ids are to mean: they are unique, and resolve to their data until `erase` or `extract`, for
ever after to nothing. -/
structure IdsOk (c : Container D) (events : List (Op D × Answer D)) : Prop where
  nodup : (issued events).Nodup
  ne_zero : ∀ id ∈ issued events, id ≠ 0
  get_eq : ∀ id ∈ issued events, c.get id = Container.live events id
  dead : ∀ before e after id, events = before ++ e :: after → e.1.Kills id → c.get id = none

theorem ids_ok {events : List (Op D × Answer D)} (hrun : (machine D).History new events c)
    (hknown : KnownIds events) (hreset : ∀ e ∈ events, ¬e.1.IsReset)
    (hfits : (machine D).Along CreateFits new (events.map Prod.fst)) : IdsOk c events := by
  have hboth : (machine D).Along (fun c op => ResetFits c op ∧ CreateFits c op) new
      (events.map Prod.fst) := by
    refine Machine.along_mono (fun c op hop hfit => ⟨?_, hfit⟩) hfits
    obtain ⟨e, he, rfl⟩ := List.mem_map.mp hop
    have hnot := hreset e he
    rcases e with ⟨op, answer⟩
    cases op with
    | resetId id => exact absurd trivial hnot
    | _ => trivial
  have htracked := tracked_run hrun hknown (Machine.along_mono (fun _ _ _ h => h.1) hboth)
  have hl := length_run hrun hknown hboth
  have hget := fun id (hid : id ∈ issued events) => htracked.get_eq hl hid
  refine ⟨htracked.ids_nodup, fun id hid heq => htracked.zero_not_mem (heq ▸ hid), hget, ?_⟩
  intro before e after id hsplit hkills
  rw [hget id (hknown.mem_issued hsplit hkills)]
  exact live_of_kills htracked.ids_nodup hknown hsplit hkills

/-- One create, one erase, and a slot that is used again. -/
theorem ids_ok_reused :
    IdsOk (D := Bool) ⟨[⟨515, true⟩], []⟩ [(.create false 7, .id 263), (.erase 263, .none),
      (.create true 3, .id 515)] := by
  refine ids_ok (by decide) ?_ (by simp [Op.IsReset]) (by decide)
  refine ((knownIds_nil.concat ?_).concat ?_).concat ?_
  · trivial
  · exact List.mem_singleton.mpr rfl
  · trivial

/-- `create` goes on until there are `2 ^ 31` slots. -/
theorem exists_creates (n : ℕ) (hn : n ≤ 2 ^ 31) :
    ∃ (events : List (Op Unit × Answer Unit)) (c : Container Unit),
      (machine Unit).History new events c ∧ KnownIds events ∧ (∀ e ∈ events, ¬e.1.IsReset) ∧
      c.slots.length = n ∧ c.emptySlots = [] ∧
      (n ≠ 0 → ∃ id ∈ issued events, Container.live events id = some ()) := by
  induction n with
  | zero =>
    exact ⟨[], new, Machine.history_nil _, knownIds_nil, by simp, rfl, rfl, fun h => absurd rfl h⟩
  | succ n ih =>
    obtain ⟨events, c, hrun, hknown, hreset, hlen, hfree, -⟩ := ih (by omega)
    let c' : Container Unit := ⟨c.slots ++ [⟨generationStep + UInt8.toNat 0, ()⟩], []⟩
    have hstore : c.store () 0 = some (c', n) := hlen ▸ store_fresh hfree (by omega)
    refine ⟨events ++ [(.create () 0, .id (c'.encodeId n))], c',
      Machine.history_concat hrun (step_create hstore), hknown.concat ?_, ?_, by simp [c', hlen], rfl,
      fun _ => ⟨c'.encodeId n, ?_, ?_⟩⟩
    · trivial
    · intro e he
      rcases List.mem_append.mp he with he | he
      · exact hreset e he
      · rw [List.mem_singleton.mp he]
        exact not_false
    · rw [issued_append]
      exact List.mem_append_right _ (List.mem_singleton.mpr rfl)
    · rw [live_concat]
      exact Function.update_self _ _ _

/-- With `2 ^ 31` slots their number is negative as an `int32`, and no id resolves. -/
theorem ids_full : ¬∀ (events : List (Op Unit × Answer Unit)) (c : Container Unit),
    (machine Unit).History new events c → KnownIds events → (∀ e ∈ events, ¬e.1.IsReset) →
    IdsOk c events := by
  intro hall
  obtain ⟨events, c, hrun, hknown, hreset, hlen, -, hlive⟩ := exists_creates (2 ^ 31) (Nat.le_refl _)
  obtain ⟨id, hid, hdata⟩ := hlive (Nat.two_pow_pos 31).ne'
  have hget := (hall events c hrun hknown hreset).get_eq id hid
  rw [get_of_not_decodeId (decodeId_full hlen id), hdata] at hget
  cases hget

/-! ### Containers with `reset_id` -/

/-- What ids are to mean when they can be reset. -/
structure ResetIdsOk (c : Container D) (events : List (Op D × Answer D)) : Prop where
  nodup : (issued events).Nodup
  ne_zero : ∀ id ∈ issued events, id ≠ 0
  dead : ∀ before e after id, events = before ++ e :: after → e.1.Kills id → c.decodeId id = none

omit [Inhabited D] in
theorem Tracked.decodeId_of_dead (h : Tracked c ids live) {id : ℕ} (hid : id ∈ ids)
    (hdead : live id = none) : c.decodeId id = none := by
  rw [h.decodeId_eq hid]
  split_ifs with hcur
  · obtain ⟨data, hdata⟩ := getElem?_of_lt (h.ids_issued id hid).lt
    have hlive := (h.live_iff hcur.1 id data).mpr ⟨hid, hcur.2, hdata⟩
    rw [hdead] at hlive
    cases hlive
  · rfl

theorem reset_ids_ok {events : List (Op D × Answer D)} (hrun : (machine D).History new events c)
    (hknown : KnownIds events) (hfits : (machine D).Along ResetFits new (events.map Prod.fst)) :
    ResetIdsOk c events := by
  have htracked := tracked_run hrun hknown hfits
  refine ⟨htracked.ids_nodup, fun id hid heq => htracked.zero_not_mem (heq ▸ hid), ?_⟩
  intro before e after id hsplit hkills
  exact htracked.decodeId_of_dead (hknown.mem_issued hsplit hkills)
    (live_of_kills htracked.ids_nodup hknown hsplit hkills)

/-- Ids 256 and 768 of the first slot are gone, 512 was never accepted after the reset. -/
theorem reset_ids_ok_twice :
    ResetIdsOk (D := Bool) ⟨[⟨1024, false⟩], [0]⟩ [(.create true 0, .id 256),
      (.resetId 256, .id 512), (.resetId 512, .id 768), (.erase 768, .none)] := by
  refine reset_ids_ok (by decide) ?_ (by decide)
  refine (((knownIds_nil.concat ?_).concat ?_).concat ?_).concat ?_
  · trivial
  · simp [Op.Known, issued]
  · simp [Op.Known, issued]
  · simp [Op.Known, issued]

omit [Inhabited D] in
theorem decodeId_single {g : ℕ} (hg : g < 2 ^ 32) (data : D) (free : List ℕ) :
    (⟨[⟨g, data⟩], free⟩ : Container D).decodeId g = some 0 := by
  have hslot : g / 2 ^ 32 = 0 := Nat.div_eq_of_lt hg
  have hlen : g / 2 ^ 32 < (⟨[⟨g, data⟩], free⟩ : Container D).slots.length := by
    rw [hslot]
    exact Nat.one_pos
  rw [decodeId_of_lt (by simp) hlen, hslot, Nat.mod_eq_of_lt hg]
  exact if_pos rfl

omit [Inhabited D] in
theorem encodeId_single {g : ℕ} (hg : g < 2 ^ 32) (data : D) (free : List ℕ) :
    (⟨[⟨g, data⟩], free⟩ : Container D).encodeId 0 = g := by
  have hgen : (⟨[⟨g, data⟩], free⟩ : Container D).generation 0 = g := rfl
  rw [encodeId_eq _ (hgen.symm ▸ hg), hgen, Nat.zero_mul, Nat.zero_add]

omit [Inhabited D] in
theorem incGeneration_single (g : ℕ) (data : D) (free : List ℕ) :
    (⟨[⟨g, data⟩], free⟩ : Container D).incGeneration 0 = ⟨[⟨(g + 256) % 2 ^ 32, data⟩], free⟩ := rfl

/-- A slot that is reset again and again. -/
theorem exists_resets (n : ℕ) (hn : n < 2 ^ 24) :
    ∃ events : List (Op Unit × Answer Unit),
      (machine Unit).History new events ⟨[⟨256 * (n + 1) % 2 ^ 32, ()⟩], []⟩ ∧ KnownIds events ∧
      256 * (n + 1) % 2 ^ 32 ∈ issued events := by
  induction n with
  | zero =>
    exact ⟨[(.create () 0, .id 256)], rfl, knownIds_nil.concat trivial, List.mem_singleton.mpr rfl⟩
  | succ n ih =>
    obtain ⟨events, hrun, hknown, hmem⟩ := ih (by omega)
    have hnext : (256 * (n + 1) % 2 ^ 32 + 256) % 2 ^ 32 = 256 * (n + 1 + 1) % 2 ^ 32 := by omega
    have hstep := step_resetId (decodeId_single (Nat.mod_lt (256 * (n + 1)) (by decide)) () [])
    rw [incGeneration_single, encodeId_single (Nat.mod_lt _ (by decide)), hnext] at hstep
    refine ⟨_, Machine.history_concat hrun hstep, hknown.concat hmem, ?_⟩
    rw [issued_append]
    exact List.mem_append_right _ (List.mem_singleton.mpr rfl)

/-- The counter overflows in the `reset_id` after `2 ^ 24 - 2` others, and the id is zero. -/
theorem reset_overflow : ¬∀ (events : List (Op Unit × Answer Unit)) (c : Container Unit),
    (machine Unit).History new events c → KnownIds events → ResetIdsOk c events := by
  intro hall
  obtain ⟨events, hrun, hknown, hmem⟩ := exists_resets (2 ^ 24 - 1) (by decide)
  have hzero : 256 * (2 ^ 24 - 1 + 1) % 2 ^ 32 = 0 := by decide
  rw [hzero] at hmem
  exact (hall events _ hrun hknown).ne_zero 0 hmem rfl

end TdUtils.Container
