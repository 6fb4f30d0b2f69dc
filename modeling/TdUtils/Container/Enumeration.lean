import TdUtils.Container.Runs

/-!
# Container.Enumeration — the objects that are left

`ids` lists the slots that are not free.  That they are the live ones takes more than `Tracked`: a slot
that `release` retires is not free either.
-/

namespace TdUtils.Container

open Lib

universe u

variable {D : Type u} {c c' : Container D} {ids : List ℕ} {live : ℕ → Option D}

/-! ### The list of ids -/

theorem getD_foldl_set (free : List ℕ) (isBad : List Bool) {i : ℕ} (hi : i < isBad.length) :
    (free.foldl (fun isBad id => isBad.set id true) isBad).getD i false =
      (decide (i ∈ free) || isBad.getD i false) := by
  induction free generalizing isBad with
  | nil => simp
  | cons id free ih =>
    rw [List.foldl_cons, ih _ (by rwa [List.length_set])]
    by_cases h : i = id
    · subst h
      simp [hi]
    · simp [List.getD, h, Ne.symm h]

/-- The slots that are not free. -/
def usedSlots (c : Container D) : List ℕ :=
  (List.range c.slots.length).filter fun i => i ∉ c.emptySlots

theorem mem_usedSlots {i : ℕ} : i ∈ c.usedSlots ↔ i < c.slots.length ∧ i ∉ c.emptySlots := by
  simp [usedSlots]

theorem usedSlots_nodup (c : Container D) : c.usedSlots.Nodup := List.nodup_range.filter _

theorem ids_eq (c : Container D) : c.ids = c.usedSlots.map c.encodeId := by
  unfold ids usedSlots
  dsimp only
  congr 1
  apply List.filter_congr
  intro i hi
  have hlt := List.mem_range.mp hi
  rw [getD_foldl_set _ _ (by simpa using hlt)]
  simp [List.getD, hlt]

/-- The free slots and the others are all slots. -/
theorem length_usedSlots (hlt : ∀ i ∈ c.emptySlots, i < c.slots.length) (hnodup : c.emptySlots.Nodup) :
    c.emptySlots.length + c.usedSlots.length = c.slots.length := by
  have hperm : ((List.range c.slots.length).filter fun i => i ∈ c.emptySlots).Perm c.emptySlots := by
    rw [List.perm_ext_iff_of_nodup (List.nodup_range.filter _) hnodup]
    intro i
    simpa using hlt i
  have hsum := List.length_eq_length_filter_add (l := List.range c.slots.length)
    fun i => decide (i ∈ c.emptySlots)
  rw [List.length_range, hperm.length_eq] at hsum
  rw [hsum]
  simp [usedSlots]

/-! ### No slot is lost -/

/-- The id of every slot that is not free has been returned. -/
def NoneLost (c : Container D) (ids : List ℕ) : Prop := ∀ i ∈ c.usedSlots, c.encodeId i ∈ ids

/-- What is to hold so that the container can be enumerated: `create` has a slot left, and no counter is
at its last value. -/
def Fits (c : Container D) : Op D → Prop
  | .create data type => CreateFits c (.create data type)
  | .get _ => True
  | .erase id | .extract id | .resetId id => CounterLeft c id

theorem encodeId_congr {i : ℕ} (h : c'.generation i = c.generation i) :
    c'.encodeId i = c.encodeId i := by
  unfold encodeId
  rw [h]

theorem NoneLost.of_stored (h : NoneLost c ids) {data : D} {pos : ℕ}
    (hs : Stored c c' data pos) : NoneLost c' (ids ++ [c'.encodeId pos]) := by
  intro i hi
  obtain ⟨hlt, hfree⟩ := mem_usedSlots.mp hi
  by_cases hpos : i = pos
  · rw [hpos]
    exact List.mem_append_right _ (List.mem_singleton.mpr rfl)
  · rw [encodeId_congr (hs.generation_other i hpos)]
    refine List.mem_append_left _ (h i (mem_usedSlots.mpr ⟨?_, fun hmem => ?_⟩))
    · rcases hs.pos_eq with ⟨-, hlen, -⟩ | ⟨hnew, hlen, -⟩ <;> omega
    · exact hfree ((hs.mem_free i).mpr ⟨hmem, hpos⟩)

theorem NoneLost.of_bumped {ids' : List ℕ} (h : NoneLost c ids) {i : ℕ} (hb : Bumped c c' i)
    (hi : i ∈ c'.emptySlots ∨ c'.encodeId i ∈ ids') (hsub : ∀ id ∈ ids, id ∈ ids') :
    NoneLost c' ids' := by
  intro j hj
  obtain ⟨hlt, hfree⟩ := mem_usedSlots.mp hj
  by_cases hji : j = i
  · rw [hji] at hfree ⊢
    exact hi.resolve_left hfree
  · rw [encodeId_congr (hb.generation_other j hji)]
    refine hsub _ (h j (mem_usedSlots.mpr ⟨hb.length_eq ▸ hlt, fun hmem => ?_⟩))
    exact hfree ((hb.free_other j hji).mpr hmem)

theorem Fits.reset {op : Op D} (h : Fits c op) : ResetFits c op := by
  cases op with
  | resetId id => exact h
  | _ => trivial

theorem Fits.create {op : Op D} (h : Fits c op) : CreateFits c op := by
  cases op with
  | create data type => exact h
  | _ => trivial

variable [Inhabited D]

theorem NoneLost.release (h : NoneLost c ids) (ht : Tracked c ids live) {id i : ℕ} (hid : id ∈ ids)
    (hleft : CounterLeft c id) (hi : c.decodeId id = some i) : NoneLost (c.release i) ids := by
  obtain ⟨-, hslot, -, hocc⟩ := ht.decodeId_some hid hi
  unfold CounterLeft at hleft
  rw [← hslot] at hleft
  refine h.of_bumped (bumped_release hocc.lt) (Or.inl ?_) fun _ hmem => hmem
  rw [emptySlots_release hocc.lt, if_pos (by omega)]
  exact List.mem_append_right _ (List.mem_singleton.mpr rfl)

theorem NoneLost.step {op : Op D} {answer : Answer D} (h : NoneLost c ids) (ht : Tracked c ids live)
    (hfits : Fits c op) (hknown : op.Known ids) (hs : c.step op = some (c', answer)) :
    NoneLost c' (ids ++ issued [(op, answer)]) := by
  cases stepped hs with
  | stored hstore => exact h.of_stored (ht.stored hstore)
  | got id => exact (List.append_nil ids).symm ▸ h
  | stale hi => exact (List.append_nil ids).symm ▸ h
  | erased hi => exact (List.append_nil ids).symm ▸ h.release ht hknown hfits hi
  | extracted data hi => exact (List.append_nil ids).symm ▸ h.release ht hknown hfits hi
  | reset hi =>
    obtain ⟨-, -, -, hocc⟩ := ht.decodeId_some hknown hi
    refine h.of_bumped (bumped_incGeneration hocc.lt) (Or.inr ?_) fun id hid => ?_
    · exact List.mem_append_right _ (List.mem_singleton.mpr rfl)
    · exact List.mem_append_left _ hid

theorem noneLost_run {events : List (Op D × Answer D)} (hrun : (machine D).History new events c)
    (hknown : KnownIds events) (hfits : (machine D).Along Fits new (events.map Prod.fst)) :
    NoneLost c (issued events) := by
  let P := fun (events : List (Op D × Answer D)) c =>
    Tracked c (issued events) (Container.live events) ∧ NoneLost c (issued events)
  have hstep : ∀ events c op c' answer, P events c → Fits c op → op.Known (issued events) →
      (machine D).step c op = some (c', answer) → P (events ++ [(op, answer)]) c' := by
    intro events c op c' answer h hfit huse hs
    have hnext := h.1.step hfit.reset huse hs
    have hlost := h.2.step h.1 hfit huse hs
    rw [← issued_append] at hnext hlost
    rw [← live_concat] at hnext
    exact ⟨hnext, hlost⟩
  have hnew : NoneLost (new : Container D) [] := fun i hi => absurd (mem_usedSlots.mp hi).1 (by simp [new])
  exact (Machine.history_inv hstep events [] ⟨tracked_new, hnew⟩ hfits hrun hknown).2

/-! ### Enumeration -/

omit [Inhabited D] in
theorem Tracked.mem_ids (h : Tracked c ids live) (hlost : NoneLost c ids)
    (hl : c.slots.length < 2 ^ 31) {id : ℕ} {data : D} :
    live id = some data ↔ id ∈ c.ids ∧ c.get id = some data := by
  rw [ids_eq, List.mem_map]
  constructor
  · intro hlive
    obtain ⟨hid, hgen, hdata⟩ := (h.live_iff hl id data).mp hlive
    have hocc := (h.ids_issued id hid).current hgen
    refine ⟨⟨id / 2 ^ 32, mem_usedSlots.mpr ⟨hocc.lt, hocc.not_free⟩, ?_⟩, ?_⟩
    · rw [encodeId_eq c (h.generation_lt _), hgen]
      omega
    · rw [h.get_eq hl hid, hlive]
  · rintro ⟨⟨i, hi, rfl⟩, hget⟩
    rw [h.get_eq hl (hlost i hi)] at hget
    exact hget

omit [Inhabited D] in
theorem Tracked.get_ids (h : Tracked c ids live) (hlost : NoneLost c ids)
    (hl : c.slots.length < 2 ^ 31) {id : ℕ} (hid : id ∈ c.ids) : ∃ data, c.get id = some data := by
  rw [ids_eq, List.mem_map] at hid
  obtain ⟨i, hi, rfl⟩ := hid
  have hmem := hlost i hi
  have hlt := h.generation_lt i
  have heq := encodeId_eq c hlt
  have hslot : c.encodeId i / 2 ^ 32 = i := by omega
  have hgen : c.generation (c.encodeId i / 2 ^ 32) = c.encodeId i % 2 ^ 32 := by
    rw [hslot]
    omega
  obtain ⟨data, hdata⟩ := getElem?_of_lt (h.ids_issued _ hmem).lt
  exact ⟨data, by rw [h.get_eq hl hmem, (h.live_iff hl _ data).mpr ⟨hmem, hgen, hdata⟩]⟩

omit [Inhabited D] in
theorem Tracked.ids_nodup' (h : Tracked c ids live) : c.ids.Nodup := by
  rw [ids_eq]
  refine c.usedSlots_nodup.map_on fun i _ j _ heq => ?_
  have hi := h.generation_lt i
  have hj := h.generation_lt j
  rw [encodeId_eq c hi, encodeId_eq c hj] at heq
  omega

/-- What the enumeration of a container is to say about the live objects. -/
structure EnumOk (c : Container D) (live : ℕ → Option D) : Prop where
  nodup : c.ids.Nodup
  mem_ids : ∀ id, id ∈ c.ids ↔ live id ≠ none
  visits : ∃ visits, c.forEach = some visits ∧ visits.map Prod.fst = c.ids ∧
    ∀ visit ∈ visits, live visit.1 = some visit.2
  size_eq : c.size = some c.ids.length
  empty_iff : ∃ isEmpty, c.empty = some isEmpty ∧ (isEmpty = true ↔ ∀ id, live id = none)

omit [Inhabited D] in
theorem mapM_get (l : List ℕ) (h : ∀ id ∈ l, ∃ data, c.get id = some data) :
    ∃ visits, l.mapM (fun id => (c.get id).map fun data => (id, data)) = some visits ∧
      visits.map Prod.fst = l ∧ ∀ visit ∈ visits, c.get visit.1 = some visit.2 := by
  induction l with
  | nil => exact ⟨[], rfl, rfl, by simp⟩
  | cons id l ih =>
    obtain ⟨data, hdata⟩ := h id (by simp)
    obtain ⟨visits, hvisits, hfst, hget⟩ := ih fun id' hid' => h id' (by simp [hid'])
    refine ⟨(id, data) :: visits, ?_, by simp [hfst], ?_⟩
    · simp [List.mapM_cons, hdata, hvisits]
    · exact List.forall_mem_cons.mpr ⟨hdata, hget⟩

omit [Inhabited D] in
theorem Tracked.enumOk (h : Tracked c ids live) (hlost : NoneLost c ids)
    (hl : c.slots.length < 2 ^ 31) : EnumOk c live := by
  have hlive : ∀ id, id ∈ c.ids ↔ live id ≠ none := by
    intro id
    constructor
    · intro hid
      obtain ⟨data, hdata⟩ := h.get_ids hlost hl hid
      rw [(h.mem_ids hlost hl).mpr ⟨hid, hdata⟩]
      exact Option.some_ne_none data
    · intro hne
      obtain ⟨data, hdata⟩ := Option.ne_none_iff_exists'.mp hne
      exact ((h.mem_ids hlost hl).mp hdata).1
  have hcount := length_usedSlots h.free_lt h.free_nodup
  have hlen : c.ids.length = c.usedSlots.length := by
    rw [ids_eq, List.length_map]
  have hsize : c.size = some c.ids.length := by
    unfold size
    rw [if_pos (by omega)]
    congr 1
    omega
  refine ⟨h.ids_nodup', hlive, ?_, hsize, c.ids.length == 0, ?_, ?_⟩
  · obtain ⟨visits, hvisits, hfst, hget⟩ := mapM_get c.ids fun id => h.get_ids hlost hl
    refine ⟨visits, hvisits, hfst, fun visit hv => ?_⟩
    rw [h.mem_ids hlost hl]
    exact ⟨hfst ▸ List.mem_map_of_mem hv, hget visit hv⟩
  · unfold empty
    rw [hsize, Option.map_some]
  · rw [beq_iff_eq, List.length_eq_zero_iff, List.eq_nil_iff_forall_not_mem]
    exact forall_congr' fun id => by rw [hlive id, not_not]

/-- The enumeration is right as long as no slot is used up. -/
theorem enum_ok {events : List (Op D × Answer D)} (hrun : (machine D).History new events c)
    (hknown : KnownIds events) (hfits : (machine D).Along Fits new (events.map Prod.fst)) :
    EnumOk c (Container.live events) := by
  have htracked := tracked_run hrun hknown (Machine.along_mono (fun _ _ _ h => h.reset) hfits)
  have hlost := noneLost_run hrun hknown hfits
  exact htracked.enumOk hlost
    (length_run hrun hknown (Machine.along_mono (fun _ _ _ h => ⟨h.reset, h.create⟩) hfits))

instance decidableFits (c : Container D) : ∀ op, Decidable (Fits c op)
  | .create data type => inferInstanceAs (Decidable (CreateFits c (.create data type)))
  | .get _ => isTrue trivial
  | .erase id | .extract id | .resetId id =>
    inferInstanceAs (Decidable (c.generation (id / 2 ^ 32) < (2 ^ 24 - 1) * 256))

/-- Two objects, of which the first is erased. -/
theorem enum_ok_two : EnumOk (D := Bool) ⟨[⟨519, false⟩, ⟨256, true⟩], [0]⟩ (Container.live
    [(.create true 7, .id 263), (.create true 0, .id 4294967552), (.erase 263, .none)]) := by
  refine enum_ok (by decide) ?_ (by decide)
  refine ((knownIds_nil.concat ?_).concat ?_).concat ?_
  · trivial
  · trivial
  · simp [Op.Known, issued]

/-! ### A slot that is used up -/

theorem release_single {g : ℕ} (data : D) :
    (⟨[⟨g, data⟩], []⟩ : Container D).release 0 =
      ⟨[⟨(g + 256) % 2 ^ 32, default⟩], if 256 ≤ (g + 256) % 2 ^ 32 then [0] else []⟩ := by
  have hgen : (⟨[⟨g, data⟩], []⟩ : Container D).generation 0 = g := rfl
  have hset : ∀ g', (setData ⟨[⟨g', data⟩], []⟩ 0 default).slots = [⟨g', default⟩] := fun _ => rfl
  have hslots := slots_release (c := (⟨[⟨g, data⟩], []⟩ : Container D)) 0
  have hfree := emptySlots_release (c := (⟨[⟨g, data⟩], []⟩ : Container D)) (i := 0) Nat.one_pos
  rw [incGeneration_single, hset] at hslots
  rw [hgen, List.nil_append] at hfree
  rcases hr : (⟨[⟨g, data⟩], []⟩ : Container D).release 0 with ⟨slots, free⟩
  rw [hr] at hslots hfree
  exact congrArg₂ Container.mk hslots hfree

omit [Inhabited D] in
theorem store_single {k : ℕ} (old data : D) :
    (⟨[⟨256 * k, old⟩], [0]⟩ : Container D).store data 0 = some (⟨[⟨256 * k, data⟩], []⟩, 0) := by
  have hsame : 256 * k ^^^ (256 * k &&& typeMask ^^^ UInt8.toNat 0) = 256 * k := by
    have htype : UInt8.toNat 0 = 0 := rfl
    rw [retype_eq, htype, Nat.mul_div_cancel_left k (by decide), Nat.add_zero, Nat.mul_comm]
  show some ((⟨[⟨256 * k ^^^ (256 * k &&& typeMask ^^^ UInt8.toNat 0), data⟩], []⟩ : Container D), 0) = _
  rw [hsame]

/-- One `create` and one `erase` in a slot at counter `k`. -/
theorem history_pair {events : List (Op Unit × Answer Unit)} {k : ℕ} (hk : k < 2 ^ 24)
    (h : (machine Unit).History new events ⟨[⟨256 * k, ()⟩], [0]⟩) :
    (machine Unit).History new
      (events ++ [(Op.create () 0, Answer.id (256 * k))] ++ [(Op.erase (256 * k), Answer.none)])
      ⟨[⟨256 * (k + 1) % 2 ^ 32, ()⟩], if k + 1 < 2 ^ 24 then [0] else []⟩ := by
  have hcreate := step_create (store_single (k := k) () ())
  rw [encodeId_single (by omega)] at hcreate
  have herase := step_erase (decodeId_single (show 256 * k < 2 ^ 32 by omega) () [])
  rw [release_single] at herase
  have hnext := Machine.history_concat (Machine.history_concat h hcreate) herase
  have hcond : 256 ≤ (256 * k + 256) % 2 ^ 32 ↔ k + 1 < 2 ^ 24 := by omega
  have hmul : 256 * k + 256 = 256 * (k + 1) := by omega
  rw [if_congr hcond rfl rfl, hmul] at hnext
  exact hnext

theorem live_pair {events : List (Op Unit × Answer Unit)} {id : ℕ}
    (h : Container.live events = fun _ => none) :
    Container.live (events ++ [(Op.create () 0, Answer.id id)] ++ [(Op.erase id, Answer.none)]) = fun _ => none := by
  rw [live_concat, live_concat, h]
  funext id'
  show Function.update (Function.update (fun _ => none) id (some ())) id none id' = none
  rw [Function.update_idem, Function.update_apply, ite_self]

theorem known_pair {events : List (Op Unit × Answer Unit)} {id : ℕ} (hknown : KnownIds events)
    (hreset : ∀ e ∈ events, ¬e.1.IsReset) :
    KnownIds (events ++ [(Op.create () 0, Answer.id id)] ++ [(Op.erase id, Answer.none)]) ∧
      ∀ e ∈ events ++ [(Op.create () 0, Answer.id id)] ++ [(Op.erase id, Answer.none)], ¬e.1.IsReset := by
  refine ⟨(hknown.concat ?_).concat ?_, fun e he => ?_⟩
  · trivial
  · rw [issued_append]
    exact List.mem_append_right _ (List.mem_singleton.mpr rfl)
  · simp only [List.mem_append, List.mem_singleton] at he
    rcases he with (he | rfl) | rfl
    · exact hreset e he
    · exact not_false
    · exact not_false

/-- A slot that is taken and freed again and again. -/
theorem exists_pairs (k : ℕ) (hk : 2 ≤ k) (hlt : k < 2 ^ 24) :
    ∃ events : List (Op Unit × Answer Unit),
      (machine Unit).History new events ⟨[⟨256 * k, ()⟩], [0]⟩ ∧ KnownIds events ∧
      (∀ e ∈ events, ¬e.1.IsReset) ∧ Container.live events = fun _ => none := by
  induction k, hk using Nat.le_induction with
  | base =>
    obtain ⟨hknown, hreset⟩ := known_pair knownIds_nil (by simp)
    have hlive : Container.live ([] ++ [(Op.create () 0, Answer.id 256)] ++ [(Op.erase 256, Answer.none)]) =
        fun _ => none := live_pair rfl
    exact ⟨[] ++ [(Op.create () 0, Answer.id 256)] ++ [(Op.erase 256, Answer.none)], by decide, hknown, hreset,
      hlive⟩
  | succ k hk ih =>
    obtain ⟨events, hrun, hknown, hreset, hlive⟩ := ih (by omega)
    have hnext := history_pair (by omega) hrun
    rw [if_pos hlt, Nat.mod_eq_of_lt (by omega)] at hnext
    obtain ⟨hknown', hreset'⟩ := known_pair hknown hreset
    exact ⟨_, hnext, hknown', hreset', live_pair hlive⟩

/-- After `2 ^ 24 - 1` pairs the slot is neither free nor live, and its id is listed. -/
theorem enum_retired : ¬∀ (events : List (Op Unit × Answer Unit)) (c : Container Unit),
    (machine Unit).History new events c → KnownIds events → (∀ e ∈ events, ¬e.1.IsReset) →
    EnumOk c (Container.live events) := by
  intro hall
  obtain ⟨events, hrun, hknown, hreset, hlive⟩ := exists_pairs (2 ^ 24 - 1) (by decide) (by decide)
  have hlast := history_pair (by decide) hrun
  have hzero : 256 * (2 ^ 24 - 1 + 1) % 2 ^ 32 = 0 := by decide
  rw [if_neg (by decide), hzero] at hlast
  obtain ⟨hknown', hreset'⟩ := known_pair hknown hreset
  have hmem := ((hall _ _ hlast hknown' hreset').mem_ids 0).mp (by decide)
  rw [live_pair hlive] at hmem
  exact hmem rfl

end TdUtils.Container
