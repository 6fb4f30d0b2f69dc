import Mathlib.Data.List.Nodup
import Mathlib.Logic.Function.Basic
import TdUtils.Container.Container

/-!
# Container.Ids — ids are unique and die once

`Tracked` ties a container to what its history says: which ids were returned so far, and what is
stored under the live ones.  The counter of a slot is ahead of the counters of all its past ids, as
long as `reset_id` does not let it overflow; a slot that overflowed in `release` is never used again.
-/

namespace TdUtils.Container

open Lib

universe u

variable {D : Type u}

/-! ### What the history says -/

/-- The ids returned in a run, in their order. -/
def issued : List (Op D × Answer D) → List ℕ
  | [] => []
  | (_, .id id) :: events => id :: issued events
  | _ :: events => issued events

/-- What is stored under the live ids after one more event. -/
def liveStep (live : ℕ → Option D) : Op D × Answer D → ℕ → Option D
  | (.create data _, .id id) => Function.update live id (some data)
  | (.erase id, _) => Function.update live id none
  | (.extract id, _) => Function.update live id none
  | (.resetId id, .id id') => Function.update (Function.update live id none) id' (live id)
  | (.resetId id, _) => Function.update live id none
  | _ => live

/-- What is stored under the live ids after a run. -/
def live (events : List (Op D × Answer D)) : ℕ → Option D :=
  events.foldl liveStep fun _ => none

/-- An operation is given an id that was returned before; `get` takes any id. -/
def Op.Known (ids : List ℕ) : Op D → Prop
  | .create _ _ | .get _ => True
  | .erase id | .extract id | .resetId id => id ∈ ids

/-- The slot of an id that is not at the last value of its counter. -/
def CounterLeft (c : Container D) (id : ℕ) : Prop := c.generation (id / 2 ^ 32) < (2 ^ 24 - 1) * 256

/-! ### Slots -/

theorem issued_append (events events' : List (Op D × Answer D)) :
    issued (events ++ events') = issued events ++ issued events' := by
  induction events with
  | nil => rfl
  | cons e events ih => rcases e with ⟨op, - | - | -⟩ <;> simp [issued, ih]

/-- The data of a slot. -/
def dataAt (c : Container D) (i : ℕ) : Option D := c.slots[i]?.map Slot.data

section Slots

variable {c : Container D} {i j g : ℕ} {data : D}

@[simp] theorem length_setGeneration : (c.setGeneration i g).slots.length = c.slots.length :=
  List.length_modify _ _ _

@[simp] theorem length_setData : (c.setData i data).slots.length = c.slots.length :=
  List.length_modify _ _ _

@[simp] theorem emptySlots_setGeneration : (c.setGeneration i g).emptySlots = c.emptySlots := rfl

@[simp] theorem emptySlots_setData : (c.setData i data).emptySlots = c.emptySlots := rfl

theorem generation_setGeneration (hi : i < c.slots.length) :
    (c.setGeneration i g).generation j = if j = i then g else c.generation j := by
  unfold generation setGeneration
  rw [List.getElem?_modify]
  by_cases h : j = i
  · subst h
    simp [hi]
  · simp [h, Ne.symm h]

@[simp] theorem generation_setData : (c.setData i data).generation j = c.generation j := by
  unfold generation setData
  rw [List.getElem?_modify]
  split_ifs <;> rcases c.slots[j]? with - | slot <;> rfl

@[simp] theorem dataAt_setGeneration : (c.setGeneration i g).dataAt j = c.dataAt j := by
  unfold dataAt setGeneration
  rw [List.getElem?_modify]
  split_ifs <;> rcases c.slots[j]? with - | slot <;> rfl

theorem dataAt_setData (hi : i < c.slots.length) (data : D) :
    (c.setData i data).dataAt j = if j = i then some data else c.dataAt j := by
  unfold dataAt setData
  rw [List.getElem?_modify]
  by_cases h : j = i
  · subst h
    simp [hi]
  · simp [h, Ne.symm h]

end Slots

/-- A slot with an object. -/
structure Occupied (c : Container D) (i : ℕ) : Prop where
  lt : i < c.slots.length
  not_free : i ∉ c.emptySlots
  counter : 256 ≤ c.generation i

/-- An id that was returned before: the id of its slot, or one that the slot left behind. -/
structure Issued (c : Container D) (id : ℕ) : Prop where
  counter : 256 ≤ id % 2 ^ 32
  lt : id / 2 ^ 32 < c.slots.length
  current : c.generation (id / 2 ^ 32) = id % 2 ^ 32 → Occupied c (id / 2 ^ 32)
  past : c.generation (id / 2 ^ 32) ≠ id % 2 ^ 32 →
    c.generation (id / 2 ^ 32) < 256 ∨ id % 2 ^ 32 / 256 < c.generation (id / 2 ^ 32) / 256

/-- What holds between two operations.  From `2 ^ 31` slots on no id resolves any more. -/
structure Tracked (c : Container D) (ids : List ℕ) (live : ℕ → Option D) : Prop where
  length_le : c.slots.length ≤ 2 ^ 31
  generation_lt : ∀ i, c.generation i < 2 ^ 32
  free_lt : ∀ i ∈ c.emptySlots, i < c.slots.length
  free_nodup : c.emptySlots.Nodup
  free_counter : ∀ i ∈ c.emptySlots, 256 ≤ c.generation i
  ids_nodup : ids.Nodup
  ids_issued : ∀ id ∈ ids, Issued c id
  live_iff : c.slots.length < 2 ^ 31 → ∀ id data, live id = some data ↔ id ∈ ids ∧
    c.generation (id / 2 ^ 32) = id % 2 ^ 32 ∧ c.dataAt (id / 2 ^ 32) = some data

section Steps

variable {c c' : Container D} {ids : List ℕ} {live : ℕ → Option D}

theorem tracked_new : Tracked (new : Container D) [] fun _ => none where
  length_le := Nat.zero_le _
  generation_lt := fun i => by
    simp [generation, new]
  free_lt := by simp [new]
  free_nodup := List.nodup_nil
  free_counter := by simp [new]
  ids_nodup := List.nodup_nil
  ids_issued := by simp
  live_iff := by simp

/-! ### Resolving -/

theorem decodeId_full (h : c.slots.length = 2 ^ 31) (id : ℕ) : c.decodeId id = none := by
  have hfull : int32 (2 ^ 31) = -2147483648 := by decide
  have hle : (-2147483648 : ℤ) ≤ int32 (id >>> 32) := by
    unfold int32
    have := Int.le_bmod (x := ((id >>> 32 : ℕ) : ℤ)) (m := 2 ^ 32) (by decide)
    omega
  unfold decodeId
  dsimp only
  rw [h, hfull, if_pos (Or.inr hle)]

theorem decodeId_of_lt {id : ℕ} (hl : c.slots.length < 2 ^ 31) (hid : id / 2 ^ 32 < c.slots.length) :
    c.decodeId id =
      if c.generation (id / 2 ^ 32) = id % 2 ^ 32 then some (id / 2 ^ 32) else none := by
  have hslot : int32 (id >>> 32) = (id / 2 ^ 32 : ℕ) := by
    rw [Nat.shiftRight_eq_div_pow]
    exact int32_of_lt (by omega)
  unfold decodeId
  dsimp only
  rw [hslot, int32_of_lt hl, if_neg (by omega), Int.toNat_natCast]
  by_cases hg : c.generation (id / 2 ^ 32) = id % 2 ^ 32
  · rw [if_neg (not_not.mpr hg.symm), if_pos hg]
  · rw [if_pos (Ne.symm hg), if_neg hg]

/-- An id that was returned resolves when its slot has its generation. -/
theorem Tracked.decodeId_eq (h : Tracked c ids live) {id : ℕ} (hid : id ∈ ids) :
    c.decodeId id = if c.slots.length < 2 ^ 31 ∧ c.generation (id / 2 ^ 32) = id % 2 ^ 32
      then some (id / 2 ^ 32) else none := by
  by_cases hl : c.slots.length < 2 ^ 31
  · rw [decodeId_of_lt hl (h.ids_issued id hid).lt]
    exact if_congr (and_iff_right hl).symm rfl rfl
  · have hle := h.length_le
    rw [decodeId_full (by omega), if_neg (fun h => hl h.1)]

theorem Tracked.decodeId_some (h : Tracked c ids live) {id i : ℕ} (hid : id ∈ ids)
    (hi : c.decodeId id = some i) :
    c.slots.length < 2 ^ 31 ∧ i = id / 2 ^ 32 ∧ c.generation i = id % 2 ^ 32 ∧ Occupied c i := by
  rw [h.decodeId_eq hid] at hi
  split_ifs at hi with hg
  obtain rfl := Option.some.inj hi
  exact ⟨hg.1, rfl, hg.2, (h.ids_issued id hid).current hg.2⟩

theorem getElem?_of_lt {i : ℕ} (h : i < c.slots.length) : ∃ data, c.dataAt i = some data := by
  unfold dataAt
  rw [List.getElem?_eq_getElem h]
  exact ⟨_, rfl⟩

theorem get_of_decodeId {id i : ℕ} (h : c.decodeId id = some i) : c.get id = c.dataAt i := by
  unfold get dataAt
  rw [h, Option.bind_some]

theorem get_of_not_decodeId {id : ℕ} (h : c.decodeId id = none) : c.get id = none := by
  unfold get
  rw [h, Option.bind_none]

theorem Tracked.get_eq (h : Tracked c ids live) (hl : c.slots.length < 2 ^ 31) {id : ℕ}
    (hid : id ∈ ids) : c.get id = live id := by
  have hlive := h.live_iff hl id
  have hdecode := h.decodeId_eq hid
  by_cases hg : c.generation (id / 2 ^ 32) = id % 2 ^ 32
  · rw [if_pos ⟨hl, hg⟩] at hdecode
    obtain ⟨data, hdata⟩ := getElem?_of_lt (h.ids_issued id hid).lt
    rw [get_of_decodeId hdecode, (hlive data).mpr ⟨hid, hg, hdata⟩, hdata]
  · rw [if_neg (fun h => hg h.2)] at hdecode
    rw [get_of_not_decodeId hdecode]
    rcases hv : live id with - | data
    · rfl
    · exact absurd ((hlive data).mp hv).2.1 hg

/-! ### Slots that move on -/

/-- Slot `i` has moved on to its next generation.  The other slots are as they were. -/
structure Bumped (c c' : Container D) (i : ℕ) : Prop where
  length_eq : c'.slots.length = c.slots.length
  generation_self : c'.generation i = (c.generation i + 256) % 2 ^ 32
  generation_other : ∀ j, j ≠ i → c'.generation j = c.generation j
  dataAt_other : ∀ j, j ≠ i → c'.dataAt j = c.dataAt j
  free_other : ∀ j, j ≠ i → (j ∈ c'.emptySlots ↔ j ∈ c.emptySlots)

theorem bumped_incGeneration {i : ℕ} (hi : i < c.slots.length) :
    Bumped c (c.incGeneration i) i where
  length_eq := length_setGeneration
  generation_self := by
    unfold incGeneration
    rw [generation_setGeneration hi, if_pos rfl]
    rfl
  generation_other := fun j hj => by
    unfold incGeneration
    rw [generation_setGeneration hi, if_neg hj]
  dataAt_other := fun j _ => dataAt_setGeneration
  free_other := fun j _ => Iff.rfl

theorem emptySlots_release [Inhabited D] {i : ℕ} (hi : i < c.slots.length) :
    (c.release i).emptySlots = c.emptySlots ++
      if 256 ≤ (c.generation i + 256) % 2 ^ 32 then [i] else [] := by
  have hbump := (bumped_incGeneration hi).generation_self
  have hlt : (c.generation i + 256) % 2 ^ 32 < 2 ^ 32 := Nat.mod_lt _ (by decide)
  unfold release
  dsimp only
  rw [generation_setData, hbump, and_counter hlt]
  split_ifs with h1 h2 h2
  · rfl
  · omega
  · omega
  · exact (List.append_nil _).symm

theorem slots_release [Inhabited D] (i : ℕ) :
    (c.release i).slots = ((c.incGeneration i).setData i default).slots := by
  unfold release
  dsimp only
  split_ifs <;> rfl

theorem bumped_release [Inhabited D] {i : ℕ} (hi : i < c.slots.length) :
    Bumped c (c.release i) i := by
  have hinc := bumped_incGeneration hi
  have hi' : i < (c.incGeneration i).slots.length := hinc.length_eq ▸ hi
  have hgen : ∀ j, (c.release i).generation j = (c.incGeneration i).generation j := by
    intro j
    rw [← generation_setData (c := c.incGeneration i)]
    unfold generation
    rw [slots_release]
  refine ⟨?_, (hgen i).trans hinc.generation_self, ?_, ?_, ?_⟩
  · rw [slots_release, length_setData, hinc.length_eq]
  · exact fun j hj => (hgen j).trans (hinc.generation_other j hj)
  · intro j hj
    rw [← hinc.dataAt_other j hj]
    have hset := dataAt_setData (j := j) hi' default
    rw [if_neg hj] at hset
    rw [← hset]
    unfold dataAt
    rw [slots_release]
  · intro j hj
    rw [emptySlots_release hi]
    split_ifs <;> simp [hj]

section Bumped

variable {i : ℕ}

theorem Occupied.of_bumped (hb : Bumped c c' i) {j : ℕ} (hj : j ≠ i) (h : Occupied c j) :
    Occupied c' j where
  lt := hb.length_eq ▸ h.lt
  not_free := fun hmem => h.not_free ((hb.free_other j hj).mp hmem)
  counter := (hb.generation_other j hj).symm ▸ h.counter

/-- The slot left all its ids behind. -/
theorem Bumped.past (hb : Bumped c c' i) (ho : Occupied c i) (hlt : c.generation i < 2 ^ 32)
    {id : ℕ} (hid : Issued c id) (hi : id / 2 ^ 32 = i) :
    c'.generation i < 256 ∨ id % 2 ^ 32 / 256 < c'.generation i / 256 := by
  have hself := hb.generation_self
  have hcount := ho.counter
  have hle : id % 2 ^ 32 / 256 ≤ c.generation i / 256 := by
    by_cases hcur : c.generation (id / 2 ^ 32) = id % 2 ^ 32
    · rw [← hi, hcur]
    · rcases hid.past hcur with h | h <;> rw [hi] at h <;> omega
  omega

theorem Issued.of_bumped (hb : Bumped c c' i) (ho : Occupied c i)
    (hlt : c.generation i < 2 ^ 32) {id : ℕ} (h : Issued c id) : Issued c' id := by
  by_cases hi : id / 2 ^ 32 = i
  · have hpast := hb.past ho hlt h hi
    have hcount := h.counter
    refine ⟨hcount, hb.length_eq ▸ h.lt, fun hcur => ?_, fun _ => hi.symm ▸ hpast⟩
    rw [hi] at hcur
    omega
  · have hgen := hb.generation_other _ hi
    refine ⟨h.counter, hb.length_eq ▸ h.lt, fun hcur => ?_, fun hcur => ?_⟩
    · exact (h.current (hgen ▸ hcur)).of_bumped hb hi
    · rw [hgen] at hcur ⊢
      exact h.past hcur

/-- The slot of a live id moves on, and the id dies. -/
theorem Tracked.of_bumped (h : Tracked c ids live) (hb : Bumped c c' i) {id : ℕ} (hid : id ∈ ids)
    (hi : c.decodeId id = some i) (hnodup : c'.emptySlots.Nodup)
    (hcounter : i ∈ c'.emptySlots → 256 ≤ c'.generation i) :
    Tracked c' ids (Function.update live id none) := by
  obtain ⟨hl, hslot, hgen, hocc⟩ := h.decodeId_some hid hi
  have hpast : ∀ id' ∈ ids, id' / 2 ^ 32 = i → c'.generation (id' / 2 ^ 32) ≠ id' % 2 ^ 32 := by
    intro id' hid' hi' heq
    have hcount := (h.ids_issued id' hid').counter
    have hp := hb.past hocc (h.generation_lt i) (h.ids_issued id' hid') hi'
    rw [hi'] at heq
    omega
  refine ⟨hb.length_eq ▸ h.length_le, fun j => ?_, fun j hj => ?_, hnodup, fun j hj => ?_,
    h.ids_nodup, fun id' hid' => (h.ids_issued id' hid').of_bumped hb hocc (h.generation_lt i), ?_⟩
  · by_cases hji : j = i
    · rw [hji, hb.generation_self]
      exact Nat.mod_lt _ (by decide)
    · rw [hb.generation_other j hji]
      exact h.generation_lt j
  · rw [hb.length_eq]
    by_cases hji : j = i
    · exact hji ▸ hocc.lt
    · exact h.free_lt j ((hb.free_other j hji).mp hj)
  · by_cases hji : j = i
    · exact hji ▸ hcounter (hji ▸ hj)
    · rw [hb.generation_other j hji]
      exact h.free_counter j ((hb.free_other j hji).mp hj)
  · intro _ id' data
    have hlive := h.live_iff hl id' data
    by_cases hid' : id' / 2 ^ 32 = i
    · refine ⟨fun hdata => ?_, fun hdata => absurd hdata.2.1 (hpast id' hdata.1 hid')⟩
      by_cases heq : id' = id
      · rw [heq, Function.update_self] at hdata
        cases hdata
      · -- two ids of one slot with its generation are equal
        rw [Function.update_of_ne heq] at hdata
        have hgen' := (hlive.mp hdata).2.1
        rw [hid'] at hgen'
        omega
    · have heq : id' ≠ id := fun heq => hid' (heq ▸ hslot.symm)
      rw [Function.update_of_ne heq, hb.generation_other _ hid', hb.dataAt_other _ hid']
      exact hlive

end Bumped

/-- An id that does not resolve was dead already. -/
theorem Tracked.of_not_decodeId (h : Tracked c ids live) {id : ℕ} (hid : id ∈ ids)
    (hi : c.decodeId id = none) : Tracked c ids (Function.update live id none) := by
  refine { h with live_iff := fun hl id' data => ?_ }
  by_cases heq : id' = id
  · rw [heq, Function.update_self]
    refine ⟨fun hdata => (by cases hdata), fun hdata => ?_⟩
    rw [h.decodeId_eq hid, if_pos ⟨hl, hdata.2.1⟩] at hi
    cases hi
  · rw [Function.update_of_ne heq]
    exact h.live_iff hl id' data

/-! ### New ids -/

/-- The id of an object that has none yet. -/
theorem Tracked.add (h : Tracked c ids live) {i : ℕ} {data : D} (ho : Occupied c i)
    (hnew : c.encodeId i ∉ ids) (hdata : c.dataAt i = some data) :
    Tracked c (ids ++ [c.encodeId i]) (Function.update live (c.encodeId i) (some data)) := by
  have hid := encodeId_eq c (h.generation_lt i)
  have hlt := h.generation_lt i
  have hslot : c.encodeId i / 2 ^ 32 = i := by omega
  have hgen : c.encodeId i % 2 ^ 32 = c.generation i := by omega
  refine { h with
    ids_nodup := h.ids_nodup.append (List.nodup_singleton _) ?_
    ids_issued := fun id hmem => ?_
    live_iff := fun hl id data' => ?_ }
  · intro id hmem hsingle
    rw [List.mem_singleton.mp hsingle] at hmem
    exact hnew hmem
  · rcases List.mem_append.mp hmem with hmem | hsingle
    · exact h.ids_issued id hmem
    · rw [List.mem_singleton.mp hsingle]
      refine ⟨hgen ▸ ho.counter, hslot.symm ▸ ho.lt, fun _ => hslot.symm ▸ ho, fun hcur => ?_⟩
      rw [hslot, hgen] at hcur
      exact absurd rfl hcur
  · by_cases heq : id = c.encodeId i
    · rw [heq, Function.update_self, hslot, hgen, hdata]
      simp
    · rw [Function.update_of_ne heq, h.live_iff hl id data', List.mem_append, List.mem_singleton]
      simp only [heq, or_false]

/-- What `store` does. -/
structure Stored (c c' : Container D) (data : D) (pos : ℕ) : Prop where
  pos_eq : pos ∈ c.emptySlots ∧ c'.slots.length = c.slots.length ∧
      c'.generation pos / 256 = c.generation pos / 256 ∨
    pos = c.slots.length ∧ c'.slots.length = c.slots.length + 1 ∧ c.slots.length < 2 ^ 31 ∧
      c'.generation pos / 256 = 1 ∧ c.emptySlots = []
  generation_lt : c'.generation pos < 2 ^ 32
  generation_other : ∀ j, j ≠ pos → c'.generation j = c.generation j
  dataAt_self : c'.dataAt pos = some data
  dataAt_other : ∀ j, j ≠ pos → c'.dataAt j = c.dataAt j
  free_nodup : c'.emptySlots.Nodup
  mem_free : ∀ j, j ∈ c'.emptySlots ↔ j ∈ c.emptySlots ∧ j ≠ pos

theorem store_fresh {data : D} {type : UInt8} (h : c.emptySlots = [])
    (hl : c.slots.length ≤ 2 ^ 31 - 1) :
    c.store data type =
      some (⟨c.slots ++ [⟨generationStep + type.toNat, data⟩], []⟩, c.slots.length) := by
  unfold store
  rw [h]
  exact if_pos hl

theorem stored_fresh {data : D} {type : UInt8} (h : c.emptySlots = [])
    (hl : c.slots.length < 2 ^ 31) :
    Stored c { c with slots := c.slots ++ [⟨generationStep + type.toNat, data⟩] } data
      c.slots.length := by
  have htype := type.toNat_lt
  have hgen : generation { c with slots := c.slots ++ [⟨generationStep + type.toNat, data⟩] }
      c.slots.length = 256 + type.toNat := by
    simp [generation, generationStep]
  have houtside : ∀ j, j ≠ c.slots.length → ¬j < c.slots.length →
      (c.slots ++ [⟨generationStep + type.toNat, data⟩])[j]? = c.slots[j]? := by
    intro j hj hlt
    rw [List.getElem?_eq_none (Nat.le_of_not_lt hlt), List.getElem?_eq_none]
    rw [List.length_append, List.length_singleton]
    omega
  refine ⟨Or.inr ⟨rfl, by simp, hl, by omega, h⟩, by omega, fun j hj => ?_, ?_, fun j hj => ?_, ?_,
    ?_⟩
  · by_cases hlt : j < c.slots.length
    · simp [generation, List.getElem?_append_left hlt]
    · unfold generation
      rw [houtside j hj hlt]
  · simp [dataAt]
  · by_cases hlt : j < c.slots.length
    · simp [dataAt, List.getElem?_append_left hlt]
    · unfold dataAt
      rw [houtside j hj hlt]
  · simp [h]
  · simp [h]

theorem stored_reused {data : D} {type : UInt8} {init : List ℕ} {pos : ℕ}
    (hfree : c.emptySlots = init ++ [pos]) (hnodup : c.emptySlots.Nodup)
    (hpos : pos < c.slots.length) (hlt : c.generation pos < 2 ^ 32) (c₀ : Container D)
    (hc₀ : c₀ = { c with emptySlots := init }.setData pos data) :
    Stored c (c₀.setGeneration pos
      (c₀.generation pos ^^^ (c₀.generation pos &&& typeMask ^^^ type.toNat))) data pos := by
  have htype := type.toNat_lt
  have hpos' : pos < { c with emptySlots := init }.slots.length := hpos
  have hlen : c₀.slots.length = c.slots.length := by
    rw [hc₀]
    exact length_setData
  have hgen : ∀ j, c₀.generation j = c.generation j := by
    intro j
    rw [hc₀]
    exact generation_setData
  have hself := hgen pos
  have hdata : ∀ j, c₀.dataAt j = if j = pos then some data else c.dataAt j := by
    intro j
    rw [hc₀]
    exact dataAt_setData hpos' _
  have hpos₀ : pos < c₀.slots.length := hlen.symm ▸ hpos
  rw [hfree] at hnodup
  refine ⟨Or.inl ⟨by simp [hfree], by rw [length_setGeneration, hlen], ?_⟩, ?_, fun j hj => ?_, ?_,
    fun j hj => ?_, ?_, fun j => ?_⟩
  · rw [generation_setGeneration hpos₀, if_pos rfl, retype_eq, hself]
    omega
  · rw [generation_setGeneration hpos₀, if_pos rfl, retype_eq, hself]
    omega
  · rw [generation_setGeneration hpos₀, if_neg hj, hgen]
  · rw [dataAt_setGeneration, hdata, if_pos rfl]
  · rw [dataAt_setGeneration, hdata, if_neg hj]
  · rw [emptySlots_setGeneration, hc₀, emptySlots_setData]
    exact (List.nodup_append.mp hnodup).1
  · rw [emptySlots_setGeneration, hc₀, emptySlots_setData, hfree]
    have hnot : pos ∉ init := fun hmem => List.disjoint_of_nodup_append hnodup hmem (by simp)
    by_cases hj : j = pos
    · simp [hj, hnot]
    · simp [hj]

theorem Tracked.stored (h : Tracked c ids live) {data : D} {type : UInt8} {pos : ℕ}
    (hs : c.store data type = some (c', pos)) : Stored c c' data pos := by
  unfold store at hs
  rcases hlast : c.emptySlots.getLast? with - | last
  · rw [hlast] at hs
    dsimp only at hs
    split_ifs at hs with hl
    cases hs
    exact stored_fresh (List.getLast?_eq_none_iff.mp hlast) (by omega)
  · rw [hlast] at hs
    cases hs
    obtain ⟨init, hinit⟩ := List.getLast?_eq_some_iff.mp hlast
    have hmem : pos ∈ c.emptySlots := by simp [hinit]
    refine stored_reused hinit h.free_nodup (h.free_lt pos hmem) (h.generation_lt pos) _ ?_
    rw [hinit, List.dropLast_concat]

section Stored

variable {data : D} {pos : ℕ}

theorem Stored.length_le (hs : Stored c c' data pos) : c.slots.length ≤ c'.slots.length := by
  rcases hs.pos_eq with ⟨-, hlen, -⟩ | ⟨-, hlen, -⟩ <;> omega

theorem Tracked.occupied_stored (h : Tracked c ids live) (hs : Stored c c' data pos) :
    Occupied c' pos := by
  refine ⟨?_, fun hmem => ((hs.mem_free pos).mp hmem).2 rfl, ?_⟩
  · rcases hs.pos_eq with ⟨hmem, hlen, -⟩ | ⟨hpos, hlen, -⟩
    · exact hlen ▸ h.free_lt pos hmem
    · omega
  · rcases hs.pos_eq with ⟨hmem, -, hcount⟩ | ⟨-, -, -, hcount, -⟩
    · have hc := h.free_counter pos hmem
      omega
    · omega

theorem Occupied.of_stored (hs : Stored c c' data pos) {j : ℕ} (hj : j ≠ pos)
    (ho : Occupied c j) : Occupied c' j where
  lt := Nat.lt_of_lt_of_le ho.lt hs.length_le
  not_free := fun hmem => ho.not_free ((hs.mem_free j).mp hmem).1
  counter := (hs.generation_other j hj).symm ▸ ho.counter

/-- The counter of the slot that is taken is ahead of all its ids. -/
theorem Tracked.past_of_stored (h : Tracked c ids live) (hs : Stored c c' data pos) {id : ℕ}
    (hid : id ∈ ids) (hpos : id / 2 ^ 32 = pos) :
    c.generation pos ≠ id % 2 ^ 32 ∧ id % 2 ^ 32 / 256 < c'.generation pos / 256 := by
  have hissued := h.ids_issued id hid
  rcases hs.pos_eq with ⟨hmem, -, hcount⟩ | ⟨hfresh, -⟩
  · have hcur : c.generation pos ≠ id % 2 ^ 32 := by
      intro hcur
      rw [← hpos] at hcur hmem
      exact (hissued.current hcur).not_free hmem
    have hfree := h.free_counter pos hmem
    have hpast := hissued.past (hpos.symm ▸ hcur)
    rw [hpos] at hpast
    omega
  · have hlt := hissued.lt
    omega

theorem Tracked.of_stored (h : Tracked c ids live) (hs : Stored c c' data pos) :
    Tracked c' ids live := by
  have hgen : ∀ j, c'.generation j < 2 ^ 32 := by
    intro j
    by_cases hj : j = pos
    · exact hj ▸ hs.generation_lt
    · rw [hs.generation_other j hj]
      exact h.generation_lt j
  refine ⟨?_, hgen, fun j hj => ?_, hs.free_nodup, fun j hj => ?_, h.ids_nodup,
    fun id hid => ?_, fun hl id data' => ?_⟩
  · have hle := h.length_le
    rcases hs.pos_eq with ⟨-, hlen, -⟩ | ⟨-, hlen, hlt, -⟩ <;> omega
  · exact Nat.lt_of_lt_of_le (h.free_lt j ((hs.mem_free j).mp hj).1) hs.length_le
  · obtain ⟨hmem, hne⟩ := (hs.mem_free j).mp hj
    rw [hs.generation_other j hne]
    exact h.free_counter j hmem
  · have hissued := h.ids_issued id hid
    have hlt := Nat.lt_of_lt_of_le hissued.lt hs.length_le
    by_cases hpos : id / 2 ^ 32 = pos
    · have hpast := h.past_of_stored hs hid hpos
      refine ⟨hissued.counter, hlt, fun hcur => ?_, fun _ => Or.inr (hpos.symm ▸ hpast.2)⟩
      rw [hpos] at hcur
      omega
    · have heq := hs.generation_other _ hpos
      refine ⟨hissued.counter, hlt, fun hcur => ?_, fun hcur => ?_⟩
      · exact (hissued.current (heq ▸ hcur)).of_stored hs hpos
      · rw [heq] at hcur ⊢
        exact hissued.past hcur
  · have hl' := Nat.lt_of_le_of_lt hs.length_le hl
    rw [h.live_iff hl' id data']
    refine and_congr_right fun hid => ?_
    by_cases hpos : id / 2 ^ 32 = pos
    · have hpast := h.past_of_stored hs hid hpos
      rw [hpos]
      refine ⟨fun hcur => absurd hcur.1 hpast.1, fun hcur => ?_⟩
      have hcur := hcur.1
      omega
    · rw [hs.generation_other _ hpos, hs.dataAt_other _ hpos]

theorem Tracked.stored_new (h : Tracked c ids live) (hs : Stored c c' data pos) :
    c'.encodeId pos ∉ ids := by
  have hid := encodeId_eq c' hs.generation_lt
  have hlt := hs.generation_lt
  intro hmem
  have hpast := h.past_of_stored hs hmem (by omega)
  omega

end Stored

end Steps

end TdUtils.Container
