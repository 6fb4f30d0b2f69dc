import Mathlib.Data.List.Nodup
import TdUtils.Container.VariantFill
import TdUtils.Lib.Machine

/-!
# Container.VariantRuns — when copies, moves and assignments of variants keep the value

An assignment destroys what the destination holds before it reads the source.  A source in the storage of the destination
is gone then, if its destructor does anything.  In all runs the objects that were constructed are the ones that live and
the ones that were destroyed once.
-/

namespace TdUtils.Variant

open Lib

variable {Ty : Type} {El : Ty → Type} {types : List Ty} {trivial : Ty → Bool} {s t : Store El} {d : ℕ}

/-! ### The numbers of the objects -/

def constructedIds (log : List Event) : List ℕ :=
  log.filterMap fun
    | .constructed id => some id
    | .destroyed _ => none

def destroyedIds (log : List Event) : List ℕ :=
  log.filterMap fun
    | .constructed _ => none
    | .destroyed id => some id

/-- The number of the object in a variant. -/
def Store.idAt (s : Store El) (v : ℕ) : Option ℕ := (s.live (.data v)).map Obj.id

/-- The numbers are given in turn; those of objects that do not live any more are in the log once. -/
structure Ledger (s : Store El) : Prop where
  constructed : constructedIds s.log = List.range s.next
  nodup : (destroyedIds s.log).Nodup
  lt : ∀ v id, s.idAt v = some id → id < s.next
  apart : ∀ v w id, s.idAt v = some id → s.idAt w = some id → v = w
  gone : ∀ id, id ∈ destroyedIds s.log ↔ id < s.next ∧ ∀ v, s.idAt v ≠ some id

/-- What was constructed lives, or was destroyed once. -/
def Once (s : Store El) : Prop :=
  (constructedIds s.log).Nodup ∧ (destroyedIds s.log).Nodup ∧
    ∀ id, id ∈ destroyedIds s.log ↔ id ∈ constructedIds s.log ∧ ∀ v, s.idAt v ≠ some id

theorem Ledger.once (h : Ledger s) : Once s := by
  refine ⟨h.constructed ▸ List.nodup_range, h.nodup, fun id => ?_⟩
  rw [h.gone, h.constructed, List.mem_range]

theorem Ledger.congr (h : Ledger s) (hid : t.idAt = s.idAt) (hnext : t.next = s.next) (hlog : t.log = s.log) : Ledger t where
  constructed := by
    rw [hlog, hnext]
    exact h.constructed
  nodup := by
    rw [hlog]
    exact h.nodup
  lt := by
    rw [hid, hnext]
    exact h.lt
  apart := by
    rw [hid]
    exact h.apart
  gone := by
    rw [hlog, hid, hnext]
    exact h.gone

theorem ids_destroyedBy (log : List Event) (obj : Option (Obj El)) :
    constructedIds (log ++ destroyedBy obj) = constructedIds log ∧
      destroyedIds (log ++ destroyedBy obj) = destroyedIds log ++ (obj.map Obj.id).toList := by
  unfold constructedIds destroyedIds
  rw [List.filterMap_append, List.filterMap_append]
  cases obj with
  | none => exact ⟨List.append_nil _, rfl⟩
  | some obj => exact ⟨List.append_nil _, rfl⟩

theorem ids_constructedBy (log : List Event) (content : Option (Value El)) (id : ℕ) :
    constructedIds (log ++ constructedBy content id) = constructedIds log ++ (content.map fun _ => id).toList ∧
      destroyedIds (log ++ constructedBy content id) = destroyedIds log := by
  unfold constructedIds destroyedIds
  rw [List.filterMap_append, List.filterMap_append]
  cases content with
  | none => exact ⟨rfl, List.append_nil _⟩
  | some value => exact ⟨rfl, List.append_nil _⟩

theorem idAt_cleared : (cleared trivial d s).idAt = Function.update s.idAt d none := by
  funext v
  by_cases heq : v = d
  · rw [heq, Function.update_self, Store.idAt, cleared_live_self]
    rfl
  · rw [Function.update_of_ne heq, Store.idAt, cleared_live_of_ne (data_ne heq)]
    rfl

theorem Ledger.cleared (h : Ledger s) (trivial : Ty → Bool) (d : ℕ) : Ledger (cleared trivial d s) := by
  obtain ⟨hconstructed, hdestroyed⟩ := ids_destroyedBy s.log (s.live (.data d))
  have hid : ∀ v id, (Variant.cleared trivial d s).idAt v = some id → v ≠ d ∧ s.idAt v = some id := by
    intro v id hv
    rw [idAt_cleared] at hv
    by_cases heq : v = d
    · rw [heq, Function.update_self] at hv
      cases hv
    · exact ⟨heq, by rwa [Function.update_of_ne heq] at hv⟩
  refine ⟨hconstructed.trans h.constructed, ?_, fun v id hv => h.lt v id (hid v id hv).2,
    fun v w id hv hw => h.apart v w id (hid v id hv).2 (hid w id hw).2, fun id => ?_⟩
  · change (destroyedIds (s.log ++ destroyedBy (s.live (.data d)))).Nodup
    rw [hdestroyed]
    refine List.nodup_append.mpr ⟨h.nodup, ?_, fun id hid old hold => ?_⟩
    · cases (s.live (.data d)).map Obj.id with
      | none => exact List.nodup_nil
      | some id => exact List.nodup_singleton id
    · rintro rfl
      exact ((h.gone id).mp hid).2 d (Option.mem_toList.mp hold)
  · change id ∈ destroyedIds (s.log ++ destroyedBy (s.live (.data d))) ↔ id < s.next ∧ _
    rw [hdestroyed, List.mem_append, h.gone, Option.mem_toList]
    constructor
    · rintro (⟨hlt, hno⟩ | hold)
      · exact ⟨hlt, fun v hv => hno v (hid v id hv).2⟩
      · exact ⟨h.lt d id hold, fun v hv => (hid v id hv).1 (h.apart v d id (hid v id hv).2 hold)⟩
    · rintro ⟨hlt, hno⟩
      by_cases hold : s.idAt d = some id
      · exact .inr hold
      · refine .inl ⟨hlt, fun v hv => ?_⟩
        by_cases heq : v = d
        · exact hold (heq ▸ hv)
        · refine hno v ?_
          rw [idAt_cleared, Function.update_of_ne heq]
          exact hv

/-- The variant `d` has become an empty one. -/
structure Emptied (s t : Store El) (d : ℕ) (old : Option (Obj El)) : Prop where
  offset : t.offset = Function.update s.offset d (some npos)
  live : t.live (.data d) = none
  kept : ∀ p, p ≠ .data d → t.live p = s.live p
  next : t.next = s.next
  log : t.log = s.log ++ destroyedBy old

theorem emptied_cleared : Emptied s (cleared trivial d s) d (s.live (.data d)) :=
  ⟨rfl, cleared_live_self, fun _ hp => cleared_live_of_ne hp, rfl, rfl⟩

variable [DecidableEq Ty] {moved : (T : Ty) → El T → El T} {content : Option (Value El)}

section Filled

variable {source : Option Place}

theorem Filled.idAt (h : Filled types s t d content source) :
    t.idAt = Function.update s.idAt d (content.map fun _ => s.next) := by
  funext v
  by_cases heq : v = d
  · rw [heq, Function.update_self, Store.idAt, h.live, Option.map_map]
    rfl
  · have htag : ∀ s : Store El, s.idAt v = ((s.live (.data v)).map Obj.tag).map Prod.snd := fun s => by
      rw [Option.map_map]
      rfl
    rw [Function.update_of_ne heq, htag, htag, h.stays _ (data_ne heq)]

theorem Ledger.filled (h : Ledger s) (hempty : s.live (.data d) = none) (hfilled : Filled types s t d content source) :
    Ledger t := by
  have hidAt := hfilled.idAt
  cases content with
  | none =>
    have hd : s.idAt d = none := congrArg (Option.map Obj.id) hempty
    rw [Option.map_none, ← hd, Function.update_eq_self] at hidAt
    exact h.congr hidAt hfilled.next (hfilled.log.trans (List.append_nil _))
  | some value =>
    obtain ⟨hconstructed, hdestroyed⟩ := ids_constructedBy s.log (some value) s.next
    rw [← hfilled.log] at hconstructed hdestroyed
    have hnext : t.next = s.next + 1 := hfilled.next
    have hd : t.idAt d = some s.next := by
      rw [hidAt, Function.update_self]
      rfl
    have hid : ∀ v, v ≠ d → t.idAt v = s.idAt v := fun v hne => by
      rw [hidAt, Function.update_of_ne hne]
    have hfresh : ∀ v, v ≠ d → t.idAt v ≠ some s.next := fun v hne hv =>
      Nat.lt_irrefl _ (h.lt v s.next ((hid v hne).symm.trans hv))
    refine ⟨?_, hdestroyed ▸ h.nodup, fun v id hv => ?_, fun v w id hv hw => ?_, fun id => ?_⟩
    · rw [hconstructed, hnext, List.range_succ, h.constructed]
      rfl
    · rw [hnext]
      by_cases heq : v = d
      · rw [heq, hd] at hv
        exact Nat.lt_succ_of_le (Nat.le_of_eq (Option.some.inj hv).symm)
      · exact Nat.lt_succ_of_lt (h.lt v id ((hid v heq).symm.trans hv))
    · by_cases hvd : v = d
      · by_cases hwd : w = d
        · rw [hvd, hwd]
        · rw [hvd, hd] at hv
          exact absurd (hw.trans hv.symm) (hfresh w hwd)
      · by_cases hwd : w = d
        · rw [hwd, hd] at hw
          exact absurd (hv.trans hw.symm) (hfresh v hvd)
        · exact h.apart v w id ((hid v hvd).symm.trans hv) ((hid w hwd).symm.trans hw)
    · rw [hdestroyed, h.gone, hnext]
      constructor
      · rintro ⟨hlt, hno⟩
        refine ⟨Nat.lt_succ_of_lt hlt, fun v hv => ?_⟩
        by_cases heq : v = d
        · rw [heq, hd] at hv
          exact Nat.ne_of_gt hlt (Option.some.inj hv)
        · exact hno v ((hid v heq).symm.trans hv)
      · rintro ⟨hlt, hno⟩
        have hne : id ≠ s.next := fun heq => hno d (heq ▸ hd)
        refine ⟨by omega, fun v hv => ?_⟩
        by_cases heq : v = d
        · have hdead : s.idAt d = none := congrArg (Option.map Obj.id) hempty
          rw [heq, hdead] at hv
          cases hv
        · exact hno v ((hid v heq).trans hv)

end Filled

/-! ### The calls -/

/-- The variant that a call is about. -/
def Op.about : Op El → Option ℕ
  | .construct d | .constructOther _ d _ | .constructFrom _ d _ _ | .assignOther _ d _ | .assignFrom _ d _ _ | .destroy d =>
    some d
  | .object _ _ => none

/-- What the source of a call holds, if the call has one that lives. -/
def Op.source (s : Store El) : Op El → Option (Option (Value El))
  | .construct _ => some none
  | .constructOther _ _ other | .assignOther _ _ other => other.content s
  | .constructFrom _ _ T r | .assignFrom _ _ T r => (r.read s).map fun x => some ⟨T, x⟩
  | .destroy _ | .object _ _ => none

/-- Where a call moves a value from. -/
def Op.movesFrom : Op El → Option Place
  | .constructOther move _ other | .assignOther move _ other => if move then some other.place else none
  | .constructFrom move _ _ r | .assignFrom move _ _ r => if move then some r.place else none
  | .construct _ | .destroy _ | .object _ _ => none

/-- What a call replaces or destroys. -/
def Op.old (s : Store El) : Op El → Option (Obj El)
  | .assignOther _ d _ | .assignFrom _ d _ _ | .destroy d => s.live (.data d)
  | .construct _ | .constructOther _ _ _ | .constructFrom _ _ _ _ | .object _ _ => none

/-- The operand lives and has its content; a variant has a destructor, so it is a part of no trivial object. -/
def Other.Holds (types : List Ty) (trivial : Ty → Bool) (s : Store El) (other : Other El) : Prop :=
  (∀ r, other = .part r → ∃ obj, s.live r.place = some obj ∧ trivial obj.value.1 = false) ∧
    ∃ content, other.content s = some content ∧ ∀ value ∈ content, value.1 ∈ types

/-- The reference is to an object that lives, or to a part of it. -/
def Ref.Holds {T : Ty} (types : List Ty) (s : Store El) (r : Ref El (El T)) : Prop :=
  T ∈ types ∧ s.live r.place ≠ none ∧ (r.read s).isSome

/-- The operands live, and a new variant is where none lives. -/
def Op.Valid (types : List Ty) (trivial : Ty → Bool) (s : Store El) : Op El → Prop
  | .construct d => s.offset d = none
  | .constructOther _ d other => s.offset d = none ∧ other.Holds types trivial s
  | .constructFrom _ d _ r => s.offset d = none ∧ r.Holds types s
  | .assignOther _ d other => s.offset d ≠ none ∧ other.Holds types trivial s
  | .assignFrom _ d _ r => s.offset d ≠ none ∧ r.Holds types s
  | .destroy d => s.offset d ≠ none
  | .object _ _ => True

/-- The reference reads the same when its object is replaced by what it reads: it is to the whole of it. -/
def Ref.Stays {T : Ty} (r : Ref El (El T)) (value : Value El) : Prop :=
  ∀ x, r.get value = some x → r.get ⟨T, x⟩ = some x

/-- The source of an assignment is not in the storage of the destination, unless it is the destination and empty, or is
trivial and is moved or is the whole of what the destination holds. -/
def Op.Apart (trivial : Ty → Bool) (s : Store El) : Op El → Prop
  | .assignOther _ d (.variant w) => w = d → s.held d = none
  | .assignOther _ d (.part r) => r.place ≠ .data d
  | .assignFrom move d _ r => r.place = .data d →
    ∀ value, s.held d = some value → trivial value.1 = true ∧ (move = true ∨ r.Stays value)
  | _ => True

/-- The call does what it should. -/
structure Meets (types : List Ty) (s t : Store El) (op : Op El) : Prop where
  holds : ∀ d content, op.about = some d → op.source s = some content →
    t.offset d = some (contentOffset types content) ∧ t.held d = content
  keeps : op.movesFrom = none → op.source t = op.source s
  others : ∀ v, op.about ≠ some v → t.offset v = s.offset v ∧ (op.movesFrom ≠ some (.data v) → t.live (.data v) = s.live (.data v))
  once : t.log = s.log ++ destroyedBy (op.old s) ++ constructedBy (op.source s).join s.next

structure Good (types : List Ty) (s : Store El) : Prop where
  sound : Sound types s
  ledger : Ledger s

/-! ### An empty variant, and what comes into it -/

theorem emptied_new (h : Sound types s) (hnew : s.offset d = none) : Emptied s (s.setOffset d npos) d none :=
  ⟨rfl, h.dead d hnew, fun _ _ => rfl, rfl, (List.append_nil _).symm⟩

theorem Good.emptied_new (h : Good types s) (hnew : s.offset d = none) : Good types (s.setOffset d npos) := by
  have hempty := h.sound.dead d hnew
  refine ⟨⟨fun v hv => ?_, fun v x hx => ?_, h.sound.mem⟩, h.ledger.congr rfl rfl rfl⟩
  · by_cases heq : v = d
    · rw [heq]
      exact hempty
    · exact h.sound.dead v ((setOffset_offset_of_ne heq).symm.trans hv)
  · by_cases heq : v = d
    · subst heq
      rw [setOffset_offset_self] at hx
      change x = contentOffset types ((s.live (.data v)).map Obj.value)
      rw [hempty, ← Option.some.inj hx]
      rfl
    · exact h.sound.offset_eq v x ((setOffset_offset_of_ne heq).symm.trans hx)

theorem Good.cleared (h : Good types s) (trivial : Ty → Bool) (d : ℕ) : Good types (cleared trivial d s) :=
  ⟨h.sound.cleared trivial d, h.ledger.cleared trivial d⟩

/-- A call that empties its variant and then fills it does what it should. -/
theorem meets_filled {u : Store El} (op : Op El) (hemptied : Emptied s t d (op.old s)) (hgood : Good types t)
    (hfilled : Filled types t u d content op.movesFrom) (htypes : ∀ value ∈ content, value.1 ∈ types)
    (habout : op.about = some d) (hsource : op.source s = some content)
    (hkeeps : op.movesFrom = none → op.source u = op.source s) : Meets types s u op ∧ Good types u := by
  refine ⟨⟨fun d' content' habout' hsource' => ?_, hkeeps, fun v hv => ?_, ?_⟩,
    hfilled.sound hgood.sound htypes, hgood.ledger.filled hemptied.live hfilled⟩
  · obtain rfl : d = d' := Option.some.inj (habout.symm.trans habout')
    obtain rfl : content = content' := Option.some.inj (hsource.symm.trans hsource')
    refine ⟨by rw [hfilled.offset, Function.update_self], ?_⟩
    rw [Store.held, hfilled.live]
    cases content <;> rfl
  · have hne : v ≠ d := fun heq => hv (heq ▸ habout)
    refine ⟨?_, fun hmoves => ?_⟩
    · rw [hfilled.offset, Function.update_of_ne hne, hemptied.offset, Function.update_of_ne hne]
    · rw [hfilled.kept _ (data_ne hne) hmoves, hemptied.kept _ (data_ne hne)]
  · rw [hfilled.log, hemptied.log, hemptied.next, hsource]
    rfl

/-! ### One call -/

omit [DecidableEq Ty] in
theorem Ref.read_congr {X : Type} {r : Ref El X} (hlive : s.live r.place ≠ none) (h : t.live r.place = s.live r.place) :
    r.read t = r.read s := by
  obtain ⟨obj, hobj⟩ := Option.ne_none_iff_exists'.mp hlive
  rw [Ref.read_of_live hobj, Ref.read_of_live (h.trans hobj)]

omit [DecidableEq Ty] in
/-- A source that is not in the storage of the variant is the same after the variant has been emptied. -/
theorem Emptied.other {old : Option (Obj El)} (h : Emptied s t d old) {other : Other El}
    (hpart : ∀ r, other = .part r → s.live r.place ≠ none) (hplace : other.place ≠ .data d) :
    other.content t = other.content s := by
  refine Other.content_congr (h.kept _ hplace) hpart fun w hw => ?_
  have hne : w ≠ d := by
    rintro rfl
    rw [hw] at hplace
    exact hplace rfl
  rw [h.offset, Function.update_of_ne hne]

/-- A variant that gets what another one holds. -/
theorem fill_other {move : Bool} {other : Other El} (op : Op El) (hemptied : Emptied s t d (op.old s)) (hgood : Good types t)
    (hplace : other.place ≠ .data d) (hholds : other.Holds types trivial s) (habout : op.about = some d)
    (hsource : ∀ s : Store El, op.source s = other.content s)
    (hmoves : op.movesFrom = if move then some other.place else none) :
    ∃ u, initFrom types moved d move other t = some u ∧ Meets types s u op ∧ Good types u := by
  obtain ⟨hobj, content, hcontent, htypes⟩ := hholds
  have hpart : ∀ r, other = .part r → s.live r.place ≠ none := by
    intro r hr
    obtain ⟨obj, hlive, -⟩ := hobj r hr
    exact Option.ne_none_iff_exists'.mpr ⟨obj, hlive⟩
  have hpart' : ∀ r, other = .part r → t.live r.place ≠ none := by
    rintro r rfl
    have hkept : t.live r.place = s.live r.place := hemptied.kept _ hplace
    rw [hkept]
    exact hpart r rfl
  have hoffset : t.offset d = some npos := by
    rw [hemptied.offset, Function.update_self]
  obtain ⟨u, hrun, hfilled⟩ := initFrom_filled moved hgood.sound move hoffset
    ((hemptied.other hpart hplace).trans hcontent) htypes hpart' hplace
  rw [← hmoves] at hfilled
  refine ⟨u, hrun, meets_filled op hemptied hgood hfilled htypes habout ((hsource s).trans hcontent) fun hcopy => ?_⟩
  rw [hsource, hsource, ← hemptied.other hpart hplace]
  refine Other.content_congr (hfilled.kept _ hplace (by rw [hcopy]; exact nofun)) hpart' fun w hw => ?_
  have hne : w ≠ d := by
    rintro rfl
    rw [hw] at hplace
    exact hplace rfl
  rw [hfilled.offset, Function.update_of_ne hne]

/-- A variant that gets an alternative. -/
theorem fill_ref {move : Bool} {T : Ty} {r : Ref El (El T)} (op : Op El) (hemptied : Emptied s t d (op.old s))
    (hgood : Good types t) (hplace : r.place ≠ .data d) (hholds : r.Holds types s) (habout : op.about = some d)
    (hsource : ∀ s : Store El, op.source s = (r.read s).map fun x => some ⟨T, x⟩)
    (hmoves : op.movesFrom = if move then some r.place else none) :
    ∃ u, initEmpty types moved d move r t = some u ∧ Meets types s u op ∧ Good types u := by
  obtain ⟨hT, hlive, hsome⟩ := hholds
  obtain ⟨x, hread⟩ := Option.isSome_iff_exists.mp hsome
  have hoffset : t.offset d = some npos := by
    rw [hemptied.offset, Function.update_self]
  have hlive' : t.live r.place ≠ none := by
    rw [hemptied.kept _ hplace]
    exact hlive
  have hread' : r.read t = some x := (Ref.read_congr hlive (hemptied.kept _ hplace)).trans hread
  obtain ⟨u, hrun, hfilled, -, -⟩ := initEmpty_filled types moved move hoffset hlive' hread' hplace
  rw [← hmoves] at hfilled
  refine ⟨u, hrun, meets_filled op hemptied hgood hfilled (fun value hvalue => ?_) habout ?_ fun hcopy => ?_⟩
  · rw [← Option.some.inj hvalue]
    exact hT
  · rw [hsource, hread]
    rfl
  · have hkept : u.live r.place = s.live r.place :=
      (hfilled.kept _ hplace (by rw [hcopy]; exact nofun)).trans (hemptied.kept _ hplace)
    rw [hsource, hsource, Ref.read_congr hlive hkept]

variable (moved) in
/-- What a variant is assigned from a trivial object in its own storage. -/
theorem fill_inside (h : Good types s) (move : Bool) {T : Ty} {r : Ref El (El T)} (hplace : r.place = .data d)
    (hholds : r.Holds types s) {obj : Obj El} (hobj : s.live (.data d) = some obj) (htrivial : trivial obj.value.1 = true) :
    ∃ x u, r.get obj.value = some x ∧ initEmpty types moved d move r (cleared trivial d s) = some u ∧
      Filled types (cleared trivial d s) u d (some ⟨T, x⟩) (if move then some r.place else none) ∧ Good types u ∧
      r.read u = r.get ⟨T, x⟩ := by
  obtain ⟨hT, -, hsome⟩ := hholds
  have hobj' : s.live r.place = some obj := hplace ▸ hobj
  rw [Ref.read_of_live hobj'] at hsome
  obtain ⟨x, hget⟩ := Option.isSome_iff_exists.mp hsome
  have hread : r.read (cleared trivial d s) = some x := by
    rw [Ref.read, hplace, bytes_cleared (by rw [hobj]; exact Option.some_ne_none _), hobj, Option.bind_some, leftover,
      if_pos htrivial, Option.bind_some, hget]
  obtain ⟨u, hrun, hfilled, -⟩ := initEmpty_of_read types moved move cleared_offset_self hread
  have hgood := h.cleared trivial d
  refine ⟨x, u, hget, hrun, hfilled, ⟨hfilled.sound hgood.sound fun value hvalue => ?_,
    hgood.ledger.filled cleared_live_self hfilled⟩, ?_⟩
  · rw [← Option.some.inj hvalue]
    exact hT
  · have hlive : u.live r.place = some ⟨⟨T, x⟩, (cleared trivial d s).next⟩ := by
      rw [hplace]
      exact hfilled.live
    exact Ref.read_of_live hlive

variable (moved) in
theorem assignFrom_inside (h : Good types s) {move : Bool} {T : Ty} {r : Ref El (El T)} (hlives : s.offset d ≠ none)
    (hplace : r.place = .data d) (hholds : r.Holds types s) (hapart : (Op.assignFrom move d T r).Apart trivial s) :
    ∃ u, step types trivial moved s (.assignFrom move d T r) = some u ∧ Meets types s u (.assignFrom move d T r) ∧
      Good types u := by
  have hlive := hholds.2.1
  rw [hplace] at hlive
  obtain ⟨obj, hobj⟩ := Option.ne_none_iff_exists'.mp hlive
  obtain ⟨htrivial, hstays⟩ := hapart hplace obj.value (congrArg (Option.map Obj.value) hobj)
  obtain ⟨x, u, hget, hrun, hfilled, hgood, hread⟩ := fill_inside moved h move hplace hholds hobj htrivial
  have hobj' : s.live r.place = some obj := hplace ▸ hobj
  rw [step, clear_eq h.sound hlives, Option.bind_some]
  refine ⟨u, hrun, meets_filled (.assignFrom move d T r) emptied_cleared (h.cleared trivial d) hfilled
    (fun value hvalue => ?_) rfl ?_ fun hcopy => ?_⟩
  · rw [← Option.some.inj hvalue]
    exact hholds.1
  · change (r.read s).map _ = _
    rw [Ref.read_of_live hobj', hget]
    rfl
  · change (r.read u).map _ = (r.read s).map _
    have hmove : move ≠ true := by
      rintro rfl
      cases hcopy
    rw [hread, Ref.read_of_live hobj', hget, hstays.resolve_left hmove x hget]

variable (moved) in
theorem destroy_meets (h : Good types s) (hlives : s.offset d ≠ none) :
    ∃ t, step types trivial moved s (.destroy d) = some t ∧ Meets types s t (.destroy d) ∧ Good types t := by
  have hgood := h.cleared trivial d
  refine ⟨{ cleared trivial d s with
      offset := Function.update (cleared trivial d s).offset d none
      rest := Function.update (cleared trivial d s).rest d none }, ?_,
    ⟨fun _ x _ hsource => (Option.some_ne_none x hsource.symm).elim, fun _ => rfl, fun v hv => ?_,
      (List.append_nil _).symm⟩,
    ⟨fun v hv => ?_, fun v x hx => ?_, hgood.sound.mem⟩, hgood.ledger.congr rfl rfl rfl⟩
  · rw [step, clear_eq h.sound hlives, Option.map_some]
  · have hne : v ≠ d := fun heq => hv (congrArg some heq.symm)
    have hkept : (cleared trivial d s).live (.data v) = s.live (.data v) := cleared_live_of_ne (data_ne hne)
    refine ⟨?_, fun _ => hkept⟩
    exact (Function.update_of_ne hne _ _).trans (cleared_offset_of_ne hne)
  · by_cases heq : v = d
    · have hempty : (cleared trivial d s).live (.data d) = none := cleared_live_self
      rw [heq]
      exact hempty
    · exact hgood.sound.dead v ((Function.update_of_ne heq _ _).symm.trans hv)
  · have hne : v ≠ d := by
      rintro rfl
      simp only [Function.update_self] at hx
      cases hx
    exact hgood.sound.offset_eq v x ((Function.update_of_ne hne _ _).symm.trans hx)

variable (trivial moved) in
theorem object_meets (h : Good types s) (o : ℕ) (value : Value El) :
    ∃ t, step types trivial moved s (.object o value) = some t ∧ Meets types s t (.object o value) ∧ Good types t := by
  have hdata : ∀ v, Function.update s.live (.object o) (some ⟨value, 0⟩) (.data v) = s.live (.data v) := fun v => by
    have hne : Place.data v ≠ .object o := fun heq => by cases heq
    exact Function.update_of_ne hne _ _
  refine ⟨_, rfl, ⟨fun x _ habout => (Option.some_ne_none x habout.symm).elim, fun _ => rfl, fun v _ => ⟨rfl, fun _ => hdata v⟩, ?_⟩,
    ⟨fun v hv => (hdata v).trans (h.sound.dead v hv), fun v x hx => ?_, fun v obj hobj => ?_⟩,
    h.ledger.congr (funext fun v => congrArg (Option.map Obj.id) (hdata v)) rfl rfl⟩
  · exact ((List.append_nil _).trans (List.append_nil _)).symm
  · have hheld : (s.live (.data v)).map Obj.value =
        (Function.update s.live (.object o) (some ⟨value, 0⟩) (.data v)).map Obj.value :=
      congrArg (Option.map Obj.value) (hdata v).symm
    exact (h.sound.offset_eq v x hx).trans (congrArg (contentOffset types) hheld)
  · exact h.sound.mem v obj ((hdata v).symm.trans hobj)

variable (moved) in
/-- A call whose source is apart from its destination does what it should. -/
theorem step_meets (h : Good types s) {op : Op El} (hvalid : op.Valid types trivial s) (hapart : op.Apart trivial s) :
    ∃ t, step types trivial moved s op = some t ∧ Meets types s t op ∧ Good types t := by
  have hnew : ∀ {d : ℕ} {p : Place}, s.offset d = none → s.live p ≠ none → p ≠ .data d := by
    rintro d p hnew hlive rfl
    exact hlive (h.sound.dead d hnew)
  cases op with
  | construct d =>
    have hemptied := emptied_new h.sound hvalid
    refine ⟨_, rfl, meets_filled (.construct d) hemptied (h.emptied_new hvalid)
      (filled_empty setOffset_offset_self hemptied.live) (fun value hvalue => ?_) rfl rfl fun _ => rfl⟩
    cases hvalue
  | constructOther move d other =>
    obtain ⟨hdead, hholds⟩ := hvalid
    have hplace : other.place ≠ .data d := by
      obtain ⟨hobj, content, hcontent, -⟩ := hholds
      cases other with
      | variant w =>
        rintro heq
        obtain rfl := Place.data.inj heq
        change (s.offset w).map _ = _ at hcontent
        rw [hdead] at hcontent
        cases hcontent
      | part r =>
        obtain ⟨obj, hlive, -⟩ := hobj r rfl
        exact hnew hdead (Option.ne_none_iff_exists'.mpr ⟨obj, hlive⟩)
    exact fill_other (.constructOther move d other) (emptied_new h.sound hdead) (h.emptied_new hdead) hplace hholds
      rfl (fun _ => rfl) rfl
  | constructFrom move d T r =>
    obtain ⟨hdead, hholds⟩ := hvalid
    exact fill_ref (.constructFrom move d T r) (emptied_new h.sound hdead) (h.emptied_new hdead)
      (hnew hdead hholds.2.1) hholds rfl (fun _ => rfl) rfl
  | assignOther move d other =>
    obtain ⟨hlives, hholds⟩ := hvalid
    rw [step, clear_eq h.sound hlives, Option.bind_some]
    by_cases hplace : other.place = .data d
    · -- the destination itself, which is empty
      obtain ⟨-, content, hcontent, htypes⟩ := hholds
      cases other with
      | variant w =>
        obtain rfl := Place.data.inj hplace
        have hempty : s.live (.data w) = none := Option.map_eq_none_iff.mp (hapart rfl)
        have hnone : content = none := by
          obtain ⟨x, -, rfl⟩ := Option.map_eq_some_iff.mp hcontent
          exact hapart rfl
        subst hnone
        refine ⟨_, visit_empty cleared_offset_self, meets_filled (.assignOther move w (.variant w)) emptied_cleared
          (h.cleared trivial w) (filled_empty cleared_offset_self cleared_live_self) htypes rfl hcontent fun _ => ?_⟩
        change ((cleared trivial w s).offset w).map _ = Other.content s (.variant w)
        rw [hcontent, cleared_offset_self, Option.map_some, Store.held, cleared_live_self]
        rfl
      | part r => exact absurd hplace hapart
    · exact fill_other (.assignOther move d other) emptied_cleared (h.cleared trivial d) hplace hholds rfl
        (fun _ => rfl) rfl
  | assignFrom move d T r =>
    obtain ⟨hlives, hholds⟩ := hvalid
    by_cases hplace : r.place = .data d
    · exact assignFrom_inside moved h hlives hplace hholds hapart
    · rw [step, clear_eq h.sound hlives, Option.bind_some]
      exact fill_ref (.assignFrom move d T r) emptied_cleared (h.cleared trivial d) hplace hholds rfl (fun _ => rfl) rfl
  | destroy d => exact destroy_meets moved h hvalid
  | object o value => exact object_meets trivial moved h o value

/-- A call that goes through with its source in the storage of its destination leaves an empty destination, or has copied
a part of a trivial object that is gone afterwards. -/
theorem step_inside (h : Good types s) {op : Op El} (hvalid : op.Valid types trivial s) (hinside : ¬ op.Apart trivial s)
    (hrun : step types trivial moved s op = some t) : Good types t ∧ ¬ Meets types s t op := by
  cases op with
  | assignOther move d other =>
    obtain ⟨hlives, hobj, content, hcontent, -⟩ := hvalid
    rw [step, clear_eq h.sound hlives, Option.bind_some] at hrun
    cases other with
    | variant w =>
      obtain ⟨rfl, hheld⟩ := Classical.not_imp.mp hinside
      have hempty : initFrom types moved w move (.variant w) (cleared trivial w s) = some (cleared trivial w s) :=
        visit_empty cleared_offset_self
      obtain rfl : t = cleared trivial w s := Option.some.inj (hrun.symm.trans hempty)
      refine ⟨h.cleared trivial w, fun hmeets => ?_⟩
      have hholds := (hmeets.holds w content rfl hcontent).2
      obtain ⟨x, -, rfl⟩ := Option.map_eq_some_iff.mp hcontent
      rw [Store.held, cleared_live_self] at hholds
      exact hheld hholds.symm
    | part r =>
      have hplace : r.place = .data d := not_not.mp hinside
      obtain ⟨obj, hlive, htrivial⟩ := hobj r rfl
      rw [hplace] at hlive
      have hread : r.read (cleared trivial d s) = none := by
        rw [Ref.read, hplace, bytes_cleared (by rw [hlive]; exact Option.some_ne_none _), hlive, Option.bind_some, leftover,
          if_neg (by rw [htrivial]; exact Bool.false_ne_true), Option.bind_none]
      have hdead : (Other.part r).offset types (cleared trivial d s) = none := congrArg (Option.map _) hread
      have hnone : initFrom types moved d move (.part r) (cleared trivial d s) = none :=
        visit_dead (h.sound.mem d obj hlive) hdead
      rw [hnone] at hrun
      cases hrun
  | assignFrom move d T r =>
    obtain ⟨hlives, hholds⟩ := hvalid
    rw [step, clear_eq h.sound hlives, Option.bind_some] at hrun
    obtain ⟨hplace, hbad⟩ := Classical.not_imp.mp hinside
    obtain ⟨value, hbad⟩ := not_forall.mp hbad
    obtain ⟨hheld, hbad⟩ := Classical.not_imp.mp hbad
    obtain ⟨obj, hobj, rfl⟩ := Option.map_eq_some_iff.mp hheld
    by_cases htrivial : trivial obj.value.1 = true
    · obtain ⟨hmove, hstays⟩ := not_or.mp fun hor => hbad ⟨htrivial, hor⟩
      obtain ⟨x, u, hget, hrun', -, hgood, hread⟩ := fill_inside moved h move hplace hholds hobj htrivial
      obtain rfl : t = u := Option.some.inj (hrun.symm.trans hrun')
      refine ⟨hgood, fun hmeets => hstays fun y hy => ?_⟩
      obtain rfl : x = y := Option.some.inj (hget.symm.trans hy)
      have hcopy : (Op.assignFrom move d T r).movesFrom = none := if_neg hmove
      have hobj' : s.live r.place = some obj := hplace ▸ hobj
      have hkeeps : (r.read t).map (fun x => some (⟨T, x⟩ : Value El)) = (r.read s).map fun x => some ⟨T, x⟩ :=
        hmeets.keeps hcopy
      rw [hread, Ref.read_of_live hobj', hget, Option.map_some] at hkeeps
      obtain ⟨z, hz, heq⟩ := Option.map_eq_some_iff.mp hkeeps
      rw [hz, eq_of_heq (Sigma.mk.inj (Option.some.inj heq)).2]
    · have hread : r.read ((cleared trivial d s).setOffset d (offsetOf types T)) = none := by
        change r.read (cleared trivial d s) = none
        rw [Ref.read, hplace, bytes_cleared (by rw [hobj]; exact Option.some_ne_none _), hobj, Option.bind_some, leftover,
          if_neg htrivial, Option.bind_none]
      have htake : take moved move r ((cleared trivial d s).setOffset d (offsetOf types T)) = none :=
        congrArg (Option.map _) hread
      rw [initEmpty, cleared_offset_self, Option.bind_some, if_pos rfl, htake] at hrun
      cases hrun
  | construct d => exact absurd True.intro hinside
  | constructOther move d other => exact absurd True.intro hinside
  | constructFrom move d T r => exact absurd True.intro hinside
  | destroy d => exact absurd True.intro hinside
  | object o value => exact absurd True.intro hinside

theorem step_good (h : Good types s) {op : Op El} (hvalid : op.Valid types trivial s)
    (hrun : step types trivial moved s op = some t) : Good types t := by
  by_cases hapart : op.Apart trivial s
  · obtain ⟨u, hrun', -, hgood⟩ := step_meets moved h hvalid hapart
    obtain rfl : t = u := Option.some.inj (hrun.symm.trans hrun')
    exact hgood
  · exact (step_inside h hvalid hapart hrun).1

/-! ### Runs -/

variable (types trivial moved) in
def machine : Machine (Store El) (Op El) Unit where
  step s op := (step types trivial moved s op).map fun t => (t, ())

end TdUtils.Variant
