import TdUtils.Container.Variant

/-!
# Container.VariantFill — what `clear` leaves, and what a visit puts into an empty variant

A visit goes through all types, and does something at the one whose offset the variant has.  `Filled` says what a variant
gets from a source that is not in its own storage.
-/

namespace TdUtils.Variant

variable {Ty : Type} {El : Ty → Type} {types : List Ty} {trivial : Ty → Bool} {moved : (T : Ty) → El T → El T}
  {s t : Store El}

/-! ### Visits -/

section Visit

variable {offset : Store El → Option ℤ} {f : Ty → Store El → Option (Store El)} {x : ℤ}

/-- The loop of `visit` from the type with the index `k` on. -/
def visitFrom (offset : Store El → Option ℤ) (f : Ty → Store El → Option (Store El)) (types : List Ty) (k : ℕ)
    (s : Store El) : Option (Store El) :=
  (types.zipIdx k).foldlM (fun s entry => (offset s).bind fun x => if ((entry.2 : ℕ) : ℤ) = x then f entry.1 s else some s) s

theorem visitFrom_cons (T : Ty) (types : List Ty) (k : ℕ) (hoffset : offset s = some x) :
    visitFrom offset f (T :: types) k s =
      (if (k : ℤ) = x then f T s else some s).bind fun s => visitFrom offset f types (k + 1) s := by
  unfold visitFrom
  rw [List.zipIdx_cons, List.foldlM_cons, hoffset]
  rfl

/-- Types with another offset are passed over. -/
theorem visitFrom_skip (hoffset : offset s = some x) : ∀ (types : List Ty) (k : ℕ),
    (∀ i < types.length, ((k + i : ℕ) : ℤ) ≠ x) → visitFrom offset f types k s = some s
  | [], _, _ => rfl
  | T :: types, k, h => by
    have hk : (k : ℤ) ≠ x := h 0 (Nat.succ_pos _)
    rw [visitFrom_cons T types k hoffset, if_neg hk, Option.bind_some]
    refine visitFrom_skip hoffset types (k + 1) fun i hi => ?_
    rw [Nat.add_assoc, Nat.add_comm 1]
    exact h (i + 1) (Nat.succ_lt_succ hi)

theorem visitFrom_eq : ∀ {types : List Ty} {k i : ℕ} {T : Ty}, types[i]? = some T →
    offset s = some ((k + i : ℕ) : ℤ) → f T s = some t → offset t = some ((k + i : ℕ) : ℤ) →
      visitFrom offset f types k s = some t
  | U :: types, k, 0, T, hT, hoffset, hrun, hoffset' => by
    obtain rfl : U = T := Option.some.inj hT
    have hk : ((k : ℕ) : ℤ) = ((k + 0 : ℕ) : ℤ) := rfl
    rw [visitFrom_cons U types k hoffset, if_pos hk, hrun, Option.bind_some]
    exact visitFrom_skip hoffset' types (k + 1) fun i _ => by omega
  | U :: types, k, i + 1, T, hT, hoffset, hrun, hoffset' => by
    have hk : k + (i + 1) = k + 1 + i := by omega
    rw [visitFrom_cons U types k hoffset, if_neg (by omega), Option.bind_some]
    rw [hk] at hoffset hoffset'
    exact visitFrom_eq (i := i) hT hoffset hrun hoffset'

/-- A visit of a variant that does not live. -/
theorem visit_dead {T : Ty} (hT : T ∈ types) (hoffset : offset s = none) : visit types offset f s = none := by
  obtain ⟨U, rest, rfl⟩ := List.exists_cons_of_ne_nil (List.ne_nil_of_mem hT)
  change ((offset s).bind _).bind _ = none
  rw [hoffset]
  rfl

/-- A visit of an empty variant. -/
theorem visit_empty (hoffset : offset s = some npos) : visit types offset f s = some s :=
  visitFrom_skip hoffset types 0 fun i _ => by
    unfold npos
    omega

variable [DecidableEq Ty]

theorem getElem?_idxOf {T : Ty} (hT : T ∈ types) : types[types.idxOf T]? = some T := by
  rw [List.getElem?_eq_getElem (List.idxOf_lt_length_of_mem hT), List.getElem_idxOf]

/-- A visit of a variant that holds a `T`. -/
theorem visit_eq {T : Ty} (hT : T ∈ types) (hoffset : offset s = some (offsetOf types T)) (hrun : f T s = some t)
    (hoffset' : offset t = some (offsetOf types T)) : visit types offset f s = some t := by
  refine visitFrom_eq (k := 0) (i := types.idxOf T) (getElem?_idxOf hT) ?_ hrun ?_
  · rw [Nat.zero_add]
    exact hoffset
  · rw [Nat.zero_add]
    exact hoffset'

end Visit

/-! ### What `clear` leaves -/

variable {d : ℕ}

def destroyedBy (obj : Option (Obj El)) : List Event := obj.toList.map fun obj => .destroyed obj.id

def constructedBy (content : Option (Value El)) (id : ℕ) : List Event := content.toList.map fun _ => .constructed id

/-- What is left of an object that is destroyed. -/
def leftover (trivial : Ty → Bool) (obj : Obj El) : Option (Value El) :=
  if trivial obj.value.1 then some obj.value else none

def cleared (trivial : Ty → Bool) (d : ℕ) (s : Store El) : Store El :=
  { s with
    offset := Function.update s.offset d (some npos)
    live := Function.update s.live (.data d) none
    rest := Function.update s.rest d ((s.live (.data d)).elim (s.rest d) (leftover trivial))
    log := s.log ++ destroyedBy (s.live (.data d)) }

@[simp] theorem setOffset_offset_self {x : ℤ} : (s.setOffset d x).offset d = some x := by
  simp only [Store.setOffset, Function.update_self]

theorem setOffset_offset_of_ne {v : ℕ} {x : ℤ} (h : v ≠ d) : (s.setOffset d x).offset v = s.offset v :=
  Function.update_of_ne h _ _

@[simp] theorem cleared_offset_self : (cleared trivial d s).offset d = some npos := by simp only [cleared, Function.update_self]

theorem cleared_offset_of_ne {v : ℕ} (h : v ≠ d) : (cleared trivial d s).offset v = s.offset v := Function.update_of_ne h _ _

@[simp] theorem cleared_live_self : (cleared trivial d s).live (.data d) = none := by simp only [cleared, Function.update_self]

theorem cleared_live_of_ne {p : Place} (h : p ≠ .data d) : (cleared trivial d s).live p = s.live p := Function.update_of_ne h _ _

theorem data_ne {v : ℕ} (h : v ≠ d) : Place.data v ≠ .data d := fun heq => h (Place.data.inj heq)

/-! ### What is read -/

theorem bytes_of_live {p : Place} {obj : Obj El} (h : s.live p = some obj) : s.bytes p = some obj.value := by
  unfold Store.bytes
  rw [h]

theorem bytes_of_dead {v : ℕ} (h : s.live (.data v) = none) : s.bytes (.data v) = s.rest v := by
  unfold Store.bytes
  rw [h]

theorem Ref.read_of_live {X : Type} {r : Ref El X} {obj : Obj El} (h : s.live r.place = some obj) :
    r.read s = r.get obj.value := by
  rw [Ref.read, bytes_of_live h, Option.bind_some]

theorem bytes_cleared (hlive : s.live (.data d) ≠ none) :
    (cleared trivial d s).bytes (.data d) = (s.live (.data d)).bind (leftover trivial) := by
  obtain ⟨obj, hobj⟩ := Option.ne_none_iff_exists'.mp hlive
  rw [bytes_of_dead cleared_live_self, hobj, Option.bind_some]
  simp only [cleared, Function.update_self, hobj, Option.elim_some]

theorem construct_live_of_ne {value : Value El} {p : Place} (h : p ≠ .data d) : (construct d value s).live p = s.live p :=
  Function.update_of_ne h _ _

theorem write_live_self {X : Type} {r : Ref El X} {x : X} : (r.write x s).live r.place =
    (s.live r.place).map fun obj => { obj with value := r.put x obj.value } := by
  simp only [Ref.write, Function.update_self]

theorem write_live_of_ne {X : Type} {r : Ref El X} {x : X} {p : Place} (h : p ≠ r.place) :
    (r.write x s).live p = s.live p := Function.update_of_ne h _ _

variable [DecidableEq Ty]

/-! ### Variants that are in order -/

/-- A variant that lives has the offset of what it holds, and holds one of its types. -/
structure Sound (types : List Ty) (s : Store El) : Prop where
  dead : ∀ v, s.offset v = none → s.live (.data v) = none
  offset_eq : ∀ v x, s.offset v = some x → x = contentOffset types (s.held v)
  mem : ∀ v obj, s.live (.data v) = some obj → obj.value.1 ∈ types

theorem clear_eq (h : Sound types s) (hlives : s.offset d ≠ none) :
    clear types trivial d s = some (cleared trivial d s) := by
  obtain ⟨x, hx⟩ := Option.ne_none_iff_exists'.mp hlives
  have hoffset := h.offset_eq d x hx
  unfold clear
  cases hlive : s.live (.data d) with
  | none =>
    rw [Store.held, hlive] at hoffset
    rw [visit_empty (hx.trans (congrArg some hoffset)), Option.map_some, cleared, hlive, ← hlive, Function.update_eq_self]
    simp [Store.setOffset, destroyedBy, hlive]
  | some obj =>
    rw [Store.held, hlive] at hoffset
    have hrun : destroyObject trivial d obj.value.1 s = some { s with
        live := Function.update s.live (.data d) none
        rest := Function.update s.rest d (leftover trivial obj)
        log := s.log ++ [.destroyed obj.id] } := by
      rw [destroyObject, hlive, Option.bind_some, if_pos rfl]
      rfl
    have hx' : s.offset d = some (offsetOf types obj.value.1) := hx.trans (congrArg some hoffset)
    rw [visit_eq (h.mem d obj hlive) hx' hrun hx', Option.map_some, cleared, hlive]
    rfl

theorem Sound.cleared (h : Sound types s) (trivial : Ty → Bool) (d : ℕ) : Sound types (cleared trivial d s) where
  dead v hv := by
    by_cases heq : v = d
    · rw [heq]
      exact cleared_live_self
    · rw [cleared_offset_of_ne heq] at hv
      rw [cleared_live_of_ne (data_ne heq)]
      exact h.dead v hv
  offset_eq v x hx := by
    by_cases heq : v = d
    · subst heq
      rw [cleared_offset_self] at hx
      rw [Store.held, cleared_live_self, ← Option.some.inj hx]
      rfl
    · rw [cleared_offset_of_ne heq] at hx
      rw [Store.held, cleared_live_of_ne (data_ne heq)]
      exact h.offset_eq v x hx
  mem v obj hlive := by
    by_cases heq : v = d
    · subst heq
      rw [cleared_live_self] at hlive
      cases hlive
    · rw [cleared_live_of_ne (data_ne heq)] at hlive
      exact h.mem v obj hlive

/-! ### A variant that gets a value -/

/-- What a move keeps of an object. -/
def Obj.tag (obj : Obj El) : Ty × ℕ := (obj.value.1, obj.id)

/-- The variant `d`, which was empty, has got `content`; only an object at `source` may have another value. -/
structure Filled (types : List Ty) (s t : Store El) (d : ℕ) (content : Option (Value El)) (source : Option Place) : Prop where
  offset : t.offset = Function.update s.offset d (some (contentOffset types content))
  live : t.live (.data d) = content.map fun value => ⟨value, s.next⟩
  kept : ∀ p, p ≠ .data d → source ≠ some p → t.live p = s.live p
  stays : ∀ p, p ≠ .data d → (t.live p).map Obj.tag = (s.live p).map Obj.tag
  next : t.next = s.next + content.toList.length
  log : t.log = s.log ++ constructedBy content s.next

theorem contentOffset_held (v : ℕ) :
    contentOffset types (s.held v) = ((s.live (.data v)).map Obj.tag).elim npos fun tag => offsetOf types tag.1 := by
  unfold Store.held
  cases s.live (.data v) <;> rfl

section Filled

variable {content : Option (Value El)} {source : Option Place}

theorem filled_empty (hoffset : s.offset d = some npos) (hlive : s.live (.data d) = none) :
    Filled types s s d none source where
  offset := by
    rw [contentOffset, Option.elim_none, ← hoffset, Function.update_eq_self]
  live := hlive
  kept _ _ _ := rfl
  stays _ _ := rfl
  next := rfl
  log := (List.append_nil s.log).symm

theorem Filled.sound (h : Filled types s t d content source) (hs : Sound types s) (htypes : ∀ value ∈ content, value.1 ∈ types) :
    Sound types t where
  dead v hv := by
    have hne : v ≠ d := by
      rintro rfl
      rw [h.offset, Function.update_self] at hv
      cases hv
    rw [h.offset, Function.update_of_ne hne] at hv
    have hstays := h.stays _ (data_ne hne)
    rw [hs.dead v hv] at hstays
    exact Option.map_eq_none_iff.mp hstays
  offset_eq v x hx := by
    by_cases heq : v = d
    · subst heq
      rw [h.offset, Function.update_self] at hx
      rw [← Option.some.inj hx, Store.held, h.live]
      cases content <;> rfl
    · rw [h.offset, Function.update_of_ne heq] at hx
      rw [contentOffset_held, h.stays _ (data_ne heq), ← contentOffset_held]
      exact hs.offset_eq v x hx
  mem v obj hlive := by
    by_cases heq : v = d
    · subst heq
      rw [h.live] at hlive
      obtain ⟨value, hvalue, rfl⟩ := Option.map_eq_some_iff.mp hlive
      exact htypes value hvalue
    · have hstays := h.stays _ (data_ne heq)
      rw [hlive] at hstays
      obtain ⟨obj', hobj', htag⟩ := Option.map_eq_some_iff.mp hstays.symm
      have htype : obj'.value.1 = obj.value.1 := congrArg Prod.fst htag
      exact htype ▸ hs.mem v obj' hobj'

theorem as_eq_some {T : Ty} {value : Value El} {x : El T} (h : as T value = some x) : value = ⟨T, x⟩ := by
  obtain ⟨U, y⟩ := value
  unfold as at h
  split_ifs at h with hT
  obtain rfl : U = T := hT
  obtain rfl : y = x := Option.some.inj h
  rfl

/-- The placement `new` of a value, after the source may have been moved from. -/
theorem construct_filled {T : Ty} {x : El T} (move : Bool) (r : Ref El (El T)) (x' : El T) (x₀ : ℤ)
    (hx₀ : x₀ = offsetOf types T) :
    Filled types s (construct d ⟨T, x⟩ (if move then r.write x' (s.setOffset d x₀) else s.setOffset d x₀)) d
      (some ⟨T, x⟩) (if move then some r.place else none) := by
  subst hx₀
  cases move with
  | false =>
    exact ⟨rfl, Function.update_self _ _ _, fun p hp _ => construct_live_of_ne hp,
      fun p hp => congrArg (Option.map Obj.tag) (construct_live_of_ne hp), rfl, rfl⟩
  | true =>
    refine ⟨rfl, Function.update_self _ _ _, fun p hp hsource => ?_, fun p hp => ?_, rfl, rfl⟩
    · have hne : p ≠ r.place := fun heq => hsource (congrArg some heq.symm)
      exact (construct_live_of_ne hp).trans (write_live_of_ne hne)
    · rw [if_pos rfl, construct_live_of_ne hp]
      by_cases heq : p = r.place
      · rw [heq, write_live_self, Option.map_map]
        refine congrArg (fun f => Option.map f (s.live r.place)) (funext fun obj => ?_)
        exact Prod.ext (r.put_fst _ _) rfl
      · exact congrArg (Option.map Obj.tag) (write_live_of_ne heq)

variable (types moved) in
/-- `init_empty` with what is read. -/
theorem initEmpty_of_read {T : Ty} {x : El T} (move : Bool) {r : Ref El (El T)} (hoffset : s.offset d = some npos)
    (hread : r.read s = some x) : ∃ t, initEmpty types moved d move r s = some t ∧
      Filled types s t d (some ⟨T, x⟩) (if move then some r.place else none) ∧
      (∀ p, p ≠ .data d → t.live p =
        (if move then r.write (moved T x) s else s).live p) := by
  have htake : take moved move r (s.setOffset d (offsetOf types T)) = some (x,
      if move then r.write (moved T x) (s.setOffset d (offsetOf types T)) else s.setOffset d (offsetOf types T)) := by
    rw [take, show r.read (s.setOffset d (offsetOf types T)) = some x from hread, Option.map_some]
  refine ⟨_, by rw [initEmpty, hoffset, Option.bind_some, if_pos rfl, htake, Option.map_some],
    construct_filled move r _ _ rfl, fun p hp => ?_⟩
  cases move <;> exact construct_live_of_ne hp

variable (types moved) in
/-- `init_empty` with a reference to something else. -/
theorem initEmpty_filled {T : Ty} {x : El T} (move : Bool) {r : Ref El (El T)} (hoffset : s.offset d = some npos)
    (hlive : s.live r.place ≠ none) (hread : r.read s = some x) (hplace : r.place ≠ .data d) :
    ∃ t, initEmpty types moved d move r s = some t ∧
      Filled types s t d (some ⟨T, x⟩) (if move then some r.place else none) ∧ t.live r.place ≠ none ∧
      r.read t = some (if move then moved T x else x) := by
  obtain ⟨obj, hobj⟩ := Option.ne_none_iff_exists'.mp hlive
  have hget : r.get obj.value = some x := (Ref.read_of_live hobj).symm.trans hread
  have hsome : (r.get obj.value).isSome := by
    rw [hget]
    rfl
  obtain ⟨t, hrun, hfilled, hkept⟩ := initEmpty_of_read types moved move hoffset hread
  have hthere := hkept r.place hplace
  cases move with
  | false =>
    have hobj' : t.live r.place = some obj := hthere.trans hobj
    refine ⟨t, hrun, hfilled, ?_, (Ref.read_of_live hobj').trans hget⟩
    rw [hobj']
    exact Option.some_ne_none _
  | true =>
    rw [if_pos rfl, write_live_self, hobj] at hthere
    refine ⟨t, hrun, hfilled, ?_, (Ref.read_of_live hthere).trans (r.get_put _ _ hsome)⟩
    rw [hthere]
    exact Option.some_ne_none _

/-! ### Visits of another variant -/

theorem Other.place_ref (other : Other El) (T : Ty) : (other.ref T).place = other.place := by
  cases other <;> rfl

theorem Other.offset_eq (h : Sound types s) {other : Other El} (hcontent : other.content s = some content) :
    other.offset types s = some (contentOffset types content) := by
  cases other with
  | variant w =>
    obtain ⟨x, hx, rfl⟩ := Option.map_eq_some_iff.mp hcontent
    exact hx.trans (congrArg some (h.offset_eq w x hx))
  | part r => exact congrArg (Option.map (contentOffset types)) hcontent

theorem Other.read_ref {other : Other El} {T : Ty} {x : El T} (hcontent : other.content s = some (some ⟨T, x⟩)) :
    (other.ref T).read s = some x := by
  cases other with
  | variant w =>
    obtain ⟨-, -, hheld⟩ := Option.map_eq_some_iff.mp hcontent
    obtain ⟨obj, hobj, hvalue⟩ := Option.map_eq_some_iff.mp hheld
    change (s.bytes (.data w)).bind (as T) = _
    rw [bytes_of_live hobj, Option.bind_some, hvalue, as_self]
  | part r =>
    obtain ⟨value, hvalue, hget⟩ := Option.bind_eq_some_iff.mp hcontent
    change (s.bytes r.place).bind (fun value => (r.get value).bind fun content => content.bind (as T)) = _
    rw [hvalue, Option.bind_some, hget, Option.bind_some, Option.bind_some, as_self]

theorem Ref.offset_of_read {r : Ref El (Option (Value El))} {T : Ty} {x : El T} (h : (r.alternative T).read s = some x) :
    (Other.part r).offset types s = some (offsetOf types T) := by
  obtain ⟨bytes, hbytes, hget⟩ := Option.bind_eq_some_iff.mp h
  obtain ⟨content, hcontent, hvalue⟩ := Option.bind_eq_some_iff.mp hget
  obtain ⟨value, rfl, has⟩ := Option.bind_eq_some_iff.mp hvalue
  have hread : r.read s = some (some value) := by
    have hbytes' : s.bytes r.place = some bytes := hbytes
    rw [Ref.read, hbytes', Option.bind_some, hcontent]
  rw [Other.offset, hread, Option.map_some, as_eq_some has]
  rfl

variable (moved) in
/-- The visit of `other`, which is not in the storage of `d`. -/
theorem initFrom_filled (h : Sound types s) (move : Bool) {other : Other El} (hoffset : s.offset d = some npos)
    (hcontent : other.content s = some content) (htypes : ∀ value ∈ content, value.1 ∈ types)
    (hpart : ∀ r, other = .part r → s.live r.place ≠ none) (hplace : other.place ≠ .data d) :
    ∃ t, initFrom types moved d move other s = some t ∧
      Filled types s t d content (if move then some other.place else none) := by
  have hother := other.offset_eq h hcontent
  have hempty : s.live (.data d) = none := by
    have hheld := h.offset_eq d npos hoffset
    cases hlive : s.live (.data d) with
    | none => rfl
    | some obj =>
      rw [Store.held, hlive] at hheld
      change (-1 : ℤ) = (types.idxOf obj.value.1 : ℤ) at hheld
      omega
  cases content with
  | none => exact ⟨s, visit_empty hother, filled_empty hoffset hempty⟩
  | some value =>
    obtain ⟨T, x⟩ := value
    have href : (other.ref T).place ≠ .data d := by rwa [other.place_ref]
    have hlive : s.live (other.ref T).place ≠ none := by
      cases other with
      | variant w =>
        obtain ⟨-, -, hheld⟩ := Option.map_eq_some_iff.mp hcontent
        obtain ⟨obj, hobj, -⟩ := Option.map_eq_some_iff.mp hheld
        exact Option.ne_none_iff_exists'.mpr ⟨obj, hobj⟩
      | part r => exact hpart r rfl
    obtain ⟨t, hrun, hfilled, -, hread⟩ :=
      initEmpty_filled types moved move hoffset hlive (Other.read_ref hcontent) href
    rw [other.place_ref] at hfilled
    refine ⟨t, visit_eq (htypes _ rfl) hother hrun ?_, hfilled⟩
    cases other with
    | variant w =>
      have hne : w ≠ d := fun heq => hplace (congrArg Place.data heq)
      change t.offset w = _
      rw [hfilled.offset, Function.update_of_ne hne]
      exact hother
    | part r => exact Ref.offset_of_read hread

omit [DecidableEq Ty] in
theorem Other.content_congr {other : Other El} (hlive : t.live other.place = s.live other.place)
    (hpart : ∀ r, other = .part r → s.live r.place ≠ none)
    (hoffset : ∀ w, other = .variant w → t.offset w = s.offset w) : other.content t = other.content s := by
  cases other with
  | variant w =>
    have hlive' : t.live (.data w) = s.live (.data w) := hlive
    rw [Other.content, Other.content, hoffset w rfl, Store.held, Store.held, hlive']
  | part r =>
    obtain ⟨obj, hobj⟩ := Option.ne_none_iff_exists'.mp (hpart r rfl)
    have hobj' : t.live r.place = some obj := Eq.trans hlive hobj
    rw [Other.content, Other.content, Ref.read_of_live hobj, Ref.read_of_live hobj']

end Filled

end TdUtils.Variant
