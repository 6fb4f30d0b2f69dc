import Mathlib.Data.Nat.Notation
import Mathlib.Logic.Function.Basic
import Mathlib.Data.List.Basic
import Mathlib.Data.Int.Notation
import Mathlib.Tactic.SplitIfs

/-!
# Container.Variant — one of several alternatives, with its copies and moves

A variant is `offset_` and a storage in which an object of one of its types may live.  An object is read, moved from and
destroyed as long as it lives; `none` is such a step where no object of the type lives, or a failed check.  A type may be
trivial: its destructor does nothing, and a copy reads the bytes before it writes them, so what was destroyed is read
until the storage is used again.  Objects of the alternatives have numbers, so that the log tells which one is
constructed and destroyed.  To copy an alternative gives an equal value, and neither a copy nor a move throws.
-/

namespace TdUtils.Variant

variable {Ty : Type} {El : Ty → Type}

/-- A type and a value of it. -/
abbrev Value (El : Ty → Type) : Type := (T : Ty) × El T

/-- The storage of a variant, or a place outside of all storages. -/
inductive Place where
  | data (v : ℕ)
  | object (o : ℕ)
deriving DecidableEq

inductive Event where
  | constructed (id : ℕ)
  | destroyed (id : ℕ)
deriving DecidableEq

structure Obj (El : Ty → Type) where
  value : Value El
  id : ℕ

/-- `offset` is `offset_` of the variants that live, and `rest` what the destructor of a trivial type has left in their
storages. -/
structure Store (El : Ty → Type) where
  offset : ℕ → Option ℤ := fun _ => none
  live : Place → Option (Obj El) := fun _ => none
  rest : ℕ → Option (Value El) := fun _ => none
  next : ℕ := 0
  log : List Event := []

def npos : ℤ := -1

def Store.setOffset (s : Store El) (v : ℕ) (x : ℤ) : Store El := { s with offset := Function.update s.offset v (some x) }

/-- What a variant holds. -/
def Store.held (s : Store El) (v : ℕ) : Option (Value El) := (s.live (.data v)).map Obj.value

/-- The value whose bytes are at a place. -/
def Store.bytes (s : Store El) (p : Place) : Option (Value El) :=
  match s.live p, p with
  | some obj, _ => some obj.value
  | none, .data v => s.rest v
  | none, .object _ => none

/-! ### References -/

/-- A reference to the object at a place, or to a part of it. -/
structure Ref (El : Ty → Type) (X : Type) where
  place : Place
  get : Value El → Option X
  put : X → Value El → Value El
  put_fst : ∀ x value, (put x value).1 = value.1
  get_put : ∀ x value, (get value).isSome → get (put x value) = some x

section References

variable {X : Type}

def Ref.read (r : Ref El X) (s : Store El) : Option X := (s.bytes r.place).bind r.get

def Ref.write (r : Ref El X) (x : X) (s : Store El) : Store El :=
  { s with
    live := Function.update s.live r.place ((s.live r.place).map fun obj => { obj with value := r.put x obj.value }) }

variable [DecidableEq Ty]

/-- The value, if it has the type. -/
def as (T : Ty) (value : Value El) : Option (El T) := if h : value.1 = T then some (h ▸ value.2) else none

theorem as_self {T : Ty} (x : El T) : as T ⟨T, x⟩ = some x := dif_pos rfl

def Ref.whole (T : Ty) (place : Place) : Ref El (El T) where
  place := place
  get := as T
  put x value := if value.1 = T then ⟨T, x⟩ else value
  put_fst x value := by
    split_ifs with h
    · exact h.symm
    · rfl
  get_put x value h := by
    by_cases hT : value.1 = T
    · rw [if_pos hT, as_self]
    · rw [as, dif_neg hT] at h
      cases h

/-- The alternative in a variant that is a part of an object. -/
def Ref.alternative (T : Ty) (r : Ref El (Option (Value El))) : Ref El (El T) where
  place := r.place
  get value := (r.get value).bind fun content => content.bind (as T)
  put x := r.put (some ⟨T, x⟩)
  put_fst x := r.put_fst _
  get_put x value h := by
    have hget : (r.get value).isSome := by
      cases hcontent : r.get value with
      | none =>
        rw [hcontent] at h
        exact h
      | some content => rfl
    rw [r.get_put _ _ hget]
    exact as_self x

end References

/-- The operand `other`: a variant, or one that is a part of an object. -/
inductive Other (El : Ty → Type) where
  | variant (w : ℕ)
  | part (r : Ref El (Option (Value El)))

def Other.place : Other El → Place
  | .variant w => .data w
  | .part r => r.place

/-- What `other` holds, if it lives. -/
def Other.content (s : Store El) : Other El → Option (Option (Value El))
  | .variant w => (s.offset w).map fun _ => s.held w
  | .part r => r.read s

variable [DecidableEq Ty]

def Other.ref (T : Ty) : Other El → Ref El (El T)
  | .variant w => .whole T (.data w)
  | .part r => r.alternative T

/-! ### The functions -/

section Functions

variable (types : List Ty) (trivial : Ty → Bool) (moved : (T : Ty) → El T → El T)

/-- `offset<T>()`. -/
def offsetOf (T : Ty) : ℤ := types.idxOf T

/-- `offset_` of a variant with this content. -/
def contentOffset (content : Option (Value El)) : ℤ := content.elim npos fun value => offsetOf types value.1

def Other.offset (s : Store El) : Other El → Option ℤ
  | .variant w => s.offset w
  | .part r => (r.read s).map (contentOffset types)

def forEach (f : ℤ → Ty → Store El → Option (Store El)) (s : Store El) : Option (Store El) :=
  types.zipIdx.foldlM (fun s entry => f entry.2 entry.1 s) s

/-- `visit`, which reads `offset_` again for each type. -/
def visit (offset : Store El → Option ℤ) (f : Ty → Store El → Option (Store El)) : Store El → Option (Store El) :=
  forEach types fun i T s => (offset s).bind fun x => if i = x then f T s else some s

/-- `value.~T()`. -/
def destroyObject (v : ℕ) (T : Ty) (s : Store El) : Option (Store El) :=
  (s.live (.data v)).bind fun obj =>
    if obj.value.1 = T then
      some { s with
        live := Function.update s.live (.data v) none
        rest := Function.update s.rest v (if trivial T then some obj.value else none)
        log := s.log ++ [.destroyed obj.id] }
    else none

def clear (v : ℕ) (s : Store El) : Option (Store El) :=
  (visit types (fun s => s.offset v) (destroyObject trivial v) s).map fun s => s.setOffset v npos

/-- What a constructor of an alternative gets: a copy, or the value itself, of which the source keeps `moved`. -/
def take {T : Ty} (move : Bool) (r : Ref El (El T)) (s : Store El) : Option (El T × Store El) :=
  (r.read s).map fun value => (value, if move then r.write (moved T value) s else s)

/-- The placement `new`. -/
def construct (v : ℕ) (value : Value El) (s : Store El) : Store El :=
  { s with
    live := Function.update s.live (.data v) (some ⟨value, s.next⟩)
    rest := Function.update s.rest v none
    next := s.next + 1
    log := s.log ++ [.constructed s.next] }

def initEmpty {T : Ty} (v : ℕ) (move : Bool) (r : Ref El (El T)) (s : Store El) : Option (Store El) :=
  (s.offset v).bind fun offset =>
    if offset = npos then
      (take moved move r (s.setOffset v (offsetOf types T))).map fun (value, s) => construct v ⟨T, value⟩ s
    else none

/-- `other.visit([&](auto &&value) { this->init_empty(std::forward<decltype(value)>(value)); })`. -/
def initFrom (v : ℕ) (move : Bool) (other : Other El) : Store El → Option (Store El) :=
  visit types (fun s => other.offset types s) fun T => initEmpty types moved v move (other.ref T)

end Functions

/-- The calls; `object` is an object that something else makes. -/
inductive Op (El : Ty → Type) where
  | construct (d : ℕ)
  | constructOther (move : Bool) (d : ℕ) (other : Other El)
  | constructFrom (move : Bool) (d : ℕ) (T : Ty) (r : Ref El (El T))
  | assignOther (move : Bool) (d : ℕ) (other : Other El)
  | assignFrom (move : Bool) (d : ℕ) (T : Ty) (r : Ref El (El T))
  | destroy (d : ℕ)
  | object (o : ℕ) (value : Value El)

def step (types : List Ty) (trivial : Ty → Bool) (moved : (T : Ty) → El T → El T) (s : Store El) :
    Op El → Option (Store El)
  | .construct d => some (s.setOffset d npos)
  | .constructOther move d other => initFrom types moved d move other (s.setOffset d npos)
  | .constructFrom move d _ r => initEmpty types moved d move r (s.setOffset d npos)
  | .assignOther move d other => (clear types trivial d s).bind (initFrom types moved d move other)
  | .assignFrom move d _ r => (clear types trivial d s).bind (initEmpty types moved d move r)
  | .destroy d => (clear types trivial d s).map fun s =>
    { s with offset := Function.update s.offset d none, rest := Function.update s.rest d none }
  | .object o value => some { s with live := Function.update s.live (.object o) (some ⟨value, 0⟩) }

end TdUtils.Variant
