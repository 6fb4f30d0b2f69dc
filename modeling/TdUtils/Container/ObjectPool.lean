import TdUtils.Lib.LinkedList
import TdUtils.Lib.Machine
import TdUtils.Lib.Pointers

/-!
# Container.ObjectPool — storages that are owned by one pointer each, or wait in a free list

A storage is never deallocated while the pool lives: its generation tells a `WeakPtr` that it was released.  The data
of a storage own no pointers, and are left out.
-/

namespace TdUtils

namespace ObjectPool

/-- `parent` says whether `parent_` is the pool or null. -/
structure OwnerPtr where
  storage : Option ℕ := none
  parent : Bool := false
deriving DecidableEq

structure WeakPtr where
  generation : BitVec 32
  storage : ℕ
deriving DecidableEq

end ObjectPool

open ObjectPool in
/-- The storages are at the addresses below `allocated`; an owner that is destroyed is `none`. -/
structure ObjectPool where
  next : ℕ → Option ℕ := fun _ => none
  generation : ℕ → BitVec 32 := fun _ => 1
  allocated : ℕ := 0
  storageCount : BitVec 32 := 0
  head : Option ℕ := none
  owners : List (Option OwnerPtr) := []

namespace ObjectPool

inductive Op where
  | null
  | create
  | createEmpty
  | move (h : ℕ)
  | assign (dest src : ℕ)
  | reset (h : ℕ)
  | destroy (h : ℕ)
  | getWeak (h : ℕ)
deriving DecidableEq

inductive Answer where
  | nothing
  | weak (ptr : WeakPtr)
  | released (storage : ℕ)
deriving DecidableEq

/-- `none` as the result of a call is a null pointer that is dereferenced. -/
def getStorage (s : ObjectPool) : ObjectPool × ℕ :=
  match s.head with
  | none => ({ s with
      storageCount := s.storageCount + 1
      next := Function.update s.next s.allocated none
      generation := Function.update s.generation s.allocated 1
      allocated := s.allocated + 1 }, s.allocated)
  | some res => ({ s with head := s.next res }, res)

def releaseStorage (s : ObjectPool) (storage : ℕ) : ObjectPool :=
  { s with next := Function.update s.next storage s.head, head := some storage }

def destroyData (s : ObjectPool) (storage : ℕ) : ObjectPool :=
  { s with generation := Function.update s.generation storage (s.generation storage + 1) }

/-- `release` of the pool. -/
def release (s : ObjectPool) (owner : OwnerPtr) : Option (ObjectPool × Answer) :=
  owner.storage.map fun storage => ((s.destroyData storage).releaseStorage storage, .released storage)

def push (s : ObjectPool) (owner : OwnerPtr) : ObjectPool := { s with owners := s.owners ++ [some owner] }

def put (s : ObjectPool) (h : ℕ) (owner : Option OwnerPtr) : ObjectPool := { s with owners := s.owners.set h owner }

/-- `reset` of an owner, after which the variable is `left`. -/
def reset (s : ObjectPool) (h : ℕ) (owner : OwnerPtr) (left : Option OwnerPtr) : Option (ObjectPool × Answer) :=
  match owner.storage with
  | none => some (s.put h left, .nothing)
  | some tmp => if owner.parent then (s.put h left).release ⟨some tmp, owner.parent⟩ else none

/-- A call on a variable that is destroyed, or on none, is not a program and changes nothing. -/
def step (s : ObjectPool) : Op → Option (ObjectPool × Answer)
  | .null => some (s.push {}, .nothing)
  | .create | .createEmpty => some (s.getStorage.1.push ⟨some s.getStorage.2, true⟩, .nothing)
  | .move h => match s.owners[h]? with
    | some (some other) => some ((s.put h (some {})).push other, .nothing)
    | _ => some (s, .nothing)
  | .assign dest src => match s.owners[dest]?, s.owners[src]? with
    | some (some _), some (some other) =>
      if dest = src then some (s, .nothing) else some ((s.put dest (some other)).put src (some {}), .nothing)
    | _, _ => some (s, .nothing)
  | .reset h => match s.owners[h]? with
    | some (some owner) => s.reset h owner (some { owner with storage := none })
    | _ => some (s, .nothing)
  | .destroy h => match s.owners[h]? with
    | some (some owner) => s.reset h owner none
    | _ => some (s, .nothing)
  | .getWeak h => match s.owners[h]? with
    | some (some ⟨some storage, _⟩) => some (s, .weak ⟨s.generation storage, storage⟩)
    | _ => some (s, .nothing)

def machine : Lib.Machine ObjectPool Op Answer := ⟨step⟩

def isAlive (s : ObjectPool) (ptr : WeakPtr) : Bool := ptr.generation = s.generation ptr.storage

/-- The loop of the destructor, in as many rounds. -/
def deleteAll : ℕ → ObjectPool → Option ObjectPool
  | 0, _ => none
  | rounds + 1, s =>
    match s.head with
    | none => some s
    | some toDelete => deleteAll rounds { s with head := s.next toDelete, storageCount := s.storageCount - 1 }

/-! ### What holds of the storages -/

def ownedBy (owner : Option OwnerPtr) : Option ℕ := owner.bind OwnerPtr.storage

/-- Every storage has one owner, or is in the free list once. -/
def Placed (s : ObjectPool) : Prop :=
  ∃ free, Lib.Links s.next s.head free ∧
    ∀ b, Lib.refs ownedBy s.owners b + free.count b = if b < s.allocated then 1 else 0

/-- A weak pointer is alive as long as the storage has an owner and was not released since. -/
def WeakOk (s : ObjectPool) (answers : List Answer) : Prop :=
  ∀ first ptr mid, answers = first ++ .weak ptr :: mid →
    (s.isAlive ptr = true ↔ 0 < Lib.refs ownedBy s.owners ptr.storage ∧ .released ptr.storage ∉ mid)

/-- The check of the destructor holds when there are no owners. -/
def Closes (s : ObjectPool) : Prop :=
  (∀ b, Lib.refs ownedBy s.owners b = 0) → ∃ rounds t, deleteAll rounds s = some t ∧ t.storageCount = 0

/-- No owner of a storage is assigned to, except itself. -/
def Keeps (s : ObjectPool) : Op → Prop
  | .assign dest src => dest ≠ src → s.owners[src]?.join ≠ none →
    ∀ owner ∈ s.owners[dest]?.join, owner.storage = none
  | _ => True

end ObjectPool

end TdUtils
