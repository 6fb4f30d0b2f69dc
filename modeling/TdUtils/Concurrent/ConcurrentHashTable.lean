import TdUtils.Lib.Fails
import TdUtils.Lib.Probing

/-!
# Concurrent.ConcurrentHashTable — a growing hash map, used from one thread

The atomic operations of one thread are reads and writes.  Arrays have an address, because `do_migrate` compares
pointers; the loops that could go on for ever are bounded, and reaching the bound is a failure of its own.
-/

namespace TdUtils.Concurrent

open Lib

universe u v w

variable {K : Type u} {V : Type v} [DecidableEq K] [DecidableEq V]

namespace ConcurrentHashTable

/-- What the templates know of `KeyT` and `ValueT`: the value `KeyT{}`, the cast to `size_t`, the values `ValueT{}` and
`(ValueT)(1)`. -/
structure Types (K : Type u) (V : Type v) where
  emptyKey : K
  toSize : K → ℕ
  emptyValue : V
  migrateValue : V
  values_ne : emptyValue ≠ migrateValue

/-- 64-bit numbers as keys and values. -/
def numbers : Types ℕ ℕ := ⟨0, id, 0, 1, by decide⟩

structure Node (K : Type u) (V : Type v) where
  key : K
  value : V

abbrev Nodes (K : Type u) (V : Type v) := List (Node K V)

inductive Failure (K : Type u) (V : Type v)
  /-- A failed `CHECK`. -/
  | check
  /-- "Migration overflow", with the array that is moved. -/
  | overflow (nodes : Nodes K V)
  /-- A null pointer or an index out of range. -/
  | invalid
  /-- The thread waits for another one. -/
  | waits
  /-- The bound of a loop. -/
  | passes

/-- How many slots `with_value` looks at. -/
def window (size : ℕ) : ℕ := min (max 300 (size / 16 + 2)) size

namespace Types

variable (T : Types K V)

/-- `AtomicHashArray(size_t n)`. -/
def newArray (n : ℕ) : Nodes K V := List.replicate n ⟨T.emptyKey, T.emptyValue⟩

/-- The loop of `with_value`; the answer is the slot of which `f` gets the value. -/
def probe (nodes : Nodes K V) (key : K) (shouldCreate : Bool) : ℕ → ℕ → Option ℕ
  | 0, _ => none
  | n + 1, pos =>
    let pos := if nodes.length ≤ pos + 1 then 0 else pos + 1
    match nodes[pos]? with
    | none => none
    | some node =>
      if node.key = T.emptyKey then if shouldCreate then some pos else none
      else if node.key = key then some pos
      else probe nodes key shouldCreate n pos

/-- `with_value`; `f` returns the new value of the slot, and what it sets outside. -/
def withValue {R : Type w} (nodes : Nodes K V) (key : K) (shouldCreate : Bool) (f : V → V × R) :
    Option (Nodes K V × R) :=
  match T.probe nodes key shouldCreate (window nodes.length) (T.toSize key % nodes.length) with
  | none => none
  | some pos =>
    match nodes[pos]? with
    | none => none
    | some node => some (nodes.set pos ⟨key, (f node.value).1⟩, (f node.value).2)

end Types

/-! ### `ConcurrentHashMap` -/

structure HashMap (K : Type u) (V : Type v) where
  address : ℕ
  nodes : Nodes K V

structure ConcurrentHashMap (K : Type u) (V : Type v) where
  hashMap : Option (HashMap K V)
  migrateCnt : ℕ
  migrateGeneration : ℕ
  migrateFrom : Option (HashMap K V)
  migrateTo : Option (HashMap K V)
  /-- The address of the next array. -/
  allocated : ℕ

structure Task where
  begin_ : ℕ
  end_ : ℕ

/-- `TaskCreator::create` with the chunks of `init_migrate`. -/
def createTask (size pos : ℕ) : Task := ⟨pos * 100, min (pos * 100 + 100) size⟩

def Task.empty (task : Task) : Bool := task.end_ ≤ task.begin_

namespace Types

variable (T : Types K V)

/-- The constructor; it makes an array with one slot. -/
def new : ConcurrentHashMap K V := ⟨some ⟨0, T.newArray 1⟩, 0, 0, none, none, 1⟩

/-- The body of the loop of `run_task`, on the old and the new array. -/
def runNode (arrays : Nodes K V × Nodes K V) (i : ℕ) : Except (Failure K V) (Nodes K V × Nodes K V) :=
  match arrays.1[i]? with
  | none => .error .invalid
  | some node =>
    let old := arrays.1.set i { node with value := T.migrateValue }
    if node.value = T.emptyValue then .ok (old, arrays.2)
    else
      match T.withValue arrays.2 node.key true fun _ => (node.value, ()) with
      | none => .error (.overflow old)
      | some (nodes, _) => .ok (old, nodes)

def runTask (task : Task) (arrays : Nodes K V × Nodes K V) : Except (Failure K V) (Nodes K V × Nodes K V) :=
  (List.range' task.begin_ (task.end_ - task.begin_)).foldlM T.runNode arrays

def runMigrate (size : ℕ) : ℕ → ℕ → Nodes K V × Nodes K V → Except (Failure K V) (Nodes K V × Nodes K V)
  | 0, _, _ => .error .passes
  | n + 1, pos, arrays =>
    let task := createTask size pos
    if task.empty then .ok arrays
    else do
      let arrays ← T.runTask task arrays
      runMigrate size n (pos + 1) arrays

def initMigrate (s : ConcurrentHashMap K V) : Except (Failure K V) (ConcurrentHashMap K V) :=
  if s.migrateFrom.isSome then .ok s
  else if s.migrateCnt ≠ 0 then .error .check
  else
    match s.hashMap with
    | none => .error .invalid
    | some array => .ok { s with
        migrateGeneration := s.migrateGeneration + 1
        hashMap := none
        migrateFrom := some array
        migrateTo := some ⟨s.allocated, T.newArray (array.nodes.length * 2)⟩
        allocated := s.allocated + 1 }

def finishMigrate (s : ConcurrentHashMap K V) : ConcurrentHashMap K V :=
  { s with
    hashMap := s.migrateTo
    migrateFrom := none
    migrateTo := none
    migrateGeneration := s.migrateGeneration + 1 }

/-- `do_migrate`, with the address of the array. -/
def doMigrate (s : ConcurrentHashMap K V) (ptr : Option ℕ) : Except (Failure K V) (ConcurrentHashMap K V) :=
  if s.hashMap.map HashMap.address ≠ ptr then .ok s
  else do
    let s ← T.initMigrate s
    if ptr.isSome ∧ s.migrateFrom.map HashMap.address ≠ ptr then .error .check
    else
      let s := { s with migrateCnt := s.migrateCnt + 1 }
      let generation := s.migrateGeneration
      match s.migrateFrom, s.migrateTo with
      | some old, some new => do
        let size := old.nodes.length
        let arrays ← T.runMigrate size (size / 100 + 2) 0 (old.nodes, new.nodes)
        let s := { s with
          migrateFrom := some { old with nodes := arrays.1 }
          migrateTo := some { new with nodes := arrays.2 }
          migrateCnt := s.migrateCnt - 1 }
        let s := if s.migrateCnt = 0 then finishMigrate s else s
        if s.migrateGeneration = generation then .error .waits else .ok s
      | _, _ => .error .invalid

/-- What `insert` does with the value of a slot; the answer is the inserted value if there is one. -/
def offer (value old : V) : V × Option V :=
  if old = T.emptyValue then (value, some value) else if old = T.migrateValue then (old, none) else (old, some old)

/-- The loop of `insert`. -/
def insertLoop (key : K) (value : V) :
    ℕ → ConcurrentHashMap K V → Except (Failure K V) (ConcurrentHashMap K V × V)
  | 0, _ => .error .passes
  | n + 1, s =>
    match s.hashMap with
    | none => do
      let s ← T.doMigrate s none
      insertLoop key value n s
    | some array =>
      match T.withValue array.nodes key true (T.offer value) with
      | some (nodes, some inserted) => .ok ({ s with hashMap := some { array with nodes } }, inserted)
      | some (nodes, none) => do
        let s ← T.doMigrate { s with hashMap := some { array with nodes } } (some array.address)
        insertLoop key value n s
      | none => do
        let s ← T.doMigrate s (some array.address)
        insertLoop key value n s

/-- The loop of `find`; a value that was read takes the place of the default. -/
def findLoop (key : K) : ℕ → ConcurrentHashMap K V → V → Except (Failure K V) (ConcurrentHashMap K V × V)
  | 0, _, _ => .error .passes
  | n + 1, s, value =>
    match s.hashMap with
    | none => do
      let s ← T.doMigrate s none
      findLoop key n s value
    | some array =>
      match T.withValue array.nodes key false (fun old => (old, old)) with
      | none => .ok (s, value)
      | some (_, value) =>
        if value ≠ T.migrateValue then .ok (s, value)
        else do
          let s ← T.doMigrate s (some array.address)
          findLoop key n s value

end Types

inductive Call (K : Type u) (V : Type v)
  | insert (key : K) (value : V)
  | find (key : K) (value : V)

/-- How often a call looks for its slot; in between there is a migration. -/
def passes : ℕ := 5

/-- A call on the map. -/
def Types.call (T : Types K V) (s : ConcurrentHashMap K V) :
    Call K V → Except (Failure K V) (ConcurrentHashMap K V × V)
  | .insert key value =>
    if key = T.emptyKey then .error .check
    else if value = T.migrateValue then .error .check
    else T.insertLoop key value passes s
  | .find key value => if key = T.emptyKey then .error .check else T.findLoop key passes s value

/-- Calls one after another, with their answers. -/
def Types.calls (T : Types K V) (cs : List (Call K V)) : Except (Failure K V) (ConcurrentHashMap K V × List V) :=
  cs.foldlM (fun s c => do
    let (s', answer) ← T.call s.1 c
    return (s', s.2 ++ [answer])) (T.new, [])

end ConcurrentHashTable

end TdUtils.Concurrent
