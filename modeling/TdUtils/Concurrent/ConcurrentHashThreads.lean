import Mathlib.Logic.Function.Basic
import TdUtils.Concurrent.ConcurrentHashSlots
import TdUtils.Lib.Machine

/-!
# Concurrent.ConcurrentHashThreads — the hash map, used from many threads

A step of a thread is one atomic operation or one critical section.  Hazard pointers keep an array alive that a thread
uses, so an address is used once and `protect` is one load.  A thread that has nothing to do does nothing; `none` is a failed
check, a null pointer or an empty optional.  `Guarded` adds the hazard pointers of the threads, with the loop of `protect`
and the checks of `Holder` and `retire`.
-/

namespace TdUtils.Concurrent

open Lib Probing ConcurrentHashTable

def ConcurrentHashTable.Call.key {K V : Type} : Call K V → K
  | .insert key _ => key
  | .find key _ => key

namespace ConcurrentHashThreads

structure HashArray (K V : Type) where
  size : ℕ
  key : ℕ → K
  value : ℕ → V

namespace HashArray

variable {K V : Type}

def setKey (A : HashArray K V) (p : ℕ) (key : K) : HashArray K V := { A with key := Function.update A.key p key }

def setValue (A : HashArray K V) (p : ℕ) (value : V) : HashArray K V := { A with value := Function.update A.value p value }

end HashArray

structure Shared (K V : Type) where
  arrays : ℕ → HashArray K V
  /-- The address of the next array. -/
  allocated : ℕ
  hashMap : Option ℕ
  migrateCnt : ℕ
  migrateGeneration : ℕ
  migrateFrom : Option ℕ
  migrateTo : Option ℕ
  /-- The fields of `task_creator`. -/
  taskSize : ℕ
  taskPos : ℕ

/-- Where a thread is.  An array and the number of slots that were passed, for `with_value` on the map; the place `j` in a
task up to `end_`, for `run_task`. -/
inductive At (K V : Type)
  /-- At `holder.protect`. -/
  | start
  /-- At the load of a key. -/
  | probe (array i : ℕ)
  /-- At the exchange of an empty key. -/
  | claim (array i : ℕ)
  /-- At the operation on the value. -/
  | use (array i : ℕ)
  /-- At the first critical section of `do_migrate`. -/
  | enter (ptr : Option ℕ)
  | create (generation : ℕ)
  /-- At the exchange of the value. -/
  | take (generation j end_ : ℕ)
  /-- At the load of the key of the value that was taken. -/
  | load (generation j end_ : ℕ) (old : V)
  | moveProbe (generation j end_ : ℕ) (old : V) (key : K) (i : ℕ)
  | moveClaim (generation j end_ : ℕ) (old : V) (key : K) (i : ℕ)
  | moveStore (generation j end_ : ℕ) (old : V) (key : K) (i : ℕ)
  /-- At the second critical section of `do_migrate`. -/
  | leave (generation : ℕ)
  | wait (generation : ℕ)

inductive Thread (K V : Type)
  | idle
  | busy (call : Call K V) (at_ : At K V)

inductive Answer (K V : Type)
  | nothing
  | called
  | inserted (key : K) (value : V)
  | found (key : K) (value : V)

variable {K V : Type} [DecidableEq K] [DecidableEq V]

namespace Shared

def setKey (m : Shared K V) (a p : ℕ) (key : K) : Shared K V :=
  { m with arrays := Function.update m.arrays a ((m.arrays a).setKey p key) }

def setValue (m : Shared K V) (a p : ℕ) (value : V) : Shared K V :=
  { m with arrays := Function.update m.arrays a ((m.arrays a).setValue p value) }

end Shared

section Steps

variable (T : Types K V)

def newArray (n : ℕ) : HashArray K V := ⟨n, fun _ => T.emptyKey, fun _ => T.emptyValue⟩

/-- The constructor. -/
def new : Shared K V := ⟨fun _ => newArray T 1, 1, some 0, 0, 0, none, none, 0, 0⟩

/-- The slot of `with_value` after it has passed `i` slots. -/
def slotAt (A : HashArray K V) (key : K) (i : ℕ) : ℕ := T.path A.size key i

/-- `with_value` returns false. -/
def notFound (a : ℕ) : Call K V → Thread K V × Answer K V
  | .insert key value => (.busy (.insert key value) (.enter (some a)), .nothing)
  | .find key value => (.idle, .found key value)

/-- The load of a key in the loop of `with_value`. -/
def probeMap (m : Shared K V) (call : Call K V) (a i : ℕ) : Thread K V × Answer K V :=
  let A := m.arrays a
  if i < window A.size then
    let nodeKey := A.key (slotAt T A call.key i)
    if nodeKey = T.emptyKey then
      match call with
      | .insert .. => (.busy call (.claim a i), .nothing)
      | .find .. => notFound a call
    else if nodeKey = call.key then (.busy call (.use a i), .nothing)
    else (.busy call (.probe a (i + 1)), .nothing)
  else notFound a call

/-- `compare_exchange_strong` on the key of a slot. -/
def claimKey (m : Shared K V) (a : ℕ) (key : K) (i : ℕ) : Shared K V × Bool :=
  let p := slotAt T (m.arrays a) key i
  if (m.arrays a).key p = T.emptyKey then (m.setKey a p key, true) else (m, false)

/-- What `insert` and `find` do with the value of the slot. -/
def useValue (m : Shared K V) (call : Call K V) (a i : ℕ) : Shared K V × Thread K V × Answer K V :=
  let p := slotAt T (m.arrays a) call.key i
  let nodeValue := (m.arrays a).value p
  match call with
  | .insert key value =>
    if nodeValue = T.emptyValue then (m.setValue a p value, .idle, .inserted key value)
    else if nodeValue = T.migrateValue then (m, .busy call (.enter (some a)), .nothing)
    else (m, .idle, .inserted key nodeValue)
  | .find key _ =>
    if nodeValue ≠ T.migrateValue then (m, .idle, .found key nodeValue)
    else (m, .busy (.find key nodeValue) (.enter (some a)), .nothing)

/-- What `init_migrate` does for the array `a`. -/
def beginMigrate (m : Shared K V) (a : ℕ) : Shared K V :=
  let newSize := (m.arrays a).size * 2
  { m with
    migrateGeneration := m.migrateGeneration + 1
    hashMap := none
    migrateFrom := some a
    arrays := Function.update m.arrays m.allocated (newArray T newSize)
    migrateTo := some m.allocated
    allocated := m.allocated + 1
    taskSize := (m.arrays a).size
    taskPos := 0 }

def initMigrate (m : Shared K V) : Option (Shared K V) :=
  if m.migrateFrom.isSome then some m
  else if m.migrateCnt ≠ 0 then none
  else do
    let a ← m.hashMap
    return beginMigrate T m a

/-- `do_migrate` up to `run_migrate`. -/
def enterMigrate (m : Shared K V) (call : Call K V) (ptr : Option ℕ) : Option (Shared K V × Thread K V) :=
  if m.hashMap ≠ ptr then some (m, .busy call .start)
  else do
    let m ← initMigrate T m
    if ptr.isSome ∧ m.migrateFrom ≠ ptr then none
    else return ({ m with migrateCnt := m.migrateCnt + 1 }, .busy call (.create m.migrateGeneration))

def finishMigrate (m : Shared K V) : Shared K V :=
  { m with
    hashMap := m.migrateTo
    migrateFrom := none
    migrateTo := none
    migrateGeneration := m.migrateGeneration + 1 }

/-- `do_migrate` behind `run_migrate`. -/
def leaveMigrate (m : Shared K V) : Shared K V :=
  let m := { m with migrateCnt := m.migrateCnt - 1 }
  if m.migrateCnt = 0 then finishMigrate m else m

/-- The load of a key in the loop of `with_value` on the new array; the end of the loop is "Migration overflow". -/
def probeTarget (m : Shared K V) (generation j end_ : ℕ) (old : V) (key : K) (i : ℕ) : Option (At K V) := do
  let A := m.arrays (← m.migrateTo)
  if i < window A.size then
    let nodeKey := A.key (slotAt T A key i)
    if nodeKey = T.emptyKey then return .moveClaim generation j end_ old key i
    else if nodeKey = key then return .moveStore generation j end_ old key i
    else return .moveProbe generation j end_ old key (i + 1)
  else none

/-- One step of a thread in a call. -/
def run (m : Shared K V) (call : Call K V) : At K V → Option (Shared K V × Thread K V × Answer K V)
  | .start =>
    match m.hashMap with
    | none => some (m, .busy call (.enter none), .nothing)
    | some a => some (m, .busy call (.probe a 0), .nothing)
  | .probe a i => some (m, probeMap T m call a i)
  | .claim a i =>
    let (m, ok) := claimKey T m a call.key i
    some (m, .busy call (if ok then .use a i else .probe a i), .nothing)
  | .use a i => some (useValue T m call a i)
  | .enter ptr => do
    let (m, thread) ← enterMigrate T m call ptr
    return (m, thread, .nothing)
  | .create generation =>
    let task := createTask m.taskSize m.taskPos
    some ({ m with taskPos := m.taskPos + 1 },
      .busy call (if task.empty then .leave generation else .take generation task.begin_ task.end_), .nothing)
  | .take generation j end_ =>
    if j < end_ then do
      let a ← m.migrateFrom
      let old := (m.arrays a).value j
      return (m.setValue a j T.migrateValue,
        .busy call (if old = T.emptyValue then .take generation (j + 1) end_ else .load generation j end_ old), .nothing)
    else some (m, .busy call (.create generation), .nothing)
  | .load generation j end_ old => do
    let a ← m.migrateFrom
    let key := (m.arrays a).key j
    if key = T.emptyKey then none else return (m, .busy call (.moveProbe generation j end_ old key 0), .nothing)
  | .moveProbe generation j end_ old key i => do
    let next ← probeTarget T m generation j end_ old key i
    return (m, .busy call next, .nothing)
  | .moveClaim generation j end_ old key i => do
    let a ← m.migrateTo
    let (m, ok) := claimKey T m a key i
    return (m, .busy call (if ok then .moveStore generation j end_ old key i else .moveProbe generation j end_ old key i),
      .nothing)
  | .moveStore generation j end_ old key i => do
    let a ← m.migrateTo
    return (m.setValue a (slotAt T (m.arrays a) key i) old, .busy call (.take generation (j + 1) end_), .nothing)
  | .leave generation => some (leaveMigrate m, .busy call (.wait generation), .nothing)
  | .wait generation =>
    some (m, .busy call (if m.migrateGeneration ≠ generation then .start else .wait generation), .nothing)

/-! ### The machine -/

structure ConcurrentHashMap (ι K V : Type) where
  shared : Shared K V
  threads : ι → Thread K V

inductive Event (ι K V : Type)
  | call (t : ι) (call : Call K V)
  | step (t : ι)

/-- The checks at the beginning of a call. -/
def Accepts : Call K V → Prop
  | .insert key value => key ≠ T.emptyKey ∧ value ≠ T.migrateValue
  | .find key _ => key ≠ T.emptyKey

instance (call : Call K V) : Decidable (Accepts T call) :=
  match call with
  | .insert _ _ => inferInstanceAs (Decidable (_ ∧ _))
  | .find _ _ => inferInstanceAs (Decidable (_ ≠ _))

variable {ι : Type} [DecidableEq ι]

def step (s : ConcurrentHashMap ι K V) : Event ι K V → Option (ConcurrentHashMap ι K V × Answer K V)
  | .call t call =>
    match s.threads t with
    | .idle =>
      if Accepts T call then
        some ({ s with threads := Function.update s.threads t (.busy call .start) }, .called)
      else none
    | .busy .. => some (s, .nothing)
  | .step t =>
    match s.threads t with
    | .idle => some (s, .nothing)
    | .busy call at_ => do
      let (m, thread, answer) ← run T s.shared call at_
      return (⟨m, Function.update s.threads t thread⟩, answer)

variable (ι) in
def machine : Machine (ConcurrentHashMap ι K V) (Event ι K V) (Answer K V) := ⟨step T⟩

variable (ι) in
def start : ConcurrentHashMap ι K V := ⟨new T, fun _ => .idle⟩

/-! ### The hazard pointers -/

/-- What a hazard pointer is: null, the 1 that a `Holder` begins with, or an array. -/
inductive Hazard
  | null
  | one
  | array (a : ℕ)
deriving DecidableEq

/-- A thread is before one of the two operations of the loop of `do_protect`. -/
inductive Protecting
  | load (saved : Option ℕ)
  | store (toSave : Option ℕ)

/-- The map with `hp_`, which has one hazard pointer for a thread id. -/
structure Guarded (ι K V : Type) where
  map : ConcurrentHashMap ι K V
  hazard : ℕ → Hazard
  protecting : ι → Protecting

/-- The size of `hp_`. -/
def hazardThreads : ℕ := 64

/-- The constructor of a `Holder`. -/
def newHolder (hazard : ℕ → Hazard) (threadId : ℕ) : Option (ℕ → Hazard) :=
  if threadId < hazardThreads then
    if hazard threadId = .null then some (Function.update hazard threadId .one) else none
  else none

/-- A `Holder` ends when the call of the thread returns. -/
def endHolder (hazard : ℕ → Hazard) (threadId : ℕ) : Thread K V → (ℕ → Hazard)
  | .idle => Function.update hazard threadId .null
  | .busy .. => hazard

/-- The last thread of a migration retires the old array. -/
def retires (m : Shared K V) : Thread K V → Bool
  | .busy _ (.leave _) => m.migrateCnt - 1 = 0
  | _ => false

variable (threadId : ι → ℕ)

/-- A step of the map itself. -/
def guardedRun (s : Guarded ι K V) (t : ι) : Option (Guarded ι K V × Answer K V) := do
  let (map, answer) ← step T s.map (.step t)
  if retires s.map.shared (s.map.threads t) = true ∧ ¬ threadId t < hazardThreads then none
  else
    return (⟨map, endHolder s.hazard (threadId t) (map.threads t), Function.update s.protecting t (.load none)⟩, answer)

/-- The loop of `protect` ends with the load of the pointer that is saved. -/
def guardedProtect (s : Guarded ι K V) (t : ι) : Option (Guarded ι K V × Answer K V) :=
  match s.protecting t with
  | .load saved =>
    if s.map.shared.hashMap = saved then guardedRun T threadId s t
    else some ({ s with protecting := Function.update s.protecting t (.store s.map.shared.hashMap) }, .nothing)
  | .store toSave =>
    let value : Hazard := match toSave with
      | none => .null
      | some a => .array a
    some ({ s with
      hazard := Function.update s.hazard (threadId t) value
      protecting := Function.update s.protecting t (.load toSave) }, .nothing)

def guardedStep (s : Guarded ι K V) : Event ι K V → Option (Guarded ι K V × Answer K V)
  | .call t call =>
    match s.map.threads t with
    | .idle => do
      let (map, answer) ← step T s.map (.call t call)
      let hazard ← newHolder s.hazard (threadId t)
      return (⟨map, hazard, Function.update s.protecting t (.load none)⟩, answer)
    | .busy .. => some (s, .nothing)
  | .step t =>
    match s.map.threads t with
    | .idle => some (s, .nothing)
    | .busy _ .start => guardedProtect T threadId s t
    | .busy .. => guardedRun T threadId s t

def guardedMachine : Machine (Guarded ι K V) (Event ι K V) (Answer K V) := ⟨guardedStep T threadId⟩

variable (ι) in
def guardedStart : Guarded ι K V := ⟨start T ι, fun _ => .null, fun _ => .load none⟩

end Steps

end ConcurrentHashThreads

end TdUtils.Concurrent
