import TdUtils.Concurrent.MpscLinkCalls
import TdUtils.Lib.Pointers

/-!
# Container.SharedObjectPool — raws that are counted, and used again when nobody refers to them

A raw is returned to the free queue when its counter goes to zero, and its data are destroyed; `none` as the result of
a call is a failed check or a use of data that are not there.
-/

namespace TdUtils

/-- `SharedPtrRaw`; without data its magic is set. -/
structure SharedPtrRaw (δ : Type) where
  refCnt : ℕ := 0
  data : Option δ := none
deriving DecidableEq

/-- `allocated` are the raws at their addresses; a `Ptr` that is destroyed is `none`. -/
structure SharedObjectPool (δ : Type) where
  allocated : List (SharedPtrRaw δ) := []
  freeQueue : MpscLinkQueue Unit ℕ := {}
  ptrs : List (Option (Option ℕ)) := []

namespace SharedObjectPool

inductive Op (δ : Type) where
  | null
  | alloc (data : δ)
  | copy (h : ℕ)
  | move (h : ℕ)
  | assign (dest src : ℕ)
  | assignMove (dest src : ℕ)
  | reset (h : ℕ)
  | destroy (h : ℕ)
deriving DecidableEq

inductive Answer where
  | nothing
  | allocated (raw : ℕ)
deriving DecidableEq

variable {δ : Type}

def push (s : SharedObjectPool δ) (ptr : Option ℕ) : SharedObjectPool δ := { s with ptrs := s.ptrs ++ [some ptr] }

def put (s : SharedObjectPool δ) (h : ℕ) (ptr : Option (Option ℕ)) : SharedObjectPool δ :=
  { s with ptrs := s.ptrs.set h ptr }

def setRaw (s : SharedObjectPool δ) (raw : ℕ) (value : SharedPtrRaw δ) : SharedObjectPool δ :=
  { s with allocated := s.allocated.set raw value }

def inc (s : SharedObjectPool δ) : Option ℕ → Option (SharedObjectPool δ)
  | none => some s
  | some raw => s.allocated[raw]?.map fun value => s.setRaw raw { value with refCnt := value.refCnt + 1 }

def freeRaw (s : SharedObjectPool δ) (raw : ℕ) : Option (SharedObjectPool δ) :=
  (s.freeQueue.pushNode raw).map fun freeQueue => { s with freeQueue := freeQueue }

/-- What `reset` does to the raw of a `Ptr`. -/
def drop (s : SharedObjectPool δ) : Option ℕ → Option (SharedObjectPool δ)
  | none => some s
  | some raw =>
    match s.allocated[raw]? with
    | none => none
    | some value =>
      if value.refCnt = 1 then
        value.data.bind fun _ => (s.setRaw raw { refCnt := value.refCnt - 1 }).freeRaw raw
      else some (s.setRaw raw { value with refCnt := value.refCnt - 1 })

/-- A free raw is used again, and else a new one is allocated. -/
def allocRaw (s : SharedObjectPool δ) : Option (SharedObjectPool δ × ℕ) :=
  match (s.freeQueue.popNodes (s.allocated.length + 1)).bind MpscLinkQueue.readNode with
  | none => none
  | some (freeQueue, some raw) => some ({ s with freeQueue := freeQueue }, raw)
  | some (freeQueue, none) =>
    some ({ s with freeQueue := freeQueue, allocated := s.allocated ++ [{}] }, s.allocated.length)

def initData (s : SharedObjectPool δ) (raw : ℕ) (data : δ) : Option (SharedObjectPool δ) :=
  s.allocated[raw]?.map fun value => s.setRaw raw { value with data := some data }

def alloc (s : SharedObjectPool δ) (data : δ) : Option (SharedObjectPool δ × Answer) :=
  match s.allocRaw with
  | none => none
  | some (s, raw) => ((s.initData raw data).bind fun s => s.inc (some raw)).map fun s => (s.push (some raw), .allocated raw)

/-- A call on a variable that is destroyed, or on none, is not a program and changes nothing. -/
def step (s : SharedObjectPool δ) : Op δ → Option (SharedObjectPool δ × Answer)
  | .null => some (s.push none, .nothing)
  | .alloc data => s.alloc data
  | .copy h => match s.ptrs[h]? with
    | some (some raw) => (s.inc raw).map fun s => (s.push raw, .nothing)
    | _ => some (s, .nothing)
  | .move h => match s.ptrs[h]? with
    | some (some raw) => some ((s.put h (some none)).push raw, .nothing)
    | _ => some (s, .nothing)
  | .assign dest src => match s.ptrs[dest]?, s.ptrs[src]? with
    | some (some raw), some (some other) =>
      ((s.inc other).bind fun s => s.drop raw).map fun s => (s.put dest (some other), .nothing)
    | _, _ => some (s, .nothing)
  | .assignMove dest src => match s.ptrs[dest]?, s.ptrs[src]? with
    | some (some raw), some (some other) =>
      (s.drop raw).map fun s => ((s.put dest (some other)).put src (some none), .nothing)
    | _, _ => some (s, .nothing)
  | .reset h => match s.ptrs[h]? with
    | some (some raw) => (s.drop raw).map fun s => (s.put h (some none), .nothing)
    | _ => some (s, .nothing)
  | .destroy h => match s.ptrs[h]? with
    | some (some raw) => (s.drop raw).map fun s => (s.put h none, .nothing)
    | _ => some (s, .nothing)

def machine (δ : Type) : Lib.Machine (SharedObjectPool δ) (Op δ) Answer := ⟨step⟩

/-- The loop of the destructor of the pool, in at most as many rounds. -/
def countFree : ℕ → MpscLinkQueue Unit ℕ → ℕ → Option ℕ
  | 0, _, _ => none
  | rounds + 1, freeQueue, freeCnt =>
    match freeQueue.readNode with
    | some (freeQueue, some _) => countFree rounds freeQueue (freeCnt + 1)
    | some (_, none) => some freeCnt
    | none => none

/-- The checks of the destructors of the pool and of the raws. -/
def closes (s : SharedObjectPool δ) : Bool :=
  match (s.freeQueue.popNodes (s.allocated.length + 1)).bind fun freeQueue =>
      countFree (s.allocated.length + 1) freeQueue 0 with
  | none => false
  | some freeCnt => freeCnt = s.allocated.length && s.allocated.all fun raw => raw.refCnt = 0 && raw.data.isNone

/-- The number of `Ptr`s that refer to a raw. -/
def refs (s : SharedObjectPool δ) (raw : ℕ) : ℕ := Lib.refs Option.join s.ptrs raw

end SharedObjectPool

end TdUtils
