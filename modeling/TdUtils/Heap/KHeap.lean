import Mathlib.Algebra.Group.Nat.Defs
import Mathlib.Data.Int.Notation
import Mathlib.Data.List.Basic
import Mathlib.Logic.Function.Basic
import Mathlib.Order.Basic
import Mathlib.Order.Lattice
import TdUtils.Lib.Machine

/-!
# Heap.KHeap — a heap with back pointers

`HeapNode *` is a type `N` of nodes; the field `pos_` of all nodes is part of the state.  `none` as the
result of an operation is a failed `CHECK`, an access out of range, or an `int` that overflows.
-/

namespace TdUtils

open Lib

universe u

structure KHeap.Item (α N : Type u) where
  key : α
  node : N
deriving DecidableEq

/-- `pos` is -1 outside the heap. -/
structure KHeap (α N : Type u) where
  array : List (KHeap.Item α N)
  pos : N → ℤ

namespace KHeap

variable {α N : Type u} [LinearOrder α] [DecidableEq N]

def intMax : ℕ := 2 ^ 31 - 1

def new : KHeap α N := ⟨[], fun _ => -1⟩

/-- The size of the array as an `int`. -/
def intSize (h : KHeap α N) : Option ℕ :=
  if h.array.length ≤ intMax then some h.array.length else none

/-- Put an item at a position and set the back pointer of its node. -/
def place (h : KHeap α N) (pos : ℕ) (item : Item α N) : KHeap α N :=
  ⟨h.array.set pos item, Function.update h.pos item.node pos⟩

def remove (h : KHeap α N) (node : N) : KHeap α N :=
  { h with pos := Function.update h.pos node (-1) }

/-- The loop of `fix_up`; the item is on its way up from the hole at `pos`. -/
def fixUpLoop (K : ℕ) (item : Item α N) : ℕ → KHeap α N → ℕ → Option (KHeap α N)
  | 0, _, _ => none
  | fuel + 1, h, pos =>
    if pos = 0 then some (h.place pos item)
    else
      let parentPos := (pos - 1) / K
      match h.array[parentPos]? with
      | none => none
      | some parentItem =>
        if parentItem.key < item.key then some (h.place pos item)
        else fixUpLoop K item fuel (h.place pos parentItem) parentPos

def fixUp (K : ℕ) (h : KHeap α N) (pos : ℕ) : Option (KHeap α N) :=
  match h.array[pos]? with
  | none => none
  | some item => fixUpLoop K item (pos + 1) h pos

/-- The inner loop of `fix_down`: the position and the key of the first least child that is less than
`key`, else `pos` and `key`. -/
def nextChild (array : List (Item α N)) (pos : ℕ) (key : α) (leftPos rightPos : ℕ) :
    Option (ℕ × α) :=
  (List.range' leftPos (rightPos - leftPos)).foldlM
    (fun next i => array[i]?.map fun item => if item.key < next.2 then (i, item.key) else next)
    (pos, key)

/-- The loop of `fix_down`; the item is on its way down from the hole at `pos`. -/
def fixDownLoop (K : ℕ) (item : Item α N) : ℕ → KHeap α N → ℕ → Option (KHeap α N)
  | 0, _, _ => none
  | fuel + 1, h, pos =>
    let leftPos := pos * K + 1
    if leftPos + K ≤ intMax then
      match h.intSize with
      | none => none
      | some size =>
        match nextChild h.array pos item.key leftPos (min (leftPos + K) size) with
        | none => none
        | some (nextPos, _) =>
          if nextPos = pos then some (h.place pos item)
          else
            match h.array[nextPos]? with
            | none => none
            | some next => fixDownLoop K item fuel (h.place pos next) nextPos
    else none

def fixDown (K : ℕ) (h : KHeap α N) (pos : ℕ) : Option (KHeap α N) :=
  match h.array[pos]? with
  | none => none
  | some item => fixDownLoop K item h.array.length h pos

/-- `erase(int)`. -/
def erasePos (K : ℕ) (h : KHeap α N) (pos : ℕ) : Option (KHeap α N) :=
  match h.array.getLast? with
  | none => none
  | some last =>
    if pos < h.array.length then
      let h := { h with array := (h.array.set pos last).dropLast }
      h.intSize.bind fun size =>
        if pos < size then (fixDown K h pos).bind fun h => fixUp K h pos else some h
    else none

/-! ### The operations -/

def topKey (h : KHeap α N) : Option α := h.array[0]?.map Item.key

def pop (K : ℕ) (h : KHeap α N) : Option (KHeap α N × N) :=
  match h.array[0]? with
  | none => none
  | some top => (erasePos K (h.remove top.node) 0).map fun h => (h, top.node)

def insert (K : ℕ) (h : KHeap α N) (key : α) (node : N) : Option (KHeap α N) :=
  if h.pos node = -1 then
    let h := { h with array := h.array ++ [(⟨key, node⟩ : Item α N)] }
    h.intSize.bind fun size => fixUp K h (size - 1)
  else none

/-- The key of a node in the heap. -/
def keyOf (h : KHeap α N) (node : N) : Option α := h.array[(h.pos node).toNat]?.map Item.key

def fix (K : ℕ) (h : KHeap α N) (key : α) (node : N) : Option (KHeap α N) :=
  if h.pos node ≠ -1 then
    let pos := (h.pos node).toNat
    match h.array[pos]? with
    | none => none
    | some old =>
      let h := { h with array := h.array.set pos { old with key := key } }
      if key < old.key then fixUp K h pos else fixDown K h pos
  else none

def erase (K : ℕ) (h : KHeap α N) (node : N) : Option (KHeap α N) :=
  if h.pos node ≠ -1 then erasePos K (h.remove node) (h.pos node).toNat else none

/-! ### Runs -/

inductive Op (α N : Type u) where
  | insert (key : α) (node : N)
  | fix (key : α) (node : N)
  | erase (node : N)
  | pop
  | topKey

inductive Answer (α N : Type u) where
  | none
  | node (node : N)
  | key (key : α)
deriving DecidableEq

def step (K : ℕ) (h : KHeap α N) : Op α N → Option (KHeap α N × Answer α N)
  | .insert key node => (insert K h key node).map fun h => (h, .none)
  | .fix key node => (fix K h key node).map fun h => (h, .none)
  | .erase node => (erase K h node).map fun h => (h, .none)
  | .pop => (pop K h).map fun r => (r.1, .node r.2)
  | .topKey => (topKey h).map fun key => (h, .key key)

def machine (α N : Type u) [LinearOrder α] [DecidableEq N] (K : ℕ) :
    Machine (KHeap α N) (Op α N) (Answer α N) := ⟨step K⟩

end KHeap

end TdUtils
