import Mathlib.Data.Nat.Notation
import Mathlib.Order.Defs.LinearOrder
import Mathlib.Order.Lattice

/-!
# DecTree.DecTree — a tree on keys and on priorities

`<` on the keys is the `Compare` of the source.  The priority `y` of a new node is drawn by the caller of
`insertNode`.
-/

namespace TdUtils

/-- `null` is the null pointer. -/
inductive DecTree (κ ν : Type) where
  | null
  | node (left right : DecTree κ ν) (size : ℕ) (key : κ) (value : ν) (y : ℕ)

namespace DecTree

variable {κ ν : Type}

/-- The size of the tree, from the field of its root. -/
def size : DecTree κ ν → ℕ
  | null => 0
  | node _ _ size _ _ _ => size

/-- Compute the field `size_` of the root anew. -/
def relax : DecTree κ ν → DecTree κ ν
  | null => null
  | node left right _ key value y => node left right (1 + left.size + right.size) key value y

def createNode (key : κ) (value : ν) (y : ℕ) : DecTree κ ν := node null null 1 key value y

variable [LinearOrder κ]

def splitNode : DecTree κ ν → κ → DecTree κ ν × DecTree κ ν
  | null, _ => (null, null)
  | node left right size treeKey treeValue treeY, key =>
    if key < treeKey then
      let P := splitNode left key
      (P.1, relax (node P.2 right size treeKey treeValue treeY))
    else
      let P := splitNode right key
      (relax (node left P.1 size treeKey treeValue treeY), P.2)

def mergeNode : DecTree κ ν → DecTree κ ν → DecTree κ ν
  | null, right => right
  | left, null => left
  | node left₁ right₁ size₁ key₁ value₁ y₁, node left₂ right₂ size₂ key₂ value₂ y₂ =>
    if y₁ < y₂ then
      relax (node (mergeNode (node left₁ right₁ size₁ key₁ value₁ y₁) left₂) right₂ size₂ key₂ value₂
        y₂)
    else
      relax (node left₁ (mergeNode right₁ (node left₂ right₂ size₂ key₂ value₂ y₂)) size₁ key₁ value₁
        y₁)
termination_by left right => sizeOf left + sizeOf right

def insertNode : DecTree κ ν → κ → ν → ℕ → DecTree κ ν
  | null, key, value, y => createNode key value y
  | node left right size treeKey treeValue treeY, key, value, y =>
    if treeY < y then
      let P := splitNode (node left right size treeKey treeValue treeY) key
      relax (node P.1 P.2 1 key value y)
    else if key < treeKey then
      relax (node (insertNode left key value y) right size treeKey treeValue treeY)
    else if treeKey < key then
      relax (node left (insertNode right key value y) size treeKey treeValue treeY)
    else relax (node left right size treeKey treeValue treeY)

def removeNode : DecTree κ ν → κ → DecTree κ ν
  | null, _ => null
  | node left right size treeKey treeValue treeY, key =>
    if key < treeKey then relax (node (removeNode left key) right size treeKey treeValue treeY)
    else if treeKey < key then relax (node left (removeNode right key) size treeKey treeValue treeY)
    else relax (mergeNode left right)

def getNode : DecTree κ ν → κ → Option ν
  | null, _ => none
  | node left right _ treeKey treeValue _, key =>
    if key < treeKey then getNode left key
    else if treeKey < key then getNode right key
    else some treeValue

omit [LinearOrder κ] in
/-- `none` is the failed `CHECK`. -/
def getNodeByIdx : DecTree κ ν → ℕ → Option ν
  | null, _ => none
  | node left right _ _ value _, idx =>
    let s := left.size
    if idx < s then getNodeByIdx left idx
    else if idx = s then some value
    else getNodeByIdx right (idx - s - 1)

/-! ### The operations -/

def insert (tree : DecTree κ ν) (key : κ) (value : ν) (y : ℕ) : DecTree κ ν :=
  insertNode tree key value y

def remove (tree : DecTree κ ν) (key : κ) : DecTree κ ν := removeNode tree key

def get (tree : DecTree κ ν) (key : κ) : Option ν := getNode tree key

/-- `r` is what `Random::fast_uint32` draws; a null pointer is `some none`. -/
def getRandom (tree : DecTree κ ν) (r : ℕ) : Option (Option ν) :=
  if tree.size = 0 then some none else (getNodeByIdx tree (r % tree.size)).map some

def exists' (tree : DecTree κ ν) (key : κ) : Bool := (getNode tree key).isSome

/-! ### Runs -/

inductive Op (κ ν : Type) where
  | insert (key : κ) (value : ν)
  | remove (key : κ)

/-- One operation, with the priority that is drawn if it inserts. -/
def step (tree : DecTree κ ν) : Op κ ν × ℕ → DecTree κ ν
  | (.insert key value, y) => tree.insert key value y
  | (.remove key, _) => tree.remove key

/-- The tree after a list of operations. -/
def build (ops : List (Op κ ν × ℕ)) : DecTree κ ν := ops.foldl step null

end DecTree

end TdUtils
