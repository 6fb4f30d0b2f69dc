import Mathlib.Data.List.Basic

/-!
# Json.JsonValue — JSON values over any type of strings

The decoder makes values of slices into its buffer; what they stand for are values of byte strings.
`traverse` goes from one to the other.
-/

namespace TdUtils.Json

inductive JsonValue (α : Type) where
  | null
  | number (number : α)
  | boolean (boolean : Bool)
  | string (string : α)
  | array (array : List (JsonValue α))
  | object (object : List (α × JsonValue α))
  deriving Repr

variable {α β : Type}

mutual

/-- Replace every string and number by `f` of it. -/
def JsonValue.traverse (f : α → Option β) : JsonValue α → Option (JsonValue β)
  | .null => some .null
  | .number n => do return .number (← f n)
  | .boolean b => some (.boolean b)
  | .string s => do return .string (← f s)
  | .array items => do return .array (← traverseItems f items)
  | .object fields => do return .object (← traverseFields f fields)

def traverseItems (f : α → Option β) : List (JsonValue α) → Option (List (JsonValue β))
  | [] => some []
  | v :: items => do
    let v ← v.traverse f
    let items ← traverseItems f items
    return v :: items

def traverseFields (f : α → Option β) : List (α × JsonValue α) → Option (List (β × JsonValue β))
  | [] => some []
  | (key, v) :: fields => do
    let key ← f key
    let v ← v.traverse f
    let fields ← traverseFields f fields
    return (key, v) :: fields

end

section Traverse

variable {f g : α → Option β}

mutual

/-- A larger `f` gives the same results where the smaller one gives any. -/
theorem JsonValue.traverse_mono (h : ∀ a b, f a = some b → g a = some b) :
    ∀ (v : JsonValue α) (w : JsonValue β), v.traverse f = some w → v.traverse g = some w
  | .null, _, hw | .boolean _, _, hw => hw
  | .number n, w, hw | .string n, w, hw => by
    simp only [JsonValue.traverse, Option.bind_eq_bind, Option.bind_eq_some_iff] at hw ⊢
    obtain ⟨b, hb, hw⟩ := hw
    exact ⟨b, h _ _ hb, hw⟩
  | .array items, w, hw => by
    simp only [JsonValue.traverse, Option.bind_eq_bind, Option.bind_eq_some_iff] at hw ⊢
    obtain ⟨ws, hws, hw⟩ := hw
    exact ⟨ws, traverseItems_mono h _ _ hws, hw⟩
  | .object fields, w, hw => by
    simp only [JsonValue.traverse, Option.bind_eq_bind, Option.bind_eq_some_iff] at hw ⊢
    obtain ⟨ws, hws, hw⟩ := hw
    exact ⟨ws, traverseFields_mono h _ _ hws, hw⟩

theorem traverseItems_mono (h : ∀ a b, f a = some b → g a = some b) :
    ∀ (items : List (JsonValue α)) (ws : List (JsonValue β)),
      traverseItems f items = some ws → traverseItems g items = some ws
  | [], _, hw => hw
  | v :: items, ws, hw => by
    simp only [traverseItems, Option.bind_eq_bind, Option.bind_eq_some_iff] at hw ⊢
    obtain ⟨w, hv, ws, hws, hw⟩ := hw
    exact ⟨w, v.traverse_mono h _ hv, ws, traverseItems_mono h _ _ hws, hw⟩

theorem traverseFields_mono (h : ∀ a b, f a = some b → g a = some b) :
    ∀ (fields : List (α × JsonValue α)) (ws : List (β × JsonValue β)),
      traverseFields f fields = some ws → traverseFields g fields = some ws
  | [], _, hw => hw
  | (key, v) :: fields, ws, hw => by
    simp only [traverseFields, Option.bind_eq_bind, Option.bind_eq_some_iff] at hw ⊢
    obtain ⟨b, hk, w, hv, ws, hws, hw⟩ := hw
    exact ⟨b, h _ _ hk, w, v.traverse_mono h _ hv, ws, traverseFields_mono h _ _ hws, hw⟩

end

end Traverse

section Parts

mutual

/-- The strings and keys, in the order of the text. -/
def JsonValue.strings : JsonValue α → List α
  | .string s => [s]
  | .array items => stringsOfItems items
  | .object fields => stringsOfFields fields
  | _ => []

def stringsOfItems : List (JsonValue α) → List α
  | [] => []
  | v :: items => v.strings ++ stringsOfItems items

def stringsOfFields : List (α × JsonValue α) → List α
  | [] => []
  | (key, v) :: fields => key :: v.strings ++ stringsOfFields fields

end

mutual

/-- The number tokens. -/
def JsonValue.numbers : JsonValue α → List α
  | .number n => [n]
  | .array items => numbersOfItems items
  | .object fields => numbersOfFields fields
  | _ => []

def numbersOfItems : List (JsonValue α) → List α
  | [] => []
  | v :: items => v.numbers ++ numbersOfItems items

def numbersOfFields : List (α × JsonValue α) → List α
  | [] => []
  | (_, v) :: fields => v.numbers ++ numbersOfFields fields

end

mutual

/-- The largest number of arrays and objects around a value in it. -/
def JsonValue.depth : JsonValue α → ℕ
  | .array items => depthOfItems items
  | .object fields => depthOfFields fields
  | _ => 0

def depthOfItems : List (JsonValue α) → ℕ
  | [] => 0
  | v :: items => max (v.depth + 1) (depthOfItems items)

def depthOfFields : List (α × JsonValue α) → ℕ
  | [] => 0
  | (_, v) :: fields => max (v.depth + 1) (depthOfFields fields)

end

theorem stringsOfItems_eq : ∀ items : List (JsonValue α),
    stringsOfItems items = items.flatMap JsonValue.strings
  | [] => rfl
  | v :: items => by rw [stringsOfItems, stringsOfItems_eq items, List.flatMap_cons]

theorem stringsOfFields_eq : ∀ fields : List (α × JsonValue α),
    stringsOfFields fields = fields.flatMap fun field => field.1 :: field.2.strings
  | [] => rfl
  | (key, v) :: fields => by rw [stringsOfFields, stringsOfFields_eq fields, List.flatMap_cons]

theorem numbersOfItems_eq : ∀ items : List (JsonValue α),
    numbersOfItems items = items.flatMap JsonValue.numbers
  | [] => rfl
  | v :: items => by rw [numbersOfItems, numbersOfItems_eq items, List.flatMap_cons]

theorem numbersOfFields_eq : ∀ fields : List (α × JsonValue α),
    numbersOfFields fields = fields.flatMap fun field => field.2.numbers
  | [] => rfl
  | (_, v) :: fields => by rw [numbersOfFields, numbersOfFields_eq fields, List.flatMap_cons]

theorem depthOfItems_lt {n : ℕ} : ∀ {items : List (JsonValue α)},
    depthOfItems items < n + 1 ↔ ∀ v ∈ items, v.depth < n
  | [] => by simp [depthOfItems]
  | v :: items => by
    rw [depthOfItems, Nat.max_lt, depthOfItems_lt, List.forall_mem_cons]
    exact and_congr_left' Nat.add_lt_add_iff_right

theorem depthOfFields_lt {n : ℕ} : ∀ {fields : List (α × JsonValue α)},
    depthOfFields fields < n + 1 ↔ ∀ field ∈ fields, field.2.depth < n
  | [] => by simp [depthOfFields]
  | (key, v) :: fields => by
    rw [depthOfFields, Nat.max_lt, depthOfFields_lt, List.forall_mem_cons]
    exact and_congr_left' Nat.add_lt_add_iff_right

end Parts

end TdUtils.Json
