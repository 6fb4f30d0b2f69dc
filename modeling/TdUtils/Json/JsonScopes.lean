import TdUtils.Json.JsonRender
import TdUtils.Json.Scalars

/-!
# Json.JsonScopes — texts written with the scopes of a builder

The operations between the start of a scope and its end are a tree: a value scope prints one text or
enters one list, an array scope has a value scope for each item, and an object scope appends fields
and raw members.
-/

namespace TdUtils.Json

open Lib Bytes JsonBuilder

/-- The text of a `JsonRaw` for an object scope. -/
structure RawMembers where
  text : Bytes
  fields : List (Bytes × JsonValue Bytes)
  spells : Spells (.members fields) text

mutual

/-- What is done with a value scope. -/
inductive Node where
  | leaf (leaf : Leaf)
  | array (items : List Node)
  | object (members : List Member)

/-- What is appended to an object scope. -/
inductive Member where
  | field (key : Bytes) (value : Node)
  | raw (members : RawMembers)

end

/-! ### The run of the scopes -/

/-- `JsonObjectScope::operator<<(const JsonRaw &)`. -/
def JsonListScope.appendRaw (object : JsonListScope) (text : Bytes) (jb : JsonBuilder) :
    Option (JsonListScope × JsonBuilder) :=
  if object.scope.isActive jb then do
    let object := { object with isFirst := true }
    let (value, jb) ← JsonValueScope.enter jb
    let (value, jb) ← value.print text jb
    let jb ← value.scope.leave jb
    return (object, jb)
  else none

mutual

def Node.store : Node → JsonValueScope → JsonBuilder → Option (JsonValueScope × JsonBuilder)
  | .leaf leaf, value, jb => do
    let text ← leaf.text
    value.print text jb
  | .array items, value, jb => do
    let (value, arr, jb) ← value.enterList (ch '[') jb
    let (arr, jb) ← storeNodes items arr jb
    let jb ← arr.leave (ch ']') jb
    return (value, jb)
  | .object members, value, jb => do
    let (value, object, jb) ← value.enterList (ch '{') jb
    let (object, jb) ← storeMembers members object jb
    let jb ← object.leave (ch '}') jb
    return (value, jb)

/-- `enter_value` of an array scope for each item. -/
def storeNodes : List Node → JsonListScope → JsonBuilder → Option (JsonListScope × JsonBuilder)
  | [], arr, jb => some (arr, jb)
  | n :: items, arr, jb => do
    let (arr, jb) ← arr.separate jb
    let (value, jb) ← JsonValueScope.enter jb
    let (value, jb) ← n.store value jb
    let jb ← value.scope.leave jb
    storeNodes items arr jb

/-- `operator()(Slice key, T &&value)` and `operator<<(const JsonRaw &)` of an object scope. -/
def storeMembers : List Member → JsonListScope → JsonBuilder → Option (JsonListScope × JsonBuilder)
  | [], object, jb => some (object, jb)
  | .field key n :: members, object, jb => do
    let (object, jb) ← object.separate jb
    let jb ← storeKey key jb
    let jb := jb.append (if jb.isPretty then chs [' ', ':', ' '] else [ch ':'])
    let (value, jb) ← JsonValueScope.enter jb
    let (value, jb) ← n.store value jb
    let jb ← value.scope.leave jb
    storeMembers members object jb
  | .raw raw :: members, object, jb => do
    let (object, jb) ← object.appendRaw raw.text jb
    storeMembers members object jb

end

/-- `enter_value`, `enter_array` or `enter_object` of a builder. -/
inductive Document where
  | value (n : Node)
  | array (items : List Node)
  | object (members : List Member)

/-- The text that a new builder has in the end. -/
def Document.write (offset : ℤ) (d : Document) : Option Bytes :=
  let jb : JsonBuilder := ⟨[], none, offset⟩
  match d with
  | .value n => do
    let (val, jb) ← JsonValueScope.enter jb
    let (val, jb) ← n.store val jb
    let jb ← val.scope.leave jb
    return jb.sb
  | .array items => do
    let (list, jb) ← JsonListScope.enter (ch '[') jb
    let (list, jb) ← storeNodes items list jb
    let jb ← list.leave (ch ']') jb
    return jb.sb
  | .object members => do
    let (list, jb) ← JsonListScope.enter (ch '{') jb
    let (list, jb) ← storeMembers members list jb
    let jb ← list.leave (ch '}') jb
    return jb.sb

def Document.node : Document → Node
  | .value n => n
  | .array items => .array items
  | .object members => .object members

/-! ### What was written -/

mutual

/-- The value that the operations write. -/
def Node.tree : Node → JsonValue Bytes
  | .leaf leaf => leaf.value
  | .array items => .array (treesOf items)
  | .object members => .object (fieldsOf members)

def treesOf : List Node → List (JsonValue Bytes)
  | [] => []
  | n :: items => n.tree :: treesOf items

def fieldsOf : List Member → List (Bytes × JsonValue Bytes)
  | [] => []
  | .field key n :: members => (key, n.tree) :: fieldsOf members
  | .raw raw :: members => raw.fields ++ fieldsOf members

end

mutual

/-- Every string that is checked is UTF-8. -/
def Node.Printable : Node → Prop
  | .leaf leaf => leaf.text.isSome
  | .array items => PrintableItems items
  | .object members => PrintableMembers members

def PrintableItems : List Node → Prop
  | [] => True
  | n :: items => n.Printable ∧ PrintableItems items

def PrintableMembers : List Member → Prop
  | [] => True
  | .field key n :: members => Text.checkUtf8 key = true ∧ n.Printable ∧ PrintableMembers members
  | .raw _ :: members => PrintableMembers members

end

mutual

/-- A raw text is appended to an object only in front of its other members. -/
def Node.RawsFirst : Node → Prop
  | .leaf _ => True
  | .array items => RawsFirstItems items
  | .object members => RawsFirstMembers false members

def RawsFirstItems : List Node → Prop
  | [] => True
  | n :: items => n.RawsFirst ∧ RawsFirstItems items

/-- The flag says that there is a member in front of these. -/
def RawsFirstMembers : Bool → List Member → Prop
  | _, [] => True
  | _, .field _ n :: members => n.RawsFirst ∧ RawsFirstMembers true members
  | isFirst, .raw _ :: members => isFirst = false ∧ RawsFirstMembers true members

end

mutual

/-- JSON has texts for the scalars. -/
def Node.Spellable : Node → Prop
  | .leaf leaf => leaf.Spellable
  | .array items => SpellableItems items
  | .object members => SpellableMembers members

def SpellableItems : List Node → Prop
  | [] => True
  | n :: items => n.Spellable ∧ SpellableItems items

def SpellableMembers : List Member → Prop
  | [] => True
  | .field _ n :: members => n.Spellable ∧ SpellableMembers members
  | .raw _ :: members => SpellableMembers members

end

/-! ### The scopes append the text -/

mutual

/-- The text of the operations at an indentation. -/
def Node.render (offset : ℤ) : Node → Option Bytes
  | .leaf leaf => leaf.text
  | .array items => do
    let text ← renderNodes (deeper offset) false items
    return [ch '['] ++ text ++ offsetText offset ++ [ch ']']
  | .object members => do
    let text ← renderMembers (deeper offset) false members
    return [ch '{'] ++ text ++ offsetText offset ++ [ch '}']

def renderNodes (offset : ℤ) : Bool → List Node → Option Bytes
  | _, [] => some []
  | isFirst, n :: items => do
    let text ← n.render offset
    let rest ← renderNodes offset true items
    return separator offset isFirst ++ text ++ rest

def renderMembers (offset : ℤ) : Bool → List Member → Option Bytes
  | _, [] => some []
  | isFirst, .field key n :: members => do
    let name ← jsonString key
    let text ← n.render offset
    let rest ← renderMembers offset true members
    return separator offset isFirst ++ name ++ colon offset ++ text ++ rest
  | _, .raw raw :: members => do
    let rest ← renderMembers offset true members
    return raw.text ++ rest

end

/-- A value scope in front of more operations. -/
theorem valueScope_bind {α : Type}
    {f : JsonValueScope → JsonBuilder → Option (JsonValueScope × JsonBuilder)} (jb : JsonBuilder)
    (text : Option Bytes) (k : JsonBuilder → Option α)
    (hf : ∀ scope jb', jb'.offset = jb.offset → f ⟨scope, false⟩ jb' =
      text.map fun t => (⟨scope, true⟩, jb'.append t)) :
    ((JsonValueScope.enter jb).bind fun r => (f r.1 r.2).bind fun r =>
      (r.1.scope.leave r.2).bind k) = text.bind fun t => k (jb.append t) := by
  have hscope := congrArg (Option.bind · k) (valueScope_eq jb text hf)
  simp only [Option.bind_assoc] at hscope
  rw [hscope]
  rcases text with - | t <;> rfl

theorem appendRaw_eq {object : JsonListScope} {jb : JsonBuilder} (text : Bytes)
    (hs : jb.scope = some object.scope.this) : object.appendRaw text jb =
      some ({ object with isFirst := true }, jb.append text) := by
  have hvalue := valueScope_bind (f := fun value jb => value.print text jb) jb (some text)
    (fun jb => some ({ object with isFirst := true }, jb)) (fun scope jb' _ => rfl)
  unfold JsonListScope.appendRaw
  rw [if_pos (show object.scope.isActive jb from hs)]
  exact hvalue

mutual

theorem Node.store_eq : ∀ (n : Node) (scope : JsonScope) (jb : JsonBuilder),
    n.store ⟨scope, false⟩ jb =
      (n.render jb.offset).map fun text => (⟨scope, true⟩, jb.append text)
  | .leaf leaf, scope, jb => by
    simp only [Node.store, Node.render]
    rcases leaf.text with - | text <;> rfl
  | .array items, scope, jb => by
    have h := listScope_eq scope jb (ch '[') (ch ']')
      (renderNodes (deeper jb.offset) false items) (!items.isEmpty) (f := storeNodes items)
      (fun scope jb' ho hs => ho ▸ storeNodes_eq items ⟨scope, false⟩ jb' hs)
    unfold Node.store Node.render
    refine Eq.trans h ?_
    rcases renderNodes (deeper jb.offset) false items with - | text <;> rfl
  | .object members, scope, jb => by
    have h := listScope_eq scope jb (ch '{') (ch '}')
      (renderMembers (deeper jb.offset) false members) (!members.isEmpty)
      (f := storeMembers members)
      (fun scope jb' ho hs => ho ▸ storeMembers_eq members ⟨scope, false⟩ jb' hs)
    unfold Node.store Node.render
    refine Eq.trans h ?_
    rcases renderMembers (deeper jb.offset) false members with - | text <;> rfl

theorem storeNodes_eq : ∀ (items : List Node) (arr : JsonListScope) (jb : JsonBuilder),
    jb.scope = some arr.scope.this →
    storeNodes items arr jb = (renderNodes jb.offset arr.isFirst items).map fun text =>
      (⟨arr.scope, arr.isFirst || !items.isEmpty⟩, jb.append text)
  | [], arr, jb, _ => by simp [storeNodes, renderNodes, JsonBuilder.append]
  | n :: items, arr, jb, hs => by
    let front := jb.append (separator jb.offset arr.isFirst)
    have hvalue := valueScope_bind (f := n.store) front (n.render jb.offset)
      (storeNodes items ⟨arr.scope, true⟩) (fun scope jb' ho => ho ▸ n.store_eq scope jb')
    have hrest := fun text => storeNodes_eq items ⟨arr.scope, true⟩ (front.append text) hs
    unfold storeNodes renderNodes
    rw [separate_eq hs]
    refine Eq.trans hvalue ?_
    rcases n.render jb.offset with - | text
    · rfl
    · simp only [Option.bind_eq_bind, Option.bind_some, hrest]
      change (renderNodes jb.offset true items).map _ = _
      rcases renderNodes jb.offset true items with - | rest
      · rfl
      · simp [front]

theorem storeMembers_eq : ∀ (members : List Member) (object : JsonListScope) (jb : JsonBuilder),
    jb.scope = some object.scope.this →
    storeMembers members object jb = (renderMembers jb.offset object.isFirst members).map fun text =>
      (⟨object.scope, object.isFirst || !members.isEmpty⟩, jb.append text)
  | [], object, jb, _ => by simp [storeMembers, renderMembers, JsonBuilder.append]
  | .field key n :: members, object, jb, hs => by
    let front (name : Bytes) :=
      ((jb.append (separator jb.offset object.isFirst)).append name).append (colon jb.offset)
    have hvalue := fun name => valueScope_bind (f := n.store) (front name) (n.render jb.offset)
      (storeMembers members ⟨object.scope, true⟩) (fun scope jb' ho => ho ▸ n.store_eq scope jb')
    have hrest := fun name text => storeMembers_eq members ⟨object.scope, true⟩
      ((front name).append text) hs
    unfold storeMembers renderMembers
    rw [separate_eq hs]
    simp only [Option.bind_eq_bind, Option.bind_some, storeKey_eq]
    rcases jsonString key with - | name
    · rfl
    · refine Eq.trans (hvalue name) ?_
      rcases n.render jb.offset with - | text
      · rfl
      · simp only [Option.bind_some, hrest]
        change (renderMembers jb.offset true members).map _ = _
        rcases renderMembers jb.offset true members with - | rest
        · rfl
        · simp [front]
  | .raw raw :: members, object, jb, hs => by
    have hrest := storeMembers_eq members ⟨object.scope, true⟩ (jb.append raw.text) hs
    unfold storeMembers renderMembers
    rw [appendRaw_eq raw.text hs]
    simp only [Option.bind_eq_bind, Option.bind_some, hrest]
    change (renderMembers jb.offset true members).map _ = _
    rcases renderMembers jb.offset true members with - | rest
    · rfl
    · simp

end

/-- What an enclosed list leaves in a builder, in front of a last operation. -/
theorem enclosed_bind {f : JsonListScope → JsonBuilder → Option (JsonListScope × JsonBuilder)}
    (jb : JsonBuilder) (open_ close : UInt8) (text : Option Bytes) (last : Bool)
    (hf : ∀ scope jb', jb'.offset = deeper jb.offset → jb'.scope = some scope.this →
      f ⟨scope, false⟩ jb' = text.map fun t => (⟨scope, last⟩, jb'.append t)) :
    ((JsonListScope.enter open_ jb).bind fun r => (f r.1 r.2).bind fun r =>
      (r.1.leave close r.2).bind fun jb => some jb.sb) =
    text.map fun t => jb.sb ++ ([open_] ++ t ++ offsetText jb.offset ++ [close]) := by
  have hbind := congrArg (Option.bind · fun jb => some jb.sb) (enclosed_eq jb open_ close text last hf)
  simp only [Option.bind_assoc] at hbind
  rw [hbind]
  rcases text with - | t <;> rfl

/-- Whatever is entered first, the builder has the text of the operations in the end. -/
theorem Document.write_eq (offset : ℤ) (d : Document) : d.write offset = d.node.render offset := by
  let jb : JsonBuilder := ⟨[], none, offset⟩
  cases d with
  | value n =>
    have hvalue := valueScope_bind (f := n.store) jb (n.render jb.offset) (fun jb => some jb.sb)
      (fun scope jb' ho => ho ▸ n.store_eq scope jb')
    refine Eq.trans hvalue ?_
    change _ = n.render jb.offset
    rcases n.render jb.offset with - | text <;> rfl
  | array items =>
    have henclosed := enclosed_bind jb (ch '[') (ch ']') (renderNodes (deeper jb.offset) false items)
      (!items.isEmpty) (f := storeNodes items)
      (fun scope jb' ho hs => ho ▸ storeNodes_eq items ⟨scope, false⟩ jb' hs)
    refine Eq.trans henclosed ?_
    change _ = (Node.array items).render jb.offset
    unfold Node.render
    rcases renderNodes (deeper jb.offset) false items with - | text <;> rfl
  | object members =>
    have henclosed := enclosed_bind jb (ch '{') (ch '}') (renderMembers (deeper jb.offset) false members)
      (!members.isEmpty) (f := storeMembers members)
      (fun scope jb' ho hs => ho ▸ storeMembers_eq members ⟨scope, false⟩ jb' hs)
    refine Eq.trans henclosed ?_
    change _ = (Node.object members).render jb.offset
    unfold Node.render
    rcases renderMembers (deeper jb.offset) false members with - | text <;> rfl

end TdUtils.Json
