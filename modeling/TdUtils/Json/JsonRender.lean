import TdUtils.Json.JsonEncode

/-!
# Json.JsonRender — the text that the encoder makes

`render` is the text of a value as a function of the value and the indentation.  The encoder appends
it to the builder whenever its scope is the innermost one, so that of its `CHECK`s only those on
strings can fail.
-/

namespace TdUtils.Json

open Lib Bytes JsonBuilder

/-- The indentation inside brackets. -/
def deeper (offset : ℤ) : ℤ := if 0 ≤ offset then offset + 1 else offset

def colon (offset : ℤ) : List UInt8 := if 0 ≤ offset then chs [' ', ':', ' '] else [ch ':']

/-- What stands in front of an element. -/
def separator (offset : ℤ) (isFirst : Bool) : List UInt8 :=
  (if isFirst then [ch ','] else []) ++ offsetText offset

mutual

/-- The text of a value; none where a string cannot be printed. -/
def render (offset : ℤ) : JsonValue (List UInt8) → Option (List UInt8)
  | .null => some (chs ['n', 'u', 'l', 'l'])
  | .boolean true => some (chs ['t', 'r', 'u', 'e'])
  | .boolean false => some (chs ['f', 'a', 'l', 's', 'e'])
  | .number number => some number
  | .string string => jsonString string
  | .array items => do
    let text ← renderItems (deeper offset) false items
    return [ch '['] ++ text ++ offsetText offset ++ [ch ']']
  | .object fields => do
    let text ← renderFields (deeper offset) false fields
    return [ch '{'] ++ text ++ offsetText offset ++ [ch '}']

def renderItems (offset : ℤ) : Bool → List (JsonValue (List UInt8)) → Option (List UInt8)
  | _, [] => some []
  | isFirst, v :: items => do
    let text ← render offset v
    let rest ← renderItems offset true items
    return separator offset isFirst ++ text ++ rest

def renderFields (offset : ℤ) :
    Bool → List (List UInt8 × JsonValue (List UInt8)) → Option (List UInt8)
  | _, [] => some []
  | isFirst, (key, v) :: fields => do
    let name ← jsonString key
    let text ← render offset v
    let rest ← renderFields offset true fields
    return separator offset isFirst ++ name ++ colon offset ++ text ++ rest

end

/-! ### The encoder appends the text -/

@[simp] theorem JsonBuilder.scope_append (jb : JsonBuilder) (text : List UInt8) :
    (jb.append text).scope = jb.scope := rfl

@[simp] theorem JsonBuilder.offset_append (jb : JsonBuilder) (text : List UInt8) :
    (jb.append text).offset = jb.offset := rfl

@[simp] theorem JsonBuilder.append_append (jb : JsonBuilder) (text text' : List UInt8) :
    (jb.append text).append text' = jb.append (text ++ text') := by
  simp [JsonBuilder.append]

theorem enter_eq (jb : JsonBuilder) : ∃ this, JsonScope.enter jb =
    some (⟨this, jb.scope⟩, { jb with scope := some this }) := by
  unfold JsonScope.enter
  rcases jb.scope with - | outer
  · exact ⟨0, rfl⟩
  · exact ⟨outer + 1, if_pos rfl⟩

/-- A value scope lives only as long as one text is appended. -/
theorem valueScope_eq {f : JsonValueScope → JsonBuilder → Option (JsonValueScope × JsonBuilder)}
    (jb : JsonBuilder) (text : Option (List UInt8))
    (hf : ∀ scope jb', jb'.offset = jb.offset → f ⟨scope, false⟩ jb' =
      text.map fun t => (⟨scope, true⟩, jb'.append t)) :
    ((JsonValueScope.enter jb).bind fun r => (f r.1 r.2).bind fun r => r.1.scope.leave r.2) =
      text.map jb.append := by
  obtain ⟨this, he⟩ := enter_eq jb
  have hstore := hf ⟨this, jb.scope⟩ { jb with scope := some this } rfl
  unfold JsonValueScope.enter
  simp only [he, Option.bind_eq_bind, Option.bind_some, Option.pure_def, hstore]
  rcases text with - | t
  · rfl
  · exact if_pos rfl

theorem storeKey_eq (key : List UInt8) (jb : JsonBuilder) :
    storeKey key jb = (jsonString key).map jb.append := by
  have h := valueScope_eq (f := fun value jb => (jsonString key).bind fun t => value.print t jb) jb
    (jsonString key) (fun scope jb' _ => by rcases jsonString key with - | t <;> rfl)
  rw [← h]
  unfold storeKey
  rcases JsonValueScope.enter jb with - | r
  · rfl
  · simp only [Option.bind_eq_bind, Option.bind_some]
    rcases jsonString key with - | t <;> rfl

theorem decOffset_deeper (jb : JsonBuilder) (text : List UInt8) (scope : Option ℕ) :
    (JsonBuilder.mk text scope (deeper jb.offset)).decOffset = some ⟨text, scope, jb.offset⟩ := by
  unfold decOffset deeper
  by_cases h : 0 ≤ jb.offset
  · simp only [if_pos h]
    rw [if_pos (by omega), if_pos (by omega), Int.add_sub_cancel]
  · simp only [if_neg h]

/-- The brackets of a list around what its elements append. -/
theorem enclosed_eq {f : JsonListScope → JsonBuilder → Option (JsonListScope × JsonBuilder)}
    (jb : JsonBuilder) (open_ close : UInt8) (text : Option (List UInt8)) (last : Bool)
    (hf : ∀ scope jb', jb'.offset = deeper jb.offset → jb'.scope = some scope.this →
      f ⟨scope, false⟩ jb' = text.map fun t => (⟨scope, last⟩, jb'.append t)) :
    ((JsonListScope.enter open_ jb).bind fun r => (f r.1 r.2).bind fun r => r.1.leave close r.2) =
      text.map fun t => jb.append ([open_] ++ t ++ offsetText jb.offset ++ [close]) := by
  obtain ⟨this, he⟩ := enter_eq jb
  have hinc : ({ jb with scope := some this } : JsonBuilder).incOffset.append [open_] =
      ⟨jb.sb ++ [open_], some this, deeper jb.offset⟩ := by
    unfold incOffset deeper JsonBuilder.append
    split_ifs <;> rfl
  have hlist := hf ⟨this, jb.scope⟩ ⟨jb.sb ++ [open_], some this, deeper jb.offset⟩ rfl rfl
  unfold JsonListScope.enter
  simp only [he, Option.bind_eq_bind, Option.bind_some, Option.pure_def, hinc, hlist]
  rcases text with - | t
  · rfl
  · have hdec := decOffset_deeper jb (jb.sb ++ [open_] ++ t) (some this)
    simp only [Option.map_some, Option.bind_some, JsonListScope.leave, JsonBuilder.append,
      Option.bind_eq_bind, hdec, printOffset]
    have hactive : JsonScope.isActive ⟨this, jb.scope⟩
        ⟨jb.sb ++ [open_] ++ t ++ offsetText jb.offset ++ [close], some this, jb.offset⟩ := rfl
    rw [JsonScope.leave, if_pos hactive]
    simp

/-- A list that is entered from a value scope. -/
theorem listScope_eq {f : JsonListScope → JsonBuilder → Option (JsonListScope × JsonBuilder)}
    (scope : JsonScope) (jb : JsonBuilder) (open_ close : UInt8) (text : Option (List UInt8))
    (last : Bool)
    (hf : ∀ scope jb', jb'.offset = deeper jb.offset → jb'.scope = some scope.this →
      f ⟨scope, false⟩ jb' = text.map fun t => (⟨scope, last⟩, jb'.append t)) :
    (((⟨scope, false⟩ : JsonValueScope).enterList open_ jb).bind fun r =>
      (f r.2.1 r.2.2).bind fun r' => (r'.1.leave close r'.2).bind fun jb => some (r.1, jb)) =
    text.map fun t =>
      (⟨scope, true⟩, jb.append ([open_] ++ t ++ offsetText jb.offset ++ [close])) := by
  have henclosed := congrArg (Option.map fun jb => ((⟨scope, true⟩ : JsonValueScope), jb))
    (enclosed_eq jb open_ close text last hf)
  rw [Option.map_map] at henclosed
  refine Eq.trans ?_ henclosed
  unfold JsonValueScope.enterList
  rw [if_neg (by simp)]
  rcases JsonListScope.enter open_ jb with - | r
  · rfl
  · simp only [Option.bind_eq_bind, Option.bind_some, Option.pure_def]
    rcases f r.1 r.2 with - | r'
    · rfl
    · simp only [Option.bind_some]
      rcases r'.1.leave close r'.2 with - | jb' <;> rfl

theorem separate_eq {list : JsonListScope} {jb : JsonBuilder}
    (hs : jb.scope = some list.scope.this) : list.separate jb =
      some ({ list with isFirst := true }, jb.append (separator jb.offset list.isFirst)) := by
  unfold JsonListScope.separate separator printOffset
  rw [if_pos (show list.scope.isActive jb from hs)]
  cases list.isFirst <;> simp

mutual

theorem store_eq : ∀ (v : JsonValue (List UInt8)) (scope : JsonScope) (jb : JsonBuilder),
    store v ⟨scope, false⟩ jb =
      (render jb.offset v).map fun text => (⟨scope, true⟩, jb.append text)
  | .null, _, _ | .boolean true, _, _ | .boolean false, _, _ | .number _, _, _ => rfl
  | .string string, scope, jb => by
    simp only [store, render]
    rcases jsonString string with - | text <;> rfl
  | .array items, scope, jb => by
    have h := listScope_eq scope jb (ch '[') (ch ']')
      (renderItems (deeper jb.offset) false items) (false || !items.isEmpty) (f := storeItems items)
      (fun scope jb' ho hs => ho ▸ storeItems_eq items ⟨scope, false⟩ jb' hs)
    unfold store render
    refine Eq.trans h ?_
    rcases renderItems (deeper jb.offset) false items with - | text <;> rfl
  | .object fields, scope, jb => by
    have h := listScope_eq scope jb (ch '{') (ch '}')
      (renderFields (deeper jb.offset) false fields) (false || !fields.isEmpty)
      (f := storeFields fields)
      (fun scope jb' ho hs => ho ▸ storeFields_eq fields ⟨scope, false⟩ jb' hs)
    unfold store render
    refine Eq.trans h ?_
    rcases renderFields (deeper jb.offset) false fields with - | text <;> rfl

theorem storeItems_eq : ∀ (items : List (JsonValue (List UInt8))) (arr : JsonListScope)
    (jb : JsonBuilder), jb.scope = some arr.scope.this →
    storeItems items arr jb = (renderItems jb.offset arr.isFirst items).map fun text =>
      (⟨arr.scope, arr.isFirst || !items.isEmpty⟩, jb.append text)
  | [], arr, jb, _ => by simp [storeItems, renderItems, JsonBuilder.append]
  | v :: items, arr, jb, hs => by
    have hvalue := valueScope_eq (f := store v) (jb.append (separator jb.offset arr.isFirst))
      (render jb.offset v) (fun scope jb' ho => ho ▸ store_eq v scope jb')
    have hrest := fun text => storeItems_eq items ⟨arr.scope, true⟩
      ((jb.append (separator jb.offset arr.isFirst)).append text) hs
    unfold storeItems renderItems
    rw [separate_eq hs]
    simp only [Option.bind_eq_bind, Option.bind_some, Option.pure_def]
    rw [← Option.bind_assoc] at hvalue ⊢
    rw [← Option.bind_assoc, hvalue]
    rcases render jb.offset v with - | text
    · rfl
    · simp only [Option.map_some, Option.bind_some, hrest, offset_append]
      rcases renderItems jb.offset true items with - | rest
      · rfl
      · simp

theorem storeFields_eq : ∀ (fields : List (List UInt8 × JsonValue (List UInt8)))
    (object : JsonListScope) (jb : JsonBuilder), jb.scope = some object.scope.this →
    storeFields fields object jb = (renderFields jb.offset object.isFirst fields).map fun text =>
      (⟨object.scope, object.isFirst || !fields.isEmpty⟩, jb.append text)
  | [], object, jb, _ => by simp [storeFields, renderFields, JsonBuilder.append]
  | (key, v) :: fields, object, jb, hs => by
    let front (name : List UInt8) :=
      ((jb.append (separator jb.offset object.isFirst)).append name).append (colon jb.offset)
    have hvalue := fun name => valueScope_eq (f := store v) (front name)
      (render jb.offset v) (fun scope jb' ho => ho ▸ store_eq v scope jb')
    have hrest := fun name text => storeFields_eq fields ⟨object.scope, true⟩
      ((front name).append text) hs
    unfold storeFields renderFields
    rw [separate_eq hs]
    simp only [Option.bind_eq_bind, Option.bind_some, Option.pure_def, storeKey_eq]
    rcases jsonString key with - | name
    · rfl
    · simp only [Option.map_some, Option.bind_some]
      specialize hvalue name
      change ((JsonValueScope.enter (front name)).bind _) = _
      rw [← Option.bind_assoc] at hvalue ⊢
      rw [← Option.bind_assoc, hvalue]
      rcases render jb.offset v with - | text
      · rfl
      · simp only [Option.map_some, Option.bind_some, hrest]
        have ho : ((front name).append text).offset = jb.offset := rfl
        rw [ho]
        rcases renderFields jb.offset true fields with - | rest
        · rfl
        · simp [front]

end

end TdUtils.Json
