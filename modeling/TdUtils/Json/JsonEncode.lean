import Mathlib.Data.Int.Notation
import TdUtils.Lib.Bytes
import TdUtils.Json.JsonValue

/-!
# Json.JsonEncode — the encoder and its scopes

A scope remembers the scope that was innermost before it; the address of a scope object is its
number among the live scopes.  A failed `CHECK` and `UNREACHABLE` are `none`.
-/

namespace TdUtils.Json

open Lib Bytes

/-! ### Strings -/

/-- `"0123456789abcdef"[d]`. -/
def hexDigit (d : ℕ) : UInt8 :=
  (chs ['0', '1', '2', '3', '4', '5', '6', '7', '8', '9', 'a', 'b', 'c', 'd', 'e', 'f']).getD d 0

def jsonOneChar (c : ℕ) : List UInt8 :=
  [ch '\\', ch 'u', hexDigit (c >>> 12), hexDigit ((c >>> 8) &&& 15), hexDigit ((c >>> 4) &&& 15),
    hexDigit (c &&& 15)]

def jsonChar (c : ℕ) : Option (List UInt8) :=
  if c < 0x10000 then
    if 0xD7FF < c ∧ c < 0xE000 then none  -- UNREACHABLE()
    else some (jsonOneChar c)
  else if c ≤ 0x10ffff then
    some (jsonOneChar (0xD7C0 + (c >>> 10)) ++ jsonOneChar (0xDC00 + (c &&& 0x3FF)))
  else none  -- UNREACHABLE()

/-- The letter of a short escape. -/
def shortForm (c : UInt8) : Option UInt8 :=
  if c = ch '"' then some (ch '"')
  else if c = ch '\\' then some (ch '\\')
  else if c = 0x08 then some (ch 'b')
  else if c = 0x0c then some (ch 'f')
  else if c = 0x0a then some (ch 'n')
  else if c = 0x0d then some (ch 'r')
  else if c = 0x09 then some (ch 't')
  else none

/-- The loop over the bytes of a `JsonString`; none is a failed `CHECK` or `UNREACHABLE`. -/
def stringChars : List UInt8 → Option (List UInt8)
  | [] => some []
  | x :: s =>
    match shortForm x with
    | some e => do return [ch '\\', e] ++ (← stringChars s)
    | none =>
      if x ≤ 31 then do return jsonOneChar x.toNat ++ (← stringChars s)
      else if 128 ≤ x then
        let a := x.toNat
        if a &&& 0x40 = 0 then none
        else match s with
          | [] => none
          | y :: s =>
            let b := y.toNat
            if b &&& 0xc0 ≠ 0x80 then none
            else if a &&& 0x20 = 0 then
              if ¬ a &&& 0x1e > 0 then none
              else do
                let sb ← jsonChar ((a &&& 0x1f) <<< 6 ||| (b &&& 0x3f))
                return sb ++ (← stringChars s)
            else match s with
              | [] => none
              | z :: s =>
                let c := z.toNat
                if c &&& 0xc0 ≠ 0x80 then none
                else if a &&& 0x10 = 0 then
                  if ¬ (a &&& 0x0f ||| (b &&& 0x20)) > 0 then none
                  else do
                    let sb ← jsonChar ((a &&& 0x0f) <<< 12 ||| (b &&& 0x3f) <<< 6 ||| (c &&& 0x3f))
                    return sb ++ (← stringChars s)
                else match s with
                  | [] => none
                  | w :: s =>
                    let d := w.toNat
                    if d &&& 0xc0 ≠ 0x80 then none
                    else if a &&& 0x08 = 0 then
                      if ¬ (a &&& 0x07 ||| (b &&& 0x30)) > 0 then none
                      else do
                        let sb ← jsonChar ((a &&& 0x07) <<< 18 ||| (b &&& 0x3f) <<< 12 |||
                          (c &&& 0x3f) <<< 6 ||| (d &&& 0x3f))
                        return sb ++ (← stringChars s)
                    else none
      else do return x :: (← stringChars s)

/-- `operator<<(StringBuilder &, const JsonString &)`. -/
def jsonString (str : List UInt8) : Option (List UInt8) := do
  return ch '"' :: (← stringChars str) ++ [ch '"']

/-! ### The builder and its scopes -/

/-- The builder: the bytes of its string builder, the innermost live scope, and the indentation,
which is -1 where the output is not pretty. -/
structure JsonBuilder where
  sb : List UInt8
  scope : Option ℕ
  offset : ℤ

namespace JsonBuilder

def append (jb : JsonBuilder) (text : List UInt8) : JsonBuilder := { jb with sb := jb.sb ++ text }

def isPretty (jb : JsonBuilder) : Prop := 0 ≤ jb.offset

instance (jb : JsonBuilder) : Decidable jb.isPretty := inferInstanceAs (Decidable (0 ≤ _))

/-- What `print_offset` prints. -/
def offsetText (offset : ℤ) : List UInt8 :=
  if 0 ≤ offset then
    ch '\n' :: (List.replicate offset.toNat (chs [' ', ' ', ' '])).flatten
  else []

def printOffset (jb : JsonBuilder) : JsonBuilder := jb.append (offsetText jb.offset)

def decOffset (jb : JsonBuilder) : Option JsonBuilder :=
  if 0 ≤ jb.offset then
    if 0 < jb.offset then some { jb with offset := jb.offset - 1 }
    else none  -- CHECK(offset_ > 0)
  else some jb

def incOffset (jb : JsonBuilder) : JsonBuilder :=
  if 0 ≤ jb.offset then { jb with offset := jb.offset + 1 } else jb

end JsonBuilder

structure JsonScope where
  this : ℕ
  saveScope : Option ℕ

namespace JsonScope

def isActive (scope : JsonScope) (jb : JsonBuilder) : Prop := jb.scope = some scope.this

instance (scope : JsonScope) (jb : JsonBuilder) : Decidable (scope.isActive jb) :=
  inferInstanceAs (Decidable (_ = _))

/-- `JsonScope(JsonBuilder *jb)`. -/
def enter (jb : JsonBuilder) : Option (JsonScope × JsonBuilder) :=
  let this := match jb.scope with
    | none => 0
    | some outer => outer + 1
  let scope : JsonScope := ⟨this, jb.scope⟩
  let jb := { jb with scope := some this }
  if scope.isActive jb then some (scope, jb) else none

def leave (scope : JsonScope) (jb : JsonBuilder) : Option JsonBuilder :=
  if scope.isActive jb then some { jb with scope := scope.saveScope } else none

end JsonScope

structure JsonValueScope where
  scope : JsonScope
  was : Bool

/-- `JsonArrayScope` and `JsonObjectScope`. -/
structure JsonListScope where
  scope : JsonScope
  isFirst : Bool

namespace JsonListScope

/-- `JsonArrayScope(jb)` and `JsonObjectScope(jb)`. -/
def enter (open_ : UInt8) (jb : JsonBuilder) : Option (JsonListScope × JsonBuilder) := do
  let (scope, jb) ← JsonScope.enter jb
  return (⟨scope, false⟩, jb.incOffset.append [open_])

/-- The destructor: `leave()` of the class and of `JsonScope`. -/
def leave (list : JsonListScope) (close : UInt8) (jb : JsonBuilder) : Option JsonBuilder := do
  let jb ← jb.decOffset
  list.scope.leave (jb.printOffset.append [close])

/-- A comma in front of all elements but the first, and the indentation. -/
def separate (list : JsonListScope) (jb : JsonBuilder) : Option (JsonListScope × JsonBuilder) :=
  if list.scope.isActive jb then
    let jb := if list.isFirst then jb.append [ch ','] else jb
    some ({ list with isFirst := true }, jb.printOffset)
  else none

end JsonListScope

namespace JsonValueScope

def enter (jb : JsonBuilder) : Option (JsonValueScope × JsonBuilder) := do
  let (scope, jb) ← JsonScope.enter jb
  return (⟨scope, false⟩, jb)

/-- `operator<<` of a text. -/
def print (value : JsonValueScope) (text : List UInt8) (jb : JsonBuilder) :
    Option (JsonValueScope × JsonBuilder) :=
  if value.was then none  -- CHECK(!was_)
  else some ({ value with was := true }, jb.append text)

/-- `enter_array` and `enter_object`. -/
def enterList (value : JsonValueScope) (open_ : UInt8) (jb : JsonBuilder) :
    Option (JsonValueScope × JsonListScope × JsonBuilder) :=
  if value.was then none  -- CHECK(!was_)
  else do
    let (list, jb) ← JsonListScope.enter open_ jb
    return ({ value with was := true }, list, jb)

end JsonValueScope

/-- `jb_->enter_value() << key`, and the end of the temporary scope. -/
def storeKey (key : List UInt8) (jb : JsonBuilder) : Option JsonBuilder := do
  let (value, jb) ← JsonValueScope.enter jb
  let text ← jsonString key
  let (value, jb) ← value.print text jb
  value.scope.leave jb

mutual

/-- `JsonValue::store`. -/
def store : JsonValue (List UInt8) → JsonValueScope → JsonBuilder →
    Option (JsonValueScope × JsonBuilder)
  | .null, value, jb => value.print (chs ['n', 'u', 'l', 'l']) jb
  | .boolean true, value, jb => value.print (chs ['t', 'r', 'u', 'e']) jb
  | .boolean false, value, jb => value.print (chs ['f', 'a', 'l', 's', 'e']) jb
  | .number number, value, jb => value.print number jb
  | .string string, value, jb => do
    let text ← jsonString string
    value.print text jb
  | .array items, value, jb => do
    let (value, arr, jb) ← value.enterList (ch '[') jb
    let (arr, jb) ← storeItems items arr jb
    let jb ← arr.leave (ch ']') jb
    return (value, jb)
  | .object fields, value, jb => do
    let (value, object, jb) ← value.enterList (ch '{') jb
    let (object, jb) ← storeFields fields object jb
    let jb ← object.leave (ch '}') jb
    return (value, jb)

/-- `arr << val` for all items. -/
def storeItems : List (JsonValue (List UInt8)) → JsonListScope → JsonBuilder →
    Option (JsonListScope × JsonBuilder)
  | [], arr, jb => some (arr, jb)
  | v :: items, arr, jb => do
    let (arr, jb) ← arr.separate jb
    let (value, jb) ← JsonValueScope.enter jb
    let (value, jb) ← store v value jb
    let jb ← value.scope.leave jb
    storeItems items arr jb

/-- `object(key, value)` for all fields. -/
def storeFields : List (List UInt8 × JsonValue (List UInt8)) → JsonListScope → JsonBuilder →
    Option (JsonListScope × JsonBuilder)
  | [], object, jb => some (object, jb)
  | (key, v) :: fields, object, jb => do
    let (object, jb) ← object.separate jb
    let jb ← storeKey key jb
    let jb := jb.append (if jb.isPretty then chs [' ', ':', ' '] else [ch ':'])
    let (value, jb) ← JsonValueScope.enter jb
    let (value, jb) ← store v value jb
    let jb ← value.scope.leave jb
    storeFields fields object jb

end

/-- `json_encode`. -/
def jsonEncode (v : JsonValue (List UInt8)) (pretty : Bool) : Option (List UInt8) := do
  let jb : JsonBuilder := ⟨[], none, if pretty then 0 else -1⟩
  let (value, jb) ← JsonValueScope.enter jb
  let (value, jb) ← store v value jb
  let jb ← value.scope.leave jb
  return (if pretty then jb.append [ch '\n'] else jb).sb

end TdUtils.Json
