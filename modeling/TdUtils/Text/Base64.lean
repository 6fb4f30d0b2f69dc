import Mathlib.Data.List.DropRight
import TdUtils.Lib.Bytes
import TdUtils.Lib.Table

/-!
# Text.Base64 — base64 and base64url
-/

namespace TdUtils.Base64

open Lib.Bytes (ch chs)

def characters (isUrl : Bool) : List UInt8 :=
  chs ['A', 'B', 'C', 'D', 'E', 'F', 'G', 'H', 'I', 'J', 'K', 'L', 'M', 'N', 'O', 'P', 'Q', 'R', 'S', 'T', 'U', 'V', 'W',
    'X', 'Y', 'Z', 'a', 'b', 'c', 'd', 'e', 'f', 'g', 'h', 'i', 'j', 'k', 'l', 'm', 'n', 'o', 'p', 'q', 'r', 's', 't',
    'u', 'v', 'w', 'x', 'y', 'z', '0', '1', '2', '3', '4', '5', '6', '7', '8', '9'] ++
  if isUrl then chs ['-', '_'] else chs ['+', '/']

/-- The positions and values that are put into the table. -/
def entries (isUrl : Bool) : List (ℕ × ℕ) := (characters isUrl).zipIdx.map fun e => (e.1.toNat, e.2)

def characterTable (isUrl : Bool) : List ℕ := Lib.Table.fill (List.replicate 256 64) (entries isUrl)

/-! ### Encoding -/

def character (isUrl : Bool) (i : ℕ) : UInt8 := (characters isUrl).getD i 0

/-- One round of the loop; of the bytes as many as `left` are read. -/
def encodeGroup (isUrl : Bool) (left : ℕ) (b₀ b₁ b₂ : UInt8) : List UInt8 :=
  let c := b₀.toNat <<< 16
  let c₁ := if left ≠ 1 then c ||| b₁.toNat <<< 8 else c
  let c₂ := if left = 3 then c₁ ||| b₂.toNat else c₁
  [character isUrl (c >>> 18), character isUrl (c₁ >>> 12 &&& 63)] ++
    (if left ≠ 1 then [character isUrl (c₂ >>> 6 &&& 63)] else if isUrl then [] else [ch '=']) ++
    if left = 3 then [character isUrl (c₂ &&& 63)] else if isUrl then [] else [ch '=']

def base64EncodeImpl (isUrl : Bool) : List UInt8 → List UInt8
  | [] => []
  | [b₀] => encodeGroup isUrl 1 b₀ 0 0
  | [b₀, b₁] => encodeGroup isUrl 2 b₀ b₁ 0
  | b₀ :: b₁ :: b₂ :: rest => encodeGroup isUrl 3 b₀ b₁ b₂ ++ base64EncodeImpl isUrl rest

/-! ### Decoding -/

/-- The loop that removes the padding. -/
def withoutPadding (base64 : List UInt8) : List UInt8 := base64.rdropWhile (· = ch '=')

def paddingLength (base64 : List UInt8) : ℕ := (base64.rtakeWhile (· = ch '=')).length

def base64DropPadding (isUrl : Bool) (base64 : List UInt8) : Except String (List UInt8) :=
  let padding := paddingLength base64
  let base64 := withoutPadding base64
  if 3 ≤ padding then .error "Wrong string padding"
  else if (!isUrl || 0 < padding) && base64.length + padding &&& 3 ≠ 0 then .error "Wrong padding length"
  else if isUrl && base64.length &&& 3 = 1 then .error "Wrong string length"
  else .ok base64

/-- What was written at `ptr`, and the status that is returned. -/
structure Decoded where
  written : List UInt8
  status : Except String Unit
deriving DecidableEq

def wrongCharacter : String := "Wrong character in the string"

def wrongPadding : String := "Wrong padding in the string"

/-- The loop over the characters of a group. -/
def groupBits (table : List ℕ) : ℕ → List UInt8 → ℕ → Option ℕ
  | _, [], c => some c
  | t, x :: group, c =>
    let value := table.getD x.toNat 0
    if value = 64 then none else groupBits table (t + 1) group (c ||| value <<< ((3 - t) * 6))

/-- One round of the loop. -/
def decodeGroup (table : List ℕ) (group : List UInt8) : Decoded :=
  let left := group.length
  match groupBits table 0 group 0 with
  | none => ⟨[], .error wrongCharacter⟩
  | some c =>
    if left = 2 then
      ⟨[UInt8.ofNat (c >>> 16)], if c &&& (1 <<< 16) - 1 ≠ 0 then .error wrongPadding else .ok ()⟩
    else if left = 3 then
      ⟨[UInt8.ofNat (c >>> 16), UInt8.ofNat (c >>> 8)],
        if c &&& (1 <<< 8) - 1 ≠ 0 then .error wrongPadding else .ok ()⟩
    else ⟨[UInt8.ofNat (c >>> 16), UInt8.ofNat (c >>> 8), UInt8.ofNat c], .ok ()⟩

/-- The next round, unless this one has returned. -/
def Decoded.next (d rest : Decoded) : Decoded :=
  match d.status with
  | .error _ => d
  | .ok _ => ⟨d.written ++ rest.written, rest.status⟩

def doBase64DecodeImpl (table : List ℕ) : List UInt8 → Decoded
  | [] => ⟨[], .ok ()⟩
  | [x₀] => decodeGroup table [x₀]
  | [x₀, x₁] => decodeGroup table [x₀, x₁]
  | [x₀, x₁, x₂] => decodeGroup table [x₀, x₁, x₂]
  | x₀ :: x₁ :: x₂ :: x₃ :: rest => (decodeGroup table [x₀, x₁, x₂, x₃]).next (doBase64DecodeImpl table rest)

/-- The length of the result that is created. -/
def resultSize (base64 : List UInt8) : ℕ := base64.length / 4 * 3 + ((base64.length &&& 3) + 1) / 2

/-- What is in the result after the bytes were written; `none` is a write after its end. -/
def fillResult (size : ℕ) (written : List UInt8) : Option (List UInt8) :=
  if written.length ≤ size then some (written ++ List.replicate (size - written.length) 0) else none

def base64DecodeImpl (isUrl : Bool) (base64 : List UInt8) : Option (Except String (List UInt8)) :=
  match base64DropPadding isUrl base64 with
  | .error message => some (.error message)
  | .ok base64 =>
    let decoded := doBase64DecodeImpl (characterTable isUrl) base64
    (fillResult (resultSize base64) decoded.written).map fun result => decoded.status.map fun _ => result

/-! ### Checking -/

/-- `table[static_cast<int>(input.back())]`; `none` is an index outside the table. -/
def backValue (table : List ℕ) (input : List UInt8) : Option ℕ :=
  input.getLast?.bind fun c => if c.toNat < 128 then table[c.toNat]? else none

def isBase64Impl (isUrl : Bool) (input : List UInt8) : Option Bool :=
  let padding := paddingLength input
  let input := withoutPadding input
  let table := characterTable isUrl
  if 3 ≤ padding then some false
  else if (!isUrl || 0 < padding) && input.length + padding &&& 3 ≠ 0 then some false
  else if isUrl && input.length &&& 3 = 1 then some false
  else if input.any fun c => table.getD c.toNat 0 = 64 then some false
  else if input.length &&& 3 = 2 then (backValue table input).map fun value => value &&& 15 = 0
  else if input.length &&& 3 = 3 then (backValue table input).map fun value => value &&& 3 = 0
  else some true

end TdUtils.Base64
