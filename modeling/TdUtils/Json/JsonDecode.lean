import Mathlib.Data.Int.Notation
import TdUtils.Json.JsonValue
import TdUtils.Json.Parser

/-!
# Json.JsonDecode — the decoder, which unescapes strings in place, and the skipping twin of it

The loops get as many rounds as there are bytes left, which is enough since every round moves the
pointer.  The four loops over the elements of an array or object differ in the element, the closing
bracket and the texts of the errors, and are one definition.
-/

namespace TdUtils.Json

open Lib Bytes

/-! ### Strings -/

/-- `while (end < end_src && end[0] != '"')`: how far the closing quote is. -/
def closingQuote : List UInt8 → Option ℕ
  | [] => none
  | c :: s =>
    if c = ch '"' then some 0
    else if c = ch '\\' then
      match s with
      | [] => none
      | _ :: s => do return (← closingQuote s) + 2
    else do return (← closingQuote s) + 1

def isDigit (c : UInt8) : Bool := ch '0' ≤ c ∧ c ≤ ch '9'

def hexToInt (c : UInt8) : ℕ :=
  if isDigit c then c.toNat - (ch '0').toNat
  else
    let c := c ||| 0x20
    if ch 'a' ≤ c ∧ c ≤ ch 'f' then c.toNat - (ch 'a').toNat + 10 else 16

/-- The loop over the four digits behind `\u`. -/
def readHex (buf : List UInt8) : ℕ → ℕ → ℕ → Except Stop ℕ
  | _, 0, num => .ok num
  | src, n + 1, num =>
    let d := hexToInt (buf.getD src 0)
    if d = 16 then .error (.error "Invalid \\u -- not hex digit")
    else readHex buf (src + 1) n (num * 16 + d)

def isSurrogate (num : ℕ) : Bool := 0xD7FF < num ∧ num < 0xE000

/-- The code behind `\u`, together with a second escape where both are surrogates, and where the
source goes on. -/
def readCode (buf : List UInt8) (src endSrc : ℕ) : Except Stop (ℕ × ℕ) := do
  if src + 4 > endSrc then throw (.error "\\u has less than 4 symbols")
  let num ← readHex buf src 4 0
  let src := src + 4
  if isSurrogate num ∧ src + 6 ≤ endSrc ∧ buf.getD src 0 = ch '\\' ∧
      buf.getD (src + 1) 0 = ch 'u' then
    let newNum ← readHex buf (src + 2) 4 0
    let src := src + 6
    if isSurrogate newNum then
      return (((num &&& 0x3FF) <<< 10 ||| (newNum &&& 0x3FF)) + 0x10000, src)
    else return (num, src - 6)
  else return (num, src)

/-- The bytes that are written for a code. -/
def codeBytes (num : ℕ) : List UInt8 :=
  if num < 128 then [UInt8.ofNat num]
  else if num < 0x800 then [UInt8.ofNat (0xc0 + (num >>> 6)), UInt8.ofNat (0x80 + (num &&& 63))]
  else if num ≤ 0xffff then
    [UInt8.ofNat (0xe0 + (num >>> 12)), UInt8.ofNat (0x80 + ((num >>> 6) &&& 63)),
      UInt8.ofNat (0x80 + (num &&& 63))]
  else
    [UInt8.ofNat (0xf0 + (num >>> 18)), UInt8.ofNat (0x80 + ((num >>> 12) &&& 63)),
      UInt8.ofNat (0x80 + ((num >>> 6) &&& 63)), UInt8.ofNat (0x80 + (num &&& 63))]

/-- The byte that a short escape stands for. -/
def shortEscape (c : UInt8) : Option UInt8 :=
  if c = ch '"' ∨ c = ch '\\' ∨ c = ch '/' then some c
  else if c = ch 'b' then some 0x08
  else if c = ch 'f' then some 0x0c
  else if c = ch 'n' then some 0x0a
  else if c = ch 'r' then some 0x0d
  else if c = ch 't' then some 0x09
  else none

/-- Write bytes into the buffer at an offset. -/
def write (buf : List UInt8) (dest : ℕ) (bytes : List UInt8) : List UInt8 :=
  buf.take dest ++ bytes ++ buf.drop (dest + bytes.length)

/-- How many bytes there are before the next backslash; `memchr` from `src` to `end_src`. -/
def run (buf : List UInt8) (src endSrc : ℕ) : List UInt8 :=
  ((buf.take endSrc).drop src).takeWhile (· ≠ ch '\\')

/-- A round of the loop behind the `memmove`, with `next` for the rounds that follow. -/
def decodeEscape (endSrc : ℕ) (next : List UInt8 → ℕ → ℕ → Except Stop (List UInt8 × ℕ))
    (buf : List UInt8) (src dest : ℕ) : Except Stop (List UInt8 × ℕ) :=
  if src = endSrc then next buf src dest
  else if src + 1 = endSrc then .error (.error "Unexpected end of string")
  else
    let src := src + 1
    match shortEscape (buf.getD src 0) with
    | some b => next (write buf dest [b]) (src + 1) (dest + 1)
    | none =>
      if buf.getD src 0 = ch 'u' then do
        let (num, src) ← readCode buf (src + 1) endSrc
        let bytes := codeBytes num
        next (write buf dest bytes) src (dest + bytes.length)
      -- the switch has no default: only the backslash is dropped
      else next buf src dest

/-- The loop `while (cur_src != end_src)`; it returns the buffer and `cur_dest`. -/
def decodeString (endSrc : ℕ) :
    ℕ → List UInt8 → ℕ → ℕ → Except Stop (List UInt8 × ℕ)
  | 0, _, _, _ => .error .fuel
  | fuel + 1, buf, src, dest =>
    if src = endSrc then .ok (buf, dest)
    else
      let bytes := run buf src endSrc
      decodeEscape endSrc (decodeString endSrc fuel) (write buf dest bytes) (src + bytes.length)
        (dest + bytes.length)

def jsonStringDecode (p : Parser) : Except Stop (Parser × Slice) :=
  match p.trySkip (ch '"') with
  | none => .error (.error "Opening '\"' expected")
  | some p =>
    match closingQuote p.data with
    | none => .error (.error "Closing '\"' not found")
    | some n => do
      let src := p.ptr
      let p ← p.advance (n + 1)
      let (buf, dest) ← decodeString (src + n) (n + 1) p.buf src src
      if dest ≤ src + n then return ({ p with buf := buf }, ⟨src, dest - src⟩)
      else throw .check

/-- A round of the loop of `json_string_skip` behind the `memchr`. -/
def skipEscape (endSrc : ℕ) (buf : List UInt8) (next : ℕ → Except Stop Unit) (src : ℕ) :
    Except Stop Unit :=
  if src = endSrc then next src
  else if src + 1 = endSrc then .error (.error "Unexpected end of string")
  else
    let src := src + 1
    match shortEscape (buf.getD src 0) with
    | some _ => next (src + 1)
    | none =>
      if buf.getD src 0 = ch 'u' then do
        let (_, src) ← readCode buf (src + 1) endSrc
        next src
      else next src

/-- The loop of `json_string_skip`. -/
def skipString (endSrc : ℕ) (buf : List UInt8) : ℕ → ℕ → Except Stop Unit
  | 0, _ => .error .fuel
  | fuel + 1, src =>
    if src = endSrc then .ok ()
    else skipEscape endSrc buf (skipString endSrc buf fuel) (src + (run buf src endSrc).length)

def jsonStringSkip (p : Parser) : Except Stop Parser :=
  match p.trySkip (ch '"') with
  | none => .error (.error "Opening '\"' expected")
  | some p =>
    match closingQuote p.data with
    | none => .error (.error "Closing '\"' not found")
    | some n => do
      let src := p.ptr
      let p ← p.advance (n + 1)
      skipString (src + n) p.buf (n + 1) src
      return p

/-! ### Values -/

/-- The texts of the errors of a loop over elements. -/
structure LoopTexts where
  atEnd : String
  afterElement : Bool → String

/-- `while (true)` over the elements of an array or object up to the bracket `close`. -/
def elements {α : Type} (close : UInt8) (texts : LoopTexts)
    (element : Parser → Except Stop (Parser × α)) :
    ℕ → Parser → Except Stop (Parser × List α)
  | 0, _ => .error .fuel
  | fuel + 1, p =>
    if p.empty then .error (.error texts.atEnd)
    else do
      let (p, x) ← element p
      let p := p.skipWhitespaces
      match p.trySkip close with
      | some p => return (p, [x])
      | none =>
        match p.trySkip (ch ',') with
        | some p =>
          let (p, xs) ← elements close texts element fuel p.skipWhitespaces
          return (p, x :: xs)
        | none => throw (.error (texts.afterElement p.empty))

/-- The opening bracket, which was looked at before, and the elements up to the closing one. -/
def brackets {α : Type} (open_ close : UInt8) (texts : LoopTexts)
    (element : Parser → Except Stop (Parser × α)) (p : Parser) :
    Except Stop (Parser × List α) :=
  let p := (p.skip open_).skipWhitespaces
  match p.trySkip close with
  | some p => .ok (p, [])
  | none => elements close texts element (p.data.length + 1) p

/-- A key, `:` and a value. -/
def field {α β : Type} (key : Parser → Except Stop (Parser × α))
    (value : Parser → Except Stop (Parser × β)) (p : Parser) :
    Except Stop (Parser × (α × β)) := do
  let (p, k) ← key p
  match p.skipWhitespaces.trySkip (ch ':') with
  | none => throw (.error "':' expected")
  | some p =>
    let (p, v) ← value p
    return (p, (k, v))

def isNumberChar (c : UInt8) : Bool :=
  c = ch '-' ∨ (ch '0' ≤ c ∧ c ≤ ch '9') ∨ c = ch 'e' ∨ c = ch 'E' ∨ c = ch '+' ∨ c = ch '.'

/-- The cases of the `switch` for numbers. -/
def isNumberStart (c : UInt8) : Bool :=
  c ∈ chs ['-', '+', '.', '0', '1', '2', '3', '4', '5', '6', '7', '8', '9']

/-- The error for a byte that starts no value. -/
def unexpectedSymbol (c : UInt8) : Stop :=
  .error (if 0 < c ∧ c < 127 then "Unexpected symbol '" ++ toText c ++ "'" else "Unexpected symbol")

def decodeTexts (what : String) : LoopTexts :=
  ⟨"Unexpected string end", fun atEnd => if atEnd then "Unexpected string end"
    else "Unexpected symbol while parsing JSON " ++ what⟩

/-- A token that stands for a value. -/
def token {α : Type} (p : Parser) (pre : List UInt8) (x : α) (message : String) :
    Except Stop (Parser × α) :=
  match p.trySkipSlice pre with
  | some p => .ok (p, x)
  | none => .error (.error message)

/-- `do_json_decode` with `max_depth + 1` levels left. -/
def decodeValue : ℕ → Parser → Except Stop (Parser × JsonValue Slice)
  | 0, _ => .error (.error "Too big object depth")
  | levels + 1, p =>
    let p := p.skipWhitespaces
    let c := p.peekChar
    if c = ch 'f' then
      token p (chs ['f', 'a', 'l', 's', 'e']) (.boolean false)
        "Token starts with 'f' -- false expected"
    else if c = ch 't' then
      token p (chs ['t', 'r', 'u', 'e']) (.boolean true) "Token starts with 't' -- true expected"
    else if c = ch 'n' then
      token p (chs ['n', 'u', 'l', 'l']) .null "Token starts with 'n' -- null expected"
    else if c = ch '"' then do
      let (p, slice) ← jsonStringDecode p
      return (p, .string slice)
    else if c = ch '[' then do
      let (p, res) ← brackets (ch '[') (ch ']') (decodeTexts "Array") (decodeValue levels) p
      return (p, .array res)
    else if c = ch '{' then do
      let (p, res) ← brackets (ch '{') (ch '}') (decodeTexts "Object")
        (field jsonStringDecode (decodeValue levels)) p
      return (p, .object res)
    else if isNumberStart c then
      let (p, num) := p.readWhile isNumberChar
      return (p, .number num)
    else if c = 0 then .error (.error "Unexpected string end")
    else .error (unexpectedSymbol c)

def doJsonDecode (p : Parser) (maxDepth : ℤ) : Except Stop (Parser × JsonValue Slice) :=
  decodeValue (maxDepth + 1).toNat p

def skipTexts : LoopTexts := ⟨"Unexpected end", fun _ => "Unexpected symbol"⟩

/-- A function without a result as one with a result. -/
def noResult (f : Parser → Except Stop Parser) (p : Parser) : Except Stop (Parser × Unit) := do
  return (← f p, ())

/-- `do_json_skip` with `max_depth + 1` levels left. -/
def skipValue : ℕ → Parser → Except Stop Parser
  | 0, _ => .error (.error "Too big object depth")
  | levels + 1, p =>
    let p := p.skipWhitespaces
    let c := p.peekChar
    if c = ch 'f' then do
      return (← token p (chs ['f', 'a', 'l', 's', 'e']) () "Starts with 'f' -- false expected").1
    else if c = ch 't' then do
      return (← token p (chs ['t', 'r', 'u', 'e']) () "Starts with 't' -- true expected").1
    else if c = ch 'n' then do
      return (← token p (chs ['n', 'u', 'l', 'l']) () "Starts with 'n' -- null expected").1
    else if c = ch '"' then jsonStringSkip p
    else if c = ch '[' then do
      let (p, _) ← brackets (ch '[') (ch ']') skipTexts (noResult (skipValue levels)) p
      return p
    else if c = ch '{' then do
      let (p, _) ← brackets (ch '{') (ch '}') skipTexts
        (field (noResult jsonStringSkip) (noResult (skipValue levels))) p
      return p
    else if isNumberStart c then .ok (p.readWhile isNumberChar).1
    else if c = 0 then .error (.error "Unexpected end")
    else .error (unexpectedSymbol c)

def doJsonSkip (p : Parser) (maxDepth : ℤ) : Except Stop Parser :=
  skipValue (maxDepth + 1).toNat p

/-- `json_decode`: the value, made of slices, and the buffer as the decoder leaves it. -/
def jsonDecode (json : List UInt8) : Except Stop (JsonValue Slice × List UInt8) := do
  let (p, result) ← doJsonDecode (Parser.ofSlice json) 100
  let p := p.skipWhitespaces
  if p.empty then return (result, p.buf)
  else throw (.error "Expected string end")

end TdUtils.Json
