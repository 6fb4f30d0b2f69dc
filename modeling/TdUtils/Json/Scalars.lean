import TdUtils.Json.EscapeString
import TdUtils.Json.Wellformed

/-!
# Json.Scalars — what is printed for a scalar, and when it is a JSON text

Everything but two kinds of scalars is printed as a text of its value: a double that is not finite
is printed as a word that JSON does not have, and a raw string is printed as it is, UTF-8 or not.
-/

namespace TdUtils.Json

open Lib Bytes Text Utf8

/-- A `double`: a sign and `mantissa * 2 ^ exponent`, or one of the values that are not finite. -/
inductive Double where
  | finite (negative : Bool) (mantissa : ℕ) (exponent : ℤ)
  | inf (negative : Bool)
  | nan (negative : Bool)

def Double.IsFinite : Double → Prop
  | .finite _ _ _ => True
  | _ => False

/-- `n / d` to the nearest integer, and to the even one of two. -/
def roundedDiv (n d : ℕ) : ℕ :=
  if 2 * (n % d) < d ∨ 2 * (n % d) = d ∧ n / d % 2 = 0 then n / d else n / d + 1

/-- So many decimal digits. -/
def fixedDigits (precision n : ℕ) : Bytes :=
  List.replicate (precision - (toDecimal n).length) (ch '0') ++ toDecimal n

/-- `operator<<` of a `FixedDouble`: a stream with the flag `fixed` prints it. -/
def fixedDouble (d : Double) (precision : ℕ) : Bytes :=
  let sign (negative : Bool) : Bytes := if negative then [ch '-'] else []
  match d with
  | .finite negative mantissa exponent =>
    let x := roundedDiv (mantissa * 2 ^ exponent.toNat * 10 ^ precision) (2 ^ (-exponent).toNat)
    sign negative ++ toDecimal (x / 10 ^ precision) ++
      if precision = 0 then [] else ch '.' :: fixedDigits precision (x % 10 ^ precision)
  | .inf negative => sign negative ++ chs ['i', 'n', 'f']
  | .nan negative => sign negative ++ chs ['n', 'a', 'n']

/-- `operator<<` of a `JsonFloat`. -/
def jsonFloat (x : Double) : Bytes := fixedDouble x 6

/-- The loop over the bytes of a `JsonRawString`. -/
def rawChars (s : Bytes) : Bytes :=
  s.flatMap fun x =>
    match shortForm x with
    | some e => [ch '\\', e]
    | none => if x ≤ 31 then jsonOneChar x.toNat else [x]

/-- `operator<<(StringBuilder &, const JsonRawString &)`. -/
def jsonRawString (str : Bytes) : Bytes := ch '"' :: rawChars str ++ [ch '"']

/-- `operator<<` of a `JsonInt` or a `JsonLong`. -/
def jsonInt (x : ℤ) : Bytes := (if x < 0 then [ch '-'] else []) ++ toDecimal x.natAbs

/-! ### Strings -/

theorem Unescapes.append {c d s t : Bytes} (h : Unescapes c s) (h' : Unescapes d t) :
    Unescapes (c ++ d) (s ++ t) := by
  induction h with
  | nil => exact h'
  | plain hquote hslash _ ih => exact .plain hquote hslash ih
  | short hb _ ih => exact .short hb ih
  | unicode hds hn _ ih =>
    have happend := Unescapes.unicode hds hn ih
    simpa using happend
  | pair hds hds' hhi hlo _ ih =>
    have happend := Unescapes.pair hds hds' hhi hlo ih
    simpa using happend

theorem Quotes.append {c d s t : Bytes} (h : Quotes c s) (h' : Quotes d t) :
    Quotes (c ++ d) (s ++ t) where
  unescapes := h.unescapes.append h'.unescapes
  valid := h.valid.append h'.valid
  printable := fun b hb => (List.mem_append.mp hb).elim (h.printable b) (h'.printable b)

theorem quotes_nil : Quotes [] [] where
  unescapes := .nil
  valid := valid_nil
  printable := fun _ hb => absurd hb List.not_mem_nil

theorem quotes_of_ascii {c s : Bytes} (h : Unescapes c s) (hc : ∀ b ∈ c, 0x20 ≤ b ∧ b < 0x80) :
    Quotes c s where
  unescapes := h
  valid := valid_of_ascii fun b hb => (hc b hb).2
  printable := fun b hb => (hc b hb).1

theorem hexDigit_spec {d : ℕ} (hd : d < 16) : HexDigit (hexDigit d) d := by
  by_cases h10 : d < 10
  · have hall : ∀ d < 10, (hexDigit d).toNat = (ch '0').toNat + d := by decide
    exact .digit h10 (hall d h10)
  · obtain ⟨v, rfl⟩ := Nat.exists_eq_add_of_le (not_lt.mp h10)
    have hall : ∀ v < 6, (hexDigit (10 + v)).toNat = (ch 'a').toNat + v := by decide
    have hv : v < 6 := by omega
    exact .lower hv (hall v hv)

theorem hex4_digits {c : ℕ} (hc : c < 0x10000) :
    Hex4 [hexDigit (c / 4096), hexDigit (c / 256 % 16), hexDigit (c / 16 % 16), hexDigit (c % 16)]
      c := by
  have hdigits := Hex4.mk (hexDigit_spec (show c / 4096 < 16 by omega))
    (hexDigit_spec (show c / 256 % 16 < 16 by omega))
    (hexDigit_spec (show c / 16 % 16 < 16 by omega)) (hexDigit_spec (show c % 16 < 16 by omega))
  have hsum : c / 4096 * 16 ^ 3 + c / 256 % 16 * 16 ^ 2 + c / 16 % 16 * 16 + c % 16 = c := by omega
  rwa [hsum] at hdigits

theorem ascii_oneChar {c : ℕ} (hc : c < 0x10000) : ∀ b ∈ jsonOneChar c, 0x20 ≤ b ∧ b < 0x80 := by
  have hall : ∀ d < 16, 0x20 ≤ hexDigit d ∧ hexDigit d < 0x80 := by decide
  rw [oneChar_digits]
  simp only [List.forall_mem_cons]
  exact ⟨by decide, by decide, hall _ (by omega), hall _ (by omega), hall _ (by omega),
    hall _ (by omega), fun _ hb => absurd hb List.not_mem_nil⟩

theorem quotes_oneChar {c : ℕ} (hc : c < 0x10000) (hs : c < 0xD800 ∨ 0xDFFF < c) :
    Quotes (jsonOneChar c) (utf8 c) := by
  have hunicode := Unescapes.unicode (hex4_digits hc) hs .nil
  refine quotes_of_ascii ?_ (ascii_oneChar hc)
  rw [oneChar_digits]
  simpa using hunicode

theorem quotes_pair {c : ℕ} (h1 : 0x10000 ≤ c) (h2 : c < 0x110000) :
    Quotes (jsonOneChar (0xD7C0 + c / 1024) ++ jsonOneChar (0xDC00 + c % 1024)) (utf8 c) := by
  have hpair := Unescapes.pair (hex4_digits (c := 0xD7C0 + c / 1024) (by omega))
    (hex4_digits (c := 0xDC00 + c % 1024) (by omega)) (by omega) (by omega) .nil
  have hcode : 0x10000 + (0xD7C0 + c / 1024 - 0xD800) * 0x400 + (0xDC00 + c % 1024 - 0xDC00) = c := by
    omega
  rw [hcode] at hpair
  refine quotes_of_ascii ?_ fun b hb => (List.mem_append.mp hb).elim
    (ascii_oneChar (by omega) b) (ascii_oneChar (by omega) b)
  rw [oneChar_digits, oneChar_digits]
  simpa using hpair

theorem mem_escapes {x e : UInt8} (h : shortForm x = some e) : (e, x) ∈ escapes := by
  unfold shortForm at h
  split_ifs at h with h1 h2 h3 h4 h5 h6 h7
  all_goals
    obtain rfl := Option.some.inj h
    subst_vars
    decide

theorem quotes_ascii {c : ℕ} (hc : c < 0x80) : Quotes (piece c) [UInt8.ofNat c] := by
  unfold piece
  rw [if_pos hc]
  rcases hs : shortForm (UInt8.ofNat c) with - | e
  · by_cases h31 : c ≤ 31
    · have hone := quotes_oneChar (c := c) (by omega) (by omega)
      rw [utf8, if_pos hc] at hone
      simpa only [if_pos h31] using hone
    · have hbyte : (UInt8.ofNat c).toNat = c := toNat_ofNat (by omega)
      have hne : UInt8.ofNat c ≠ ch '"' ∧ UInt8.ofNat c ≠ ch '\\' := by
        constructor
        all_goals
          intro he
          rw [he] at hs
          exact absurd hs (by decide)
      have hrange : 0x20 ≤ UInt8.ofNat c ∧ UInt8.ofNat c < 0x80 := by
        rw [UInt8.le_iff_toNat_le, UInt8.lt_iff_toNat_lt, hbyte]
        exact ⟨show 32 ≤ c by omega, hc⟩
      simp only [if_neg h31]
      exact quotes_of_ascii (.plain hne.1 hne.2 .nil) (List.forall_mem_singleton.mpr hrange)
  · have hall : (escapes.all fun p => 0x20 ≤ p.1 ∧ p.1 < 0x80) = true := by decide
    have hmem := mem_escapes hs
    refine quotes_of_ascii (.short hmem .nil) (List.forall_mem_cons.mpr ⟨by decide, ?_⟩)
    exact List.forall_mem_singleton.mpr (of_decide_eq_true (List.all_eq_true.mp hall _ hmem))

theorem quotes_piece {c : ℕ} (hc : Scalar c) : Quotes (piece c) (utf8 c) := by
  unfold Scalar at hc
  by_cases h1 : c < 0x80
  · have hascii := quotes_ascii h1
    rwa [utf8, if_pos h1]
  · unfold piece
    rw [if_neg h1]
    by_cases h2 : c < 0x10000
    · rw [if_pos h2]
      exact quotes_oneChar h2 (by omega)
    · rw [if_neg h2]
      exact quotes_pair (by omega) (by omega)

/-- Scalar values that are quoted one after the other. -/
theorem quotes_flatMap {cs : List ℕ} {f : ℕ → Bytes} (h : ∀ c ∈ cs, Quotes (f c) (utf8 c)) :
    Quotes (cs.flatMap f) (cs.flatMap utf8) := by
  induction cs with
  | nil => exact quotes_nil
  | cons c cs ih =>
    obtain ⟨hc, hcs⟩ := List.forall_mem_cons.mp h
    rw [List.flatMap_cons, List.flatMap_cons]
    exact hc.append (ih hcs)

theorem quotes_of_jsonString {str text : Bytes} (h : jsonString str = some text) :
    ∃ content, text = quoted content ∧ Quotes content str := by
  obtain ⟨e, he, htext⟩ := Option.bind_eq_some_iff.mp h
  obtain ⟨cs, rfl, hcs⟩ := valid_of_stringChars (by rw [he]; rfl)
  rw [stringChars_flatMap hcs] at he
  obtain rfl := Option.some.inj he
  exact ⟨cs.flatMap piece, (Option.some.inj htext).symm,
    quotes_flatMap fun c hc => quotes_piece (hcs c hc)⟩

/-- The bytes of a character that is not ASCII are printed as they are. -/
theorem rawChars_high {s : Bytes} (h : ∀ b ∈ s, 0x80 ≤ b) : rawChars s = s := by
  have hbyte : ∀ b : UInt8, 0x80 ≤ b → shortForm b = none ∧ ¬ b ≤ 31 := by
    apply forall_of_fin
    decide +kernel
  induction s with
  | nil => rfl
  | cons b s ih =>
    obtain ⟨hb, hs⟩ := List.forall_mem_cons.mp h
    have hcons : rawChars (b :: s) = [b] ++ rawChars s := by
      unfold rawChars
      rw [List.flatMap_cons, (hbyte b hb).1]
      exact congrArg (· ++ _) (if_neg (hbyte b hb).2)
    rw [hcons, ih hs, List.singleton_append]

theorem unescapes_high {s : Bytes} (h : ∀ b ∈ s, 0x80 ≤ b) : Unescapes s s := by
  have hbyte : ∀ b : UInt8, 0x80 ≤ b → b ≠ ch '"' ∧ b ≠ ch '\\' := by
    apply forall_of_fin
    decide +kernel
  induction s with
  | nil => exact .nil
  | cons b s ih =>
    obtain ⟨hb, hs⟩ := List.forall_mem_cons.mp h
    exact .plain (hbyte b hb).1 (hbyte b hb).2 (ih hs)

theorem quotes_raw {c : ℕ} (hc : Scalar c) : Quotes (rawChars (utf8 c)) (utf8 c) := by
  by_cases h : c < 0x80
  · have hbyte : (UInt8.ofNat c).toNat = c := toNat_ofNat (by omega)
    have hle : UInt8.ofNat c ≤ 31 ↔ c ≤ 31 := by
      rw [UInt8.le_iff_toNat_le, hbyte]
      rfl
    have hone : rawChars [UInt8.ofNat c] = piece c := by
      unfold rawChars piece
      rw [List.flatMap_singleton, if_pos h, hbyte]
      rcases shortForm (UInt8.ofNat c) with - | e
      · simp only [hle]
      · rfl
    rw [utf8, if_pos h, hone]
    exact quotes_ascii h
  · have hhigh := utf8_high hc h
    rw [rawChars_high hhigh]
    exact {
      unescapes := unescapes_high hhigh
      valid := ⟨[c], (List.flatMap_singleton _ _).symm, List.forall_mem_singleton.mpr hc⟩
      printable := fun b hb => UInt8.le_trans (show (0x20 : UInt8) ≤ 0x80 by decide) (hhigh b hb) }

theorem quotes_rawChars {str : Bytes} (h : Valid str) : Quotes (rawChars str) str := by
  obtain ⟨cs, rfl, hcs⟩ := h
  have hassoc : rawChars (cs.flatMap utf8) = cs.flatMap fun c => rawChars (utf8 c) :=
    List.flatMap_assoc
  rw [hassoc]
  exact quotes_flatMap fun c hc => quotes_raw (hcs c hc)

/-! ### Numbers -/

theorem integer_toDecimal (n : ℕ) : toDecimal n = [ch '0'] ∨
    Digits (toDecimal n) ∧ (toDecimal n).head? ≠ some (ch '0') := by
  by_cases h : n = 0
  · exact Or.inl (if_pos h)
  · exact Or.inr ⟨⟨toDecimal_ne_nil _, toDecimal_isDigit _⟩, toDecimal_head h⟩

theorem sign_or {p : Prop} [Decidable p] :
    (if p then [ch '-'] else []) = [] ∨ (if p then [ch '-'] else []) = [ch '-'] := by
  split_ifs
  · exact Or.inr rfl
  · exact Or.inl rfl

theorem number_jsonInt (x : ℤ) : Number (jsonInt x) := by
  have hnumber := Number.mk (sign_or (p := x < 0)) (integer_toDecimal x.natAbs) (Or.inl rfl)
    (Or.inl rfl)
  simpa [jsonInt] using hnumber

theorem digits_fixedDigits (precision n : ℕ) : Digits (fixedDigits precision n) := by
  refine ⟨fun h => toDecimal_ne_nil n (List.append_eq_nil_iff.mp h).2, fun c hc => ?_⟩
  rcases List.mem_append.mp hc with hzero | hdigit
  · rw [List.eq_of_mem_replicate hzero]
    decide
  · exact toDecimal_isDigit n c hdigit

theorem Number.isNumberChar {s : Bytes} (h : Number s) : ∀ c ∈ s, isNumberChar c = true := by
  have hdigit : ∀ c, isDigit c = true → Json.isNumberChar c = true := by
    apply forall_of_fin
    decide +kernel
  obtain ⟨hsign, hint, hfrac, hexp⟩ := h
  simp only [List.forall_mem_append]
  refine ⟨⟨⟨?_, ?_⟩, ?_⟩, ?_⟩
  · rcases hsign with rfl | rfl <;> decide
  · rcases hint with rfl | ⟨hds, -⟩
    · decide
    · exact fun c hc => hdigit c (hds.2 c hc)
  · rcases hfrac with rfl | ⟨ds, hds, rfl⟩
    · decide
    · exact List.forall_mem_cons.mpr ⟨by decide, fun c hc => hdigit c (hds.2 c hc)⟩
  · rcases hexp with rfl | ⟨e, s, ds, he, hs, hds, rfl⟩
    · decide
    · have hletter : ∀ e ∈ chs ['e', 'E'], Json.isNumberChar e = true := by decide
      have hmark : ∀ s ∈ [[], [ch '+'], [ch '-']], ∀ c ∈ s, Json.isNumberChar c = true := by decide
      refine List.forall_mem_cons.mpr ⟨hletter e he, ?_⟩
      exact List.forall_mem_append.mpr ⟨hmark s hs, fun c hc => hdigit c (hds.2 c hc)⟩

/-- What is printed for a double is a JSON number where the double is finite. -/
theorem number_jsonFloat (x : Double) : Number (jsonFloat x) ↔ x.IsFinite := by
  have hn : isNumberChar (ch 'n') = false := by decide
  cases x with
  | finite negative mantissa exponent =>
    refine iff_of_true ?_ True.intro
    have hnumber := fun n m => Number.mk (sign_or (p := negative = true)) (integer_toDecimal n)
      (Or.inr ⟨_, digits_fixedDigits 6 m, rfl⟩) (Or.inl rfl)
    simpa [jsonFloat, fixedDouble] using hnumber _ _
  | inf negative =>
    refine iff_of_false (fun h => ?_) id
    have hchar := h.isNumberChar (ch 'n') (List.mem_append_right _ (by decide))
    exact Bool.noConfusion (hn.symm.trans hchar)
  | nan negative =>
    refine iff_of_false (fun h => ?_) id
    have hchar := h.isNumberChar (ch 'n') (List.mem_append_right _ (by decide))
    exact Bool.noConfusion (hn.symm.trans hchar)

/-! ### Strings that are spelled -/

theorem valid_of_ascii_append {d s : Bytes} (hd : ∀ b ∈ d, b < 0x80) (h : Valid (d ++ s)) :
    Valid s := by
  induction d with
  | nil => exact h
  | cons b d ih =>
    obtain ⟨hb, hd⟩ := List.forall_mem_cons.mp hd
    have hcut := valid_append_cons (UInt8.lt_iff_toNat_lt.mp hb) [] (d ++ s)
    exact ih hd (hcut.mp h).2

theorem HexDigit.ascii {c : UInt8} {v : ℕ} (h : HexDigit c v) : c < 0x80 := by
  rw [UInt8.lt_iff_toNat_lt]
  have hzero : (ch '0').toNat = 48 ∧ (ch 'a').toNat = 97 ∧ (ch 'A').toNat = 65 := by decide
  obtain ⟨hv, hc⟩ | ⟨hv, hc⟩ | ⟨hv, hc⟩ := h <;>
    exact hc ▸ show _ < 128 by omega

theorem Hex4.ascii {ds : Bytes} {n : ℕ} (h : Hex4 ds n) : (∀ b ∈ ds, b < 0x80) ∧ n < 0x10000 := by
  cases h with
  | mk h₁ h₂ h₃ h₄ =>
    have hlt₁ := (hexToInt_of_hexDigit h₁).2
    have hlt₂ := (hexToInt_of_hexDigit h₂).2
    have hlt₃ := (hexToInt_of_hexDigit h₃).2
    have hlt₄ := (hexToInt_of_hexDigit h₄).2
    refine ⟨?_, by omega⟩
    simp only [List.forall_mem_cons]
    exact ⟨h₁.ascii, h₂.ascii, h₃.ascii, h₄.ascii, List.forall_mem_nil _⟩

/-- UTF-8 stays UTF-8 when it is unescaped; `u` are the bytes in front that are not escaped. -/
theorem Unescapes.valid {s t : Bytes} (h : Unescapes s t) : ∀ u, Valid (u ++ s) → Valid (u ++ t) := by
  have hslash : (ch '\\').toNat < 0x80 := by decide
  have hu : ch 'u' < 0x80 := by decide
  induction h with
  | nil => exact fun u hv => hv
  | @plain c s t hquote hback _ ih =>
    intro u hv
    have hone := ih (u ++ [c])
    simp only [List.append_assoc, List.singleton_append] at hone
    exact hone hv
  | @short c b s t hb _ ih =>
    intro u hv
    have hall : (escapes.all fun p => p.1 < 0x80 ∧ p.2.toNat < 0x80) = true := by decide
    obtain ⟨hc, hb⟩ := of_decide_eq_true (List.all_eq_true.mp hall _ hb)
    obtain ⟨hfront, hrest⟩ := (valid_append_cons hslash u _).mp hv
    have hs : Valid s := valid_of_ascii_append (d := [c]) (List.forall_mem_singleton.mpr hc) hrest
    exact (valid_append_cons hb u t).mpr ⟨hfront, ih [] hs⟩
  | @unicode ds s t n hds hn _ ih =>
    intro u hv
    obtain ⟨hascii, hlt⟩ := hds.ascii
    obtain ⟨hfront, hrest⟩ := (valid_append_cons hslash u _).mp hv
    have hs : Valid s := valid_of_ascii_append (d := ch 'u' :: ds)
      (List.forall_mem_cons.mpr ⟨hu, hascii⟩) hrest
    have hscalar : Scalar n := by
      unfold Scalar
      omega
    exact hfront.append ((valid_utf8_append (by omega) t).mpr ⟨hscalar, ih [] hs⟩)
  | @pair ds ds' s t hi lo hds hds' hhi hlo _ ih =>
    intro u hv
    obtain ⟨hfront, hrest⟩ := (valid_append_cons hslash u _).mp hv
    have hrest' := valid_of_ascii_append (d := ch 'u' :: ds)
      (List.forall_mem_cons.mpr ⟨hu, hds.ascii.1⟩) hrest
    have hs : Valid s := valid_of_ascii_append (d := ch '\\' :: ch 'u' :: ds')
      (List.forall_mem_cons.mpr ⟨by decide, List.forall_mem_cons.mpr ⟨hu, hds'.ascii.1⟩⟩) hrest'
    have hscalar : Scalar (0x10000 + (hi - 0xD800) * 0x400 + (lo - 0xDC00)) := by
      unfold Scalar
      omega
    exact hfront.append ((valid_utf8_append (by omega) t).mpr ⟨hscalar, ih [] hs⟩)

/-! ### The leaves -/

/-- The text of a `JsonRaw` for a value scope. -/
structure RawValue where
  text : Bytes
  value : JsonValue Bytes
  spells : Spells (.value value) text

/-- What is printed into a value scope. -/
inductive Leaf where
  | null
  | bool (b : Bool)
  | int (x : ℤ)
  | float (x : Double)
  | string (str : Bytes)
  | rawString (str : Bytes)
  | raw (raw : RawValue)

namespace Leaf

/-- `operator<<` of `JsonNull`, of `JsonTrue`, `JsonFalse` and `JsonBool`, of `JsonInt` and
`JsonLong`, and so on; none where a `CHECK` fails. -/
def text : Leaf → Option Bytes
  | .null => some (chs ['n', 'u', 'l', 'l'])
  | .bool b => some (if b then chs ['t', 'r', 'u', 'e'] else chs ['f', 'a', 'l', 's', 'e'])
  | .int x => some (jsonInt x)
  | .float x => some (jsonFloat x)
  | .string str => jsonString str
  | .rawString str => some (jsonRawString str)
  | .raw value => some value.text

/-- The value that is written; a number is its decimal text. -/
def value : Leaf → JsonValue Bytes
  | .null => .null
  | .bool b => .boolean b
  | .int x => .number (jsonInt x)
  | .float x => .number (jsonFloat x)
  | .string str => .string str
  | .rawString str => .string str
  | .raw value => value.value

/-- JSON has a text for the value. -/
def Spellable : Leaf → Prop
  | .float x => x.IsFinite
  | .rawString str => Valid str
  | _ => True

theorem spells : ∀ (leaf : Leaf) {t : Bytes}, leaf.text = some t → leaf.Spellable →
    Spells (.value leaf.value) t
  | .null, _, h, _ => Option.some.inj h ▸ .null
  | .bool true, _, h, _ => Option.some.inj h ▸ .true
  | .bool false, _, h, _ => Option.some.inj h ▸ .false
  | .int x, _, h, _ => Option.some.inj h ▸ .number (number_jsonInt x)
  | .float x, _, h, hx => Option.some.inj h ▸ .number ((number_jsonFloat x).mpr hx)
  | .string str, _, h, _ => by
    obtain ⟨content, rfl, hcontent⟩ := quotes_of_jsonString h
    exact .string hcontent
  | .rawString str, _, h, hstr => Option.some.inj h ▸ .string (quotes_rawChars hstr)
  | .raw value, _, h, _ => Option.some.inj h ▸ value.spells

/-- A number of the value that is no JSON number, or a string that is not UTF-8, has no text. -/
theorem spellable : ∀ leaf : Leaf, (∀ n ∈ leaf.value.numbers, Number n) →
    (∀ s ∈ leaf.value.strings, Valid s) → leaf.Spellable
  | .float x, hnumbers, _ => (number_jsonFloat x).mp (hnumbers _ List.mem_cons_self)
  | .rawString _, _, hstrings => hstrings _ List.mem_cons_self
  | .null, _, _ | .bool _, _, _ | .int _, _, _ | .string _, _, _ | .raw _, _, _ => True.intro

end Leaf

end TdUtils.Json
