import TdUtils.Json.DecodeInPlace
import TdUtils.Json.EscapeString

/-!
# Json.Unescape — the string decoder against RFC 8259

`Unescapes` is the meaning of the content of a string literal.  `Closes` says where a literal ends, looking
only at the backslashes in front of the quote.
-/

namespace TdUtils.Json

open Lib Bytes Utf8

/-! ### What a literal stands for -/

/-- The two-character escapes. -/
def escapes : List (UInt8 × UInt8) :=
  [(ch '"', ch '"'), (ch '\\', ch '\\'), (ch '/', ch '/'), (ch 'b', 0x08), (ch 'f', 0x0c),
    (ch 'n', 0x0a), (ch 'r', 0x0d), (ch 't', 0x09)]

inductive HexDigit : UInt8 → ℕ → Prop
  | digit {c : UInt8} {v : ℕ} (hv : v < 10) (hc : c.toNat = (ch '0').toNat + v) : HexDigit c v
  | lower {c : UInt8} {v : ℕ} (hv : v < 6) (hc : c.toNat = (ch 'a').toNat + v) : HexDigit c (10 + v)
  | upper {c : UInt8} {v : ℕ} (hv : v < 6) (hc : c.toNat = (ch 'A').toNat + v) : HexDigit c (10 + v)

/-- Four hexadecimal digits. -/
inductive Hex4 : Bytes → ℕ → Prop
  | mk {c₁ c₂ c₃ c₄ : UInt8} {v₁ v₂ v₃ v₄ : ℕ} (h₁ : HexDigit c₁ v₁) (h₂ : HexDigit c₂ v₂)
    (h₃ : HexDigit c₃ v₃) (h₄ : HexDigit c₄ v₄) :
    Hex4 [c₁, c₂, c₃, c₄] (v₁ * 16 ^ 3 + v₂ * 16 ^ 2 + v₃ * 16 + v₄)

/-- The content of a literal whose escapes are valid, and the string that it is. -/
inductive Unescapes : Bytes → Bytes → Prop
  | nil : Unescapes [] []
  | plain {c : UInt8} {s t : Bytes} (hquote : c ≠ ch '"') (hslash : c ≠ ch '\\') (h : Unescapes s t) :
    Unescapes (c :: s) (c :: t)
  | short {c b : UInt8} {s t : Bytes} (hb : (c, b) ∈ escapes) (h : Unescapes s t) :
    Unescapes (ch '\\' :: c :: s) (b :: t)
  | unicode {ds s t : Bytes} {n : ℕ} (hds : Hex4 ds n) (hn : n < 0xD800 ∨ 0xDFFF < n)
    (h : Unescapes s t) : Unescapes (ch '\\' :: ch 'u' :: (ds ++ s)) (utf8 n ++ t)
  | pair {ds ds' s t : Bytes} {hi lo : ℕ} (hds : Hex4 ds hi) (hds' : Hex4 ds' lo)
    (hhi : 0xD800 ≤ hi ∧ hi < 0xDC00) (hlo : 0xDC00 ≤ lo ∧ lo < 0xE000) (h : Unescapes s t) :
    Unescapes (ch '\\' :: ch 'u' :: (ds ++ ch '\\' :: ch 'u' :: (ds' ++ s)))
      (utf8 (0x10000 + (hi - 0xD800) * 0x400 + (lo - 0xDC00)) ++ t)

theorem shortEscape_of_mem {c b : UInt8} (h : (c, b) ∈ escapes) : shortEscape c = some b := by
  have hall : (escapes.all fun e => shortEscape e.1 = some e.2) = true := by decide
  exact of_decide_eq_true (List.all_eq_true.mp hall _ h)

theorem hexToInt_of_hexDigit {c : UInt8} {v : ℕ} (h : HexDigit c v) : hexToInt c = v ∧ v < 16 := by
  have hdigit : ∀ v < 10, hexToInt (UInt8.ofNat ((ch '0').toNat + v)) = v := by decide
  have hlower : ∀ v < 6, hexToInt (UInt8.ofNat ((ch 'a').toNat + v)) = 10 + v := by decide
  have hupper : ∀ v < 6, hexToInt (UInt8.ofNat ((ch 'A').toNat + v)) = 10 + v := by decide
  cases h with
  | digit hv hc => exact ⟨ofNat_of_toNat hc.symm ▸ hdigit _ hv, by omega⟩
  | lower hv hc => exact ⟨ofNat_of_toNat hc.symm ▸ hlower _ hv, by omega⟩
  | upper hv hc => exact ⟨ofNat_of_toNat hc.symm ▸ hupper _ hv, by omega⟩

theorem length_of_hex4 {ds : Bytes} {n : ℕ} (h : Hex4 ds n) : ds.length = 4 := by
  cases h
  rfl

theorem hexNumber_of_hex4 {ds : Bytes} {n : ℕ} (h : Hex4 ds n) : hexNumber 0 ds = some n := by
  cases h with
  | mk h₁ h₂ h₃ h₄ =>
    obtain ⟨h₁, hlt₁⟩ := hexToInt_of_hexDigit h₁
    obtain ⟨h₂, hlt₂⟩ := hexToInt_of_hexDigit h₂
    obtain ⟨h₃, hlt₃⟩ := hexToInt_of_hexDigit h₃
    obtain ⟨h₄, hlt₄⟩ := hexToInt_of_hexDigit h₄
    simp only [hexNumber, h₁, h₂, h₃, h₄]
    rw [if_neg hlt₁.ne, if_neg hlt₂.ne, if_neg hlt₃.ne, if_neg hlt₄.ne]
    congr 1
    omega

theorem code_unicode {ds : Bytes} {n : ℕ} (h : Hex4 ds n) (hn : n < 0xD800 ∨ 0xDFFF < n) (s : Bytes) :
    code (ds ++ s) = some (n, s) := by
  have hlen := length_of_hex4 h
  have hsurrogate : ¬ isSurrogate n = true := by
    rw [isSurrogate_iff]
    omega
  rw [code_eq (by rw [List.length_append]; omega), List.take_left' hlen, List.drop_left' hlen,
    hexNumber_of_hex4 h, Option.bind_some, if_neg fun hpair => hsurrogate hpair.1]

theorem code_pair {ds ds' : Bytes} {hi lo : ℕ} (h : Hex4 ds hi) (h' : Hex4 ds' lo)
    (hhi : 0xD800 ≤ hi ∧ hi < 0xDC00) (hlo : 0xDC00 ≤ lo ∧ lo < 0xE000) (s : Bytes) :
    code (ds ++ ch '\\' :: ch 'u' :: (ds' ++ s)) =
      some (0x10000 + (hi - 0xD800) * 0x400 + (lo - 0xDC00), s) := by
  have hlen := length_of_hex4 h
  have hlen' := length_of_hex4 h'
  have hcode : ((hi &&& 0x3FF) <<< 10 ||| (lo &&& 0x3FF)) + 0x10000 =
      0x10000 + (hi - 0xD800) * 0x400 + (lo - 0xDC00) := by
    have hhi' : hi &&& 0x3FF = hi % 1024 := Bits.and_low hi 10
    have hlo' : lo &&& 0x3FF = lo % 1024 := Bits.and_low lo 10
    rw [hhi', hlo', Bits.shiftLeft_or (y := lo % 1024) (k := 10) (Nat.mod_lt _ (by omega))]
    omega
  have hrest : (ch '\\' :: ch 'u' :: (ds' ++ s)).drop 6 = s := List.drop_left' hlen'
  rw [code_eq (by rw [List.length_append]; omega), List.take_left' hlen, List.drop_left' hlen,
    hexNumber_of_hex4 h, Option.bind_some, if_pos]
  · rw [List.drop_succ_cons, List.drop_succ_cons, List.drop_zero, List.take_left' hlen',
      hexNumber_of_hex4 h', Option.bind_some, if_pos ((isSurrogate_iff lo).mpr (by omega)), hcode, hrest]
  · refine ⟨(isSurrogate_iff hi).mpr (by omega), ?_, rfl⟩
    simp only [List.length_cons, List.length_append]
    omega

theorem bytesOf_cons (i : Item) (is : List Item) : bytesOf (i :: is) = i.bytes ++ bytesOf is :=
  List.flatMap_cons

theorem unescape_backslash_u {s rest t : Bytes} {n : ℕ} (hcode : code s = some (n, rest))
    (h : unescape rest = some t) : unescape (ch '\\' :: ch 'u' :: s) = some (utf8 n ++ t) := by
  obtain ⟨is, his, rfl⟩ := Option.map_eq_some_iff.mp h
  unfold unescape
  have hshort : shortEscape (ch 'u') = none := by decide
  rw [items_backslash, hshort]
  dsimp only
  rw [if_pos rfl, hcode, Option.bind_some, his, Option.map_some, Option.map_some, List.singleton_append,
    bytesOf_cons, Item.bytes, codeBytes_eq_utf8]

/-- The decoder's reading of a literal is the one of the standard. -/
theorem Unescapes.unescape {s t : Bytes} (h : Unescapes s t) : unescape s = some t := by
  induction h with
  | nil =>
    unfold Json.unescape
    rw [items_nil]
    rfl
  | @plain c s _ hquote hslash _ ih =>
    obtain ⟨is, his, rfl⟩ := Option.map_eq_some_iff.mp ih
    have hitem : item (c :: s) = some (.byte c, s) := if_neg hslash
    unfold Json.unescape
    rw [items_of_item hitem, his]
    rfl
  | short hb _ ih =>
    obtain ⟨is, his, rfl⟩ := Option.map_eq_some_iff.mp ih
    unfold Json.unescape
    rw [items_backslash, shortEscape_of_mem hb, his]
    rfl
  | unicode hds hn _ ih => exact unescape_backslash_u (code_unicode hds hn _) ih
  | pair hds hds' hhi hlo _ ih => exact unescape_backslash_u (code_pair hds hds' hhi hlo _) ih

theorem HexDigit.plain {c : UInt8} {v : ℕ} (h : HexDigit c v) : c ≠ ch '"' ∧ c ≠ ch '\\' := by
  obtain ⟨hv, hlt⟩ := hexToInt_of_hexDigit h
  constructor
  all_goals
    rintro rfl
    exact absurd (hv.symm.trans (show _ = 16 by decide)) hlt.ne

theorem Hex4.content {ds s : Bytes} {n : ℕ} (h : Hex4 ds n) (hs : Content s) : Content (ds ++ s) := by
  cases h with
  | mk h₁ h₂ h₃ h₄ =>
    exact .plain h₁.plain.1 h₁.plain.2 (.plain h₂.plain.1 h₂.plain.2
      (.plain h₃.plain.1 h₃.plain.2 (.plain h₄.plain.1 h₄.plain.2 hs)))

theorem Unescapes.content {s t : Bytes} (h : Unescapes s t) : Content s := by
  induction h with
  | nil => exact .nil
  | plain hquote hslash _ ih => exact .plain hquote hslash ih
  | short _ _ ih => exact .escaped ih
  | unicode hds _ _ ih => exact .escaped (hds.content ih)
  | pair hds hds' _ _ _ ih => exact .escaped (hds.content (.escaped (hds'.content ih)))

/-! ### Where a literal ends -/

/-- How many backslashes the bytes end with. -/
def backslashes (s : Bytes) : ℕ := (s.reverse.takeWhile (· = ch '\\')).length

/-- A quote that no unpaired backslash precedes. -/
def Closes (s : Bytes) (n : ℕ) : Prop := s[n]? = some (ch '"') ∧ backslashes (s.take n) % 2 = 0

theorem backslashes_append (s t : Bytes) : backslashes (s ++ t) =
    if backslashes t = t.length then backslashes s + t.length else backslashes t := by
  unfold backslashes
  rw [List.reverse_append, List.takeWhile_append, List.length_reverse]
  split_ifs with h
  · rw [List.length_append, List.length_reverse, Nat.add_comm]
  · rfl

theorem even_backslashes_cons {c : UInt8} (hc : c ≠ ch '\\') (s : Bytes) :
    backslashes (c :: s) % 2 = backslashes s % 2 := by
  have happend := backslashes_append [c] s
  have hone : backslashes [c] = 0 := by simp [backslashes, hc]
  rw [List.singleton_append, hone, Nat.zero_add] at happend
  rw [happend]
  split_ifs with h
  · rw [h]
  · rfl

theorem even_backslashes_pair (c : UInt8) (s : Bytes) :
    backslashes (ch '\\' :: c :: s) % 2 = backslashes s % 2 := by
  have happend := backslashes_append [ch '\\', c] s
  have htwo : backslashes [ch '\\', c] % 2 = 0 := by
    by_cases hc : c = ch '\\'
    · simp [backslashes, hc]
    · simp [backslashes, hc]
  rw [List.cons_append, List.singleton_append] at happend
  rw [happend]
  split_ifs with h
  · omega
  · rfl

theorem closes_cons {c : UInt8} (hquote : c ≠ ch '"') (hslash : c ≠ ch '\\') (s : Bytes) (n : ℕ) :
    Closes (c :: s) n ↔ ∃ m, n = m + 1 ∧ Closes s m := by
  cases n with
  | zero => simp [Closes, hquote]
  | succ n =>
    unfold Closes
    rw [List.getElem?_cons_succ, List.take_succ_cons, even_backslashes_cons hslash]
    simp

theorem closes_pair (c : UInt8) (s : Bytes) (n : ℕ) :
    Closes (ch '\\' :: c :: s) n ↔ ∃ m, n = m + 2 ∧ Closes s m := by
  rcases n with - | - | n
  · simp [Closes, slash_ne_quote]
  · have hodd : backslashes [ch '\\'] = 1 := by decide
    simp [Closes, hodd]
  · unfold Closes
    rw [List.getElem?_cons_succ, List.getElem?_cons_succ, List.take_succ_cons, List.take_succ_cons,
      even_backslashes_pair]
    simp

/-- The first scan stops at the first quote that ends the literal. -/
theorem closingQuote_spec : ∀ s : Bytes,
    match closingQuote s with
    | none => ∀ n, ¬ Closes s n
    | some n => Closes s n ∧ ∀ m < n, ¬ Closes s m
  | [] => by simp [closingQuote, Closes]
  | [c] => by
    rw [closingQuote.eq_def]
    dsimp only
    by_cases hquote : c = ch '"'
    · rw [if_pos hquote]
      exact ⟨⟨by rw [hquote]; rfl, rfl⟩, by simp⟩
    rw [if_neg hquote]
    have hnone : ∀ n, ¬ Closes [c] n := by
      intro n hn
      obtain ⟨hlt, hget⟩ := List.getElem?_eq_some_iff.mp hn.1
      obtain rfl : n = 0 := by simpa using hlt
      exact hquote hget
    by_cases hslash : c = ch '\\'
    · rw [if_pos hslash]
      exact hnone
    · rw [if_neg hslash]
      exact hnone
  | c :: d :: s => by
    rw [closingQuote.eq_def]
    dsimp only
    by_cases hquote : c = ch '"'
    · rw [if_pos hquote]
      exact ⟨⟨by rw [hquote]; rfl, rfl⟩, by simp⟩
    rw [if_neg hquote]
    by_cases hslash : c = ch '\\'
    · rw [if_pos hslash, hslash]
      have ih := closingQuote_spec s
      cases hs : closingQuote s with
      | none =>
        rw [hs] at ih
        intro n hn
        obtain ⟨m, -, hm⟩ := (closes_pair d s n).mp hn
        exact ih m hm
      | some k =>
        rw [hs] at ih
        refine ⟨(closes_pair d s _).mpr ⟨k, rfl, ih.1⟩, ?_⟩
        intro n hlt hn
        obtain ⟨m, rfl, hm⟩ := (closes_pair d s n).mp hn
        exact ih.2 m (by omega) hm
    · rw [if_neg hslash]
      have ih := closingQuote_spec (d :: s)
      cases hs : closingQuote (d :: s) with
      | none =>
        rw [hs] at ih
        intro n hn
        obtain ⟨m, -, hm⟩ := (closes_cons hquote hslash _ n).mp hn
        exact ih m hm
      | some k =>
        rw [hs] at ih
        refine ⟨(closes_cons hquote hslash _ _).mpr ⟨k, rfl, ih.1⟩, ?_⟩
        intro n hlt hn
        obtain ⟨m, rfl, hm⟩ := (closes_cons hquote hslash _ n).mp hn
        exact ih.2 m (by omega) hm

/-! ### The decoder -/

theorem closingQuote_of_closes {s : Bytes} {n : ℕ} (h : Closes s n) (hfirst : ∀ m < n, ¬ Closes s m) :
    closingQuote s = some n := by
  have hspec := closingQuote_spec s
  cases hs : closingQuote s with
  | none =>
    rw [hs] at hspec
    exact absurd h (hspec n)
  | some k =>
    rw [hs] at hspec
    rcases Nat.lt_trichotomy k n with hlt | rfl | hlt
    · exact absurd hspec.1 (hfirst k hlt)
    · rfl
    · exact absurd h (hspec.2 n hlt)

theorem trySkip_quote {p : Parser} {s : Bytes} (h : p.data = ch '"' :: s) :
    p.trySkip (ch '"') = some (p.move 1) ∧ (p.move 1).data = s := by
  have hskip : p.trySkip (ch '"') = some (p.move 1) := if_pos (by rw [h]; rfl)
  refine ⟨hskip, ?_⟩
  show p.buf.drop (p.ptr + 1) = s
  have hdrop : p.buf.drop p.ptr = ch '"' :: s := h
  rw [← List.drop_drop, hdrop]
  rfl

/-- The second pass over a content of `n` bytes. -/
theorem rounds_start {p : Parser} {s : Bytes} {n : ℕ} (hp : p.data = s)
    (hn : closingQuote s = some n) :
    ∃ s', InPlace.Ready (p.buf.take p.ptr) (s.drop n) (p.ptr + n)
        (InPlace.rounds (p.ptr + n) (n + 1) ⟨p.buf, p.ptr, p.ptr, []⟩).1 s' ∧
      ((InPlace.rounds (p.ptr + n) (n + 1) ⟨p.buf, p.ptr, p.ptr, []⟩).2 = none ∨
        ∃ stop, (InPlace.rounds (p.ptr + n) (n + 1) ⟨p.buf, p.ptr, p.ptr, []⟩).2 = some stop ∧
          Expected stop) := by
  have hlt := closingQuote_lt hn
  refine InPlace.Ready.rounds (s := s.take n) _ ⟨⟨[], [], ?_⟩, content_of_closingQuote hn, ?_⟩ ?_
  · rw [List.append_nil]
    exact at_start hp hlt
  · exact List.forall_mem_nil _
  · rw [List.length_take]
    omega

/-- Where the buffer is as it was. -/
theorem InPlace.Ready.getElem?_eq {pre post s orig : Bytes} {endSrc : ℕ} {d : InPlace}
    (h : InPlace.Ready pre post endSrc d s) (horig : ∃ mid, orig = pre ++ (mid ++ post) ∧
      pre.length + mid.length = endSrc) {i : ℕ} (hi : i < pre.length ∨ endSrc ≤ i) :
    d.buf[i]? = orig[i]? := by
  obtain ⟨mid, rfl, hmid⟩ := horig
  obtain ⟨out, gap, hat⟩ := h.layout
  have hend := hat.end_eq
  rw [List.length_append] at hend
  have hbuf : d.buf = pre ++ ((out ++ (gap ++ s)) ++ post) := by
    rw [hat.buf_eq]
    simp only [List.append_assoc]
  have hlen : (out ++ (gap ++ s)).length = mid.length := by
    simp only [List.length_append]
    omega
  rw [hbuf]
  rcases hi with hi | hi
  · rw [List.getElem?_append_left hi, List.getElem?_append_left hi]
  · rw [List.getElem?_append_right (by omega), List.getElem?_append_right (by omega),
      List.getElem?_append_right (by omega), List.getElem?_append_right (by omega), hlen]

/-- What the decoder does to a literal with a content of `n` bytes. -/
theorem stringDecode_closed {p : Parser} {s : Bytes} {n : ℕ} (hp : p.data = ch '"' :: s)
    (hn : closingQuote s = some n) :
    (stringDecode p).parser.ptr = p.ptr + 1 + (n + 1) ∧
      (∀ w ∈ (stringDecode p).writes, p.ptr + 1 ≤ w.dest ∧ w.dest + w.size ≤ w.src ∧
        w.src ≤ p.ptr + 1 + n) ∧
      (∀ i, i < p.ptr + 1 ∨ p.ptr + 1 + n ≤ i → (stringDecode p).parser.buf[i]? = p.buf[i]?) ∧
      ((∃ slice, (stringDecode p).result = .ok slice) ∨
        ∃ stop, (stringDecode p).result = .error stop ∧ Expected stop) := by
  obtain ⟨hskip, hdata⟩ := trySkip_quote hp
  have hlt := closingQuote_lt hn
  have hlen := length_data (p.move 1)
  rw [hdata] at hlen
  have hbuf : (p.move 1).buf = p.buf := rfl
  have hptr : (p.move 1).ptr = p.ptr + 1 := rfl
  obtain ⟨s', hready, hresult⟩ := rounds_start hdata hn
  rw [hbuf, hptr] at hready hresult hlen
  have hadvance : (p.move 1).advance (n + 1) = .ok ((p.move 1).move (n + 1)) :=
    if_pos (by rw [hbuf, hptr]; omega)
  have hpre : (p.buf.take (p.ptr + 1)).length = p.ptr + 1 := List.length_take_of_le (by omega)
  have hdrop : p.buf.drop (p.ptr + 1) = s := hdata
  have horig : ∃ mid, p.buf = p.buf.take (p.ptr + 1) ++ (mid ++ s.drop n) ∧
      (p.buf.take (p.ptr + 1)).length + mid.length = p.ptr + 1 + n :=
    ⟨s.take n, by rw [List.take_append_drop, ← hdrop, List.take_append_drop],
      by rw [hpre, List.length_take_of_le (by omega)]⟩
  have hwrites := hready.writes
  rw [hpre] at hwrites
  have hsame : ∀ i, i < p.ptr + 1 ∨ p.ptr + 1 + n ≤ i → _ = p.buf[i]? := fun i hi =>
    hready.getElem?_eq horig (hpre.symm ▸ hi)
  unfold stringDecode
  rw [hskip]
  dsimp only
  rw [hdata, hn]
  dsimp only
  rw [hadvance, hbuf, hptr]
  dsimp only
  rcases hrun : InPlace.rounds (p.ptr + 1 + n) (n + 1) ⟨p.buf, p.ptr + 1, p.ptr + 1, []⟩ with ⟨d, - | e⟩
  · rw [hrun] at hwrites hsame hready
    obtain ⟨out, gap, hat⟩ := hready.layout
    have hdest := hat.dest_eq
    have hend := hat.end_eq
    dsimp only at hdest hend
    refine ⟨rfl, hwrites, hsame, Or.inl ⟨_, if_pos ?_⟩⟩
    omega
  · rw [hrun] at hwrites hsame hresult
    refine ⟨rfl, hwrites, hsame, Or.inr ?_⟩
    rcases hresult with hnone | hstop
    · cases hnone
    · obtain ⟨stop, heq, hexpected⟩ := hstop
      obtain rfl := Option.some.inj heq
      exact ⟨e, rfl, hexpected⟩

/-- The literal is what it stands for, read off the buffer as it is left. -/
theorem stringDecode_unescapes {p : Parser} {content out rest : Bytes}
    (hp : p.data = ch '"' :: (content ++ ch '"' :: rest)) (h : Unescapes content out) :
    ∃ slice, (stringDecode p).result = .ok slice ∧
      slice.read (stringDecode p).parser.buf = some out := by
  have hliteral : literal p.data = some (out, rest) := by
    rw [hp, literal, if_pos rfl, h.content.closingQuote]
    simp only [Option.bind_eq_bind, Option.bind_some, List.take_left, h.unescape, Option.pure_def,
      ← List.drop_drop, List.drop_left, List.drop_one, List.tail_cons]
  have hfollows := jsonStringDecode_follows p
  rw [hliteral] at hfollows
  obtain ⟨q, slice, hdecode, -, hread⟩ := hfollows
  have heq := jsonStringDecode_eq p
  rw [hdecode] at heq
  cases hresult : (stringDecode p).result with
  | error e =>
    rw [hresult] at heq
    cases heq
  | ok slice' =>
    rw [hresult] at heq
    cases heq
    exact ⟨slice, rfl, Slice.read_mono (List.take_prefix _ _) _ _ hread⟩

/-- For every buffer and position: the decoder ends with a string or with an error that its callers expect;
it writes only behind its reading position and inside the literal; the parser is left behind the first
quote that no unpaired backslash precedes; and valid literals are unescaped as the standard says. -/
theorem stringDecode_exact (p : Parser) :
    ((∃ slice, (stringDecode p).result = .ok slice) ∨
      ∃ text, (stringDecode p).result = .error (.error text) ∧ text ≠ "Unexpected end of string") ∧
    (∀ w ∈ (stringDecode p).writes, w.dest + w.size ≤ w.src) ∧
    (∀ i, (stringDecode p).parser.buf[i]? ≠ p.buf[i]? → ∃ s n, p.data = ch '"' :: s ∧ Closes s n ∧
      (∀ m < n, ¬ Closes s m) ∧ p.ptr < i ∧ i ≤ p.ptr + n) ∧
    (∀ s n, p.data = ch '"' :: s → Closes s n → (∀ m < n, ¬ Closes s m) →
      (stringDecode p).parser.ptr = p.ptr + 1 + (n + 1)) ∧
    ∀ content out rest, p.data = ch '"' :: (content ++ ch '"' :: rest) → Unescapes content out →
      ∃ slice, (stringDecode p).result = .ok slice ∧
        slice.read (stringDecode p).parser.buf = some out := by
  have hptr : ∀ s n, p.data = ch '"' :: s → Closes s n → (∀ m < n, ¬ Closes s m) →
      (stringDecode p).parser.ptr = p.ptr + 1 + (n + 1) := fun s n hp hn hfirst =>
    (stringDecode_closed hp (closingQuote_of_closes hn hfirst)).1
  by_cases hquote : p.data.head? = some (ch '"')
  · obtain ⟨s, hp⟩ := List.head?_eq_some_iff.mp hquote
    obtain ⟨hskip, hdata⟩ := trySkip_quote hp
    have hspec := closingQuote_spec s
    cases hn : closingQuote s with
    | none =>
      have hstop : stringDecode p = ⟨p.move 1, [], .error (.error "Closing '\"' not found")⟩ := by
        unfold stringDecode
        rw [hskip]
        dsimp only
        rw [hdata, hn]
      refine ⟨?_, ?_, ?_, hptr, fun content out rest hp' h => stringDecode_unescapes hp' h⟩
      · rw [hstop]
        exact Or.inr ⟨_, rfl, by decide⟩
      · rw [hstop]
        exact List.forall_mem_nil _
      · rw [hstop]
        exact fun i hi => absurd rfl hi
    | some n =>
      rw [hn] at hspec
      obtain ⟨-, hwrites, hsame, hresult⟩ := stringDecode_closed hp hn
      refine ⟨?_, fun w hw => (hwrites w hw).2.1, ?_, hptr,
        fun content out rest hp' h => stringDecode_unescapes hp' h⟩
      · rcases hresult with hok | ⟨stop, hstop, text, rfl, htext⟩
        · exact Or.inl hok
        · exact Or.inr ⟨text, hstop, htext⟩
      · intro i hi
        refine ⟨s, n, hp, hspec.1, hspec.2, ?_⟩
        by_contra hout
        exact hi (hsame i (by omega))
  · have hstop : stringDecode p = ⟨p, [], .error (.error "Opening '\"' expected")⟩ := by
      have hskip : p.trySkip (ch '"') = none := if_neg hquote
      unfold stringDecode
      rw [hskip]
    refine ⟨?_, ?_, ?_, hptr, fun content out rest hp' h => stringDecode_unescapes hp' h⟩
    · rw [hstop]
      exact Or.inr ⟨_, rfl, by decide⟩
    · rw [hstop]
      exact List.forall_mem_nil _
    · rw [hstop]
      exact fun i hi => absurd rfl hi

end TdUtils.Json
