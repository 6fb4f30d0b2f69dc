import TdUtils.Json.Grammar
import TdUtils.Json.JsonEncode
import TdUtils.Text.Utf8

/-!
# Json.EscapeString — what the encoder makes of a string, and how the decoder reads it

`piece c` is what the encoder prints for a scalar value `c`.  It prints a string exactly when the
string is valid UTF-8, and the grammar takes the pieces back to the bytes of the scalar values.
-/

namespace TdUtils.Json

open Lib Bytes Utf8 Text

/-- What the encoder prints for a scalar value. -/
def piece (c : ℕ) : Bytes :=
  if c < 0x80 then
    match shortForm (UInt8.ofNat c) with
    | some e => [ch '\\', e]
    | none => if c ≤ 31 then jsonOneChar c else [UInt8.ofNat c]
  else if c < 0x10000 then jsonOneChar c
  else jsonOneChar (0xD7C0 + c / 1024) ++ jsonOneChar (0xDC00 + c % 1024)

theorem jsonChar_of_scalar {c : ℕ} (hc : Scalar c) (h : 0x80 ≤ c) :
    jsonChar c = some (piece c) := by
  unfold Scalar at hc
  unfold jsonChar piece
  rw [if_neg (show ¬ c < 0x80 by omega)]
  by_cases h1 : c < 0x10000
  · rw [if_pos h1, if_pos h1, if_neg (by omega)]
  · rw [if_neg h1, if_neg h1, if_pos (by omega), Nat.shiftRight_eq_div_pow,
      show c &&& 0x3FF = c % 1024 from Bits.and_low c 10]

theorem jsonChar_of_not_scalar {c : ℕ} (hc : ¬ Scalar c) : jsonChar c = none := by
  unfold Scalar at hc
  unfold jsonChar
  by_cases h1 : c < 0x10000
  · rw [if_pos h1, if_pos (by omega)]
  · rw [if_neg h1, if_neg (by omega)]

/-- The conditions of the encoder on the third and the fourth form, as conditions on the code. -/
theorem or_pos_three {a b : ℕ} (ha : a / 16 = 14) (hb : b / 64 = 2) (c : ℕ) :
    (a &&& 0x0f ||| (b &&& 0x20)) > 0 ↔ 0x800 ≤ a % 16 * 4096 + b % 64 * 64 + c % 64 := by
  rw [gt_iff_lt, Nat.pos_iff_ne_zero, Ne, Nat.or_eq_zero_iff, and_0f, and_20]
  omega

theorem or_pos_four {a b : ℕ} (ha : a / 8 = 30) (hb : b / 64 = 2) (c d : ℕ) :
    (a &&& 0x07 ||| (b &&& 0x30)) > 0 ↔
      0x10000 ≤ a % 8 * 262144 + b % 64 * 4096 + c % 64 * 64 + d % 64 := by
  rw [gt_iff_lt, Nat.pos_iff_ne_zero, Ne, Nat.or_eq_zero_iff, and_07, and_30]
  omega

theorem shortForm_of_ge {x : UInt8} (h : 0x80 ≤ x.toNat) : shortForm x = none := by
  have hne : ∀ y : UInt8, y.toNat < 0x80 → x ≠ y := by
    rintro y hy rfl
    omega
  unfold shortForm
  rw [if_neg (hne _ (by decide)), if_neg (hne _ (by decide)), if_neg (hne _ (by decide)),
    if_neg (hne _ (by decide)), if_neg (hne _ (by decide)), if_neg (hne _ (by decide)),
    if_neg (hne _ (by decide))]

/-- The `jsonChar` of a decoded code, with the test of the encoder in front of it. -/
theorem jsonChar_guard {n low : ℕ} {p : Prop} [Decidable p] (hlow : 0x80 ≤ low) (hp : p ↔ low ≤ n)
    (s : Bytes) :
    (if ¬ p then none else (jsonChar n).bind fun sb => (stringChars s).bind fun t =>
      some (sb ++ t)) =
    if low ≤ n ∧ Scalar n then (stringChars s).map (piece n ++ ·) else none := by
  by_cases h1 : low ≤ n
  · rw [if_neg (fun h => h (hp.mpr h1))]
    by_cases h2 : Scalar n
    · rw [if_pos ⟨h1, h2⟩, jsonChar_of_scalar h2 (by omega)]
      rcases stringChars s with - | t <;> rfl
    · rw [if_neg (fun h => h2 h.2), jsonChar_of_not_scalar h2]
      rfl
  · rw [if_pos (fun h => h1 (hp.mp h)), if_neg (fun h => h1 h.1)]

theorem stringChars_ascii {x : UInt8} (h : x.toNat < 0x80) (s : Bytes) :
    stringChars (x :: s) = (stringChars s).map (piece x.toNat ++ ·) := by
  rw [stringChars.eq_def, piece, if_pos h, UInt8.ofNat_toNat]
  dsimp only
  rcases shortForm x with - | e
  · have hlt : ¬ 128 ≤ x := by
      rw [UInt8.le_iff_toNat_le]
      exact Nat.not_le.mpr h
    have hle : x ≤ 31 ↔ x.toNat ≤ 31 := UInt8.le_iff_toNat_le
    dsimp only
    rw [if_neg hlt]
    simp only [hle]
    split_ifs <;> rcases stringChars s with - | t <;> rfl
  · rcases stringChars s with - | t <;> rfl

/-- One round of the loop prints one character. -/
theorem stringChars_cons (x : UInt8) (s : Bytes) : stringChars (x :: s) =
    match front (x :: s) with
    | none => none
    | some (c, rest) => (stringChars rest).map (piece c ++ ·) := by
  have hx := x.toNat_lt
  by_cases h1 : x.toNat < 0x80
  · simp only [front, if_pos h1]
    exact stringChars_ascii h1 s
  have h40 := and_40 x.toNat
  have h20 := and_20 x.toNat
  have h10 := and_10 x.toNat
  have h08 := and_08 x.toNat
  have h1e := and_1e x.toNat
  have hle : ¬ x ≤ 31 := by
    rw [UInt8.le_iff_toNat_le]
    have : (31 : UInt8).toNat = 31 := rfl
    omega
  have h128 : 128 ≤ x := by
    rw [UInt8.le_iff_toNat_le]
    exact Nat.not_lt.mp h1
  rw [stringChars.eq_def]
  simp only [front, shortForm_of_ge (Nat.not_lt.mp h1)]
  rw [if_neg hle, if_pos h128, if_neg h1]
  by_cases h2 : x.toNat / 32 = 6
  · rw [if_neg (by omega), if_pos h2]
    rcases s with - | ⟨y, s⟩
    · rfl
    have hy := and_c0 y.toNat
    have hy' := y.toNat_lt
    simp only
    by_cases hc : y.toNat / 64 = 2
    · rw [if_neg (by omega), if_pos (by omega), code_two]
      refine Eq.trans (jsonChar_guard (show 0x80 ≤ 0x80 by omega) (by omega) s) ?_
      have hs : Scalar (x.toNat % 32 * 64 + y.toNat % 64) := Or.inl (by omega)
      by_cases hn : 0x80 ≤ x.toNat % 32 * 64 + y.toNat % 64
      · rw [if_pos ⟨hn, hs⟩, if_pos ⟨hc, hn⟩]
      · rw [if_neg (fun h => hn h.1), if_neg (fun h => hn h.2)]
    · rw [if_pos (by omega), if_neg (fun h => hc h.1)]
  rw [if_neg h2]
  by_cases h3 : x.toNat / 16 = 14
  · rw [if_neg (by omega), if_pos h3]
    have hn20 : ¬ (x.toNat &&& 0x20 = 0) := by omega
    rcases s with - | ⟨y, - | ⟨z, s⟩⟩
    · rfl
    · simp [hn20]
    have hy := and_c0 y.toNat
    have hy' := y.toNat_lt
    have hz := and_c0 z.toNat
    have hz' := z.toNat_lt
    simp only
    by_cases hy2 : y.toNat / 64 = 2
    · rw [if_neg (by omega), if_neg hn20]
      by_cases hz2 : z.toNat / 64 = 2
      · rw [if_neg (by omega), if_pos (by omega), code_three]
        refine Eq.trans (jsonChar_guard (show 0x80 ≤ 0x800 by omega)
          (or_pos_three h3 hy2 z.toNat) s) ?_
        simp only [hy2, hz2, true_and]
        split_ifs <;> rfl
      · rw [if_pos (by omega), if_neg (fun h => hz2 h.2.1)]
    · rw [if_pos (by omega), if_neg (fun h => hy2 h.1)]
  rw [if_neg h3]
  by_cases h4 : x.toNat / 8 = 30
  · rw [if_neg (by omega), if_pos h4]
    have hn20 : ¬ (x.toNat &&& 0x20 = 0) := by omega
    have hn10 : ¬ (x.toNat &&& 0x10 = 0) := by omega
    rcases s with - | ⟨y, - | ⟨z, - | ⟨w, s⟩⟩⟩
    · rfl
    · simp [hn20]
    · simp [hn20, hn10]
    have hy := and_c0 y.toNat
    have hy' := y.toNat_lt
    have hz := and_c0 z.toNat
    have hz' := z.toNat_lt
    have hw := and_c0 w.toNat
    have hw' := w.toNat_lt
    simp only
    by_cases hy2 : y.toNat / 64 = 2
    · rw [if_neg (by omega), if_neg hn20]
      by_cases hz2 : z.toNat / 64 = 2
      · rw [if_neg (by omega), if_neg hn10]
        by_cases hw2 : w.toNat / 64 = 2
        · rw [if_neg (by omega), if_pos (by omega), code_four]
          refine Eq.trans (jsonChar_guard (show 0x80 ≤ 0x10000 by omega)
            (or_pos_four h4 hy2 z.toNat w.toNat) s) ?_
          simp only [hy2, hz2, hw2, true_and]
          split_ifs <;> rfl
        · rw [if_pos (by omega), if_neg (fun h => hw2 h.2.2.1)]
      · rw [if_pos (by omega), if_neg (fun h => hz2 h.2.1)]
    · rw [if_pos (by omega), if_neg (fun h => hy2 h.1)]
  rw [if_neg h4]
  by_cases hcont : x.toNat / 64 = 2
  · rw [if_pos (by omega)]
  have hn20 : ¬ (x.toNat &&& 0x20 = 0) := by omega
  have hn10 : ¬ (x.toNat &&& 0x10 = 0) := by omega
  have hn08 : ¬ (x.toNat &&& 0x08 = 0) := by omega
  rw [if_neg (by omega)]
  rcases s with - | ⟨y, - | ⟨z, - | ⟨w, s⟩⟩⟩ <;> simp [hn20, hn10, hn08]

/-- The encoder prints the pieces of a valid string. -/
theorem stringChars_flatMap {cs : List ℕ} (hcs : ∀ c ∈ cs, Scalar c) :
    stringChars (cs.flatMap utf8) = some (cs.flatMap piece) := by
  induction cs with
  | nil => rfl
  | cons c cs ih =>
    obtain ⟨hc, hcs⟩ := List.forall_mem_cons.mp hcs
    have hf := front_utf8 hc (cs.flatMap utf8)
    rw [List.flatMap_cons, List.flatMap_cons]
    rcases hu : utf8 c ++ cs.flatMap utf8 with - | ⟨x, s⟩
    · rw [hu] at hf
      cases hf
    · rw [hu] at hf
      rw [stringChars_cons, hf]
      simp only [ih hcs, Option.map_some]

/-- The encoder prints valid strings only. -/
theorem valid_of_stringChars : ∀ {s : Bytes}, (stringChars s).isSome → Valid s := by
  intro s h
  induction hn : s.length using Nat.strong_induction_on generalizing s with
  | _ n ih =>
    rcases s with - | ⟨x, s⟩
    · exact valid_nil
    rw [stringChars_cons] at h
    rcases hf : front (x :: s) with - | ⟨c, rest⟩
    · simp [hf] at h
    · rw [hf] at h
      exact valid_iff_front.mpr (Or.inr ⟨c, rest, hf,
        ih rest.length (hn ▸ length_lt_of_front hf) (by simpa using h) rfl⟩)

/-! ### Reading the pieces -/

theorem codeBytes_eq_utf8 (c : ℕ) : codeBytes c = utf8 c := by
  have h63 : ∀ n : ℕ, n &&& 63 = n % 64 := and_3f
  unfold codeBytes utf8
  simp only [Nat.shiftRight_eq_div_pow, h63, show c ≤ 0xffff ↔ c < 0x10000 by omega]

theorem hexToInt_hexDigit : ∀ d < 16, hexToInt (hexDigit d) = d := by decide

theorem hexNumber_append (num d : ℕ) (hd : d < 16) (s : Bytes) :
    hexNumber num (hexDigit d :: s) = hexNumber (num * 16 + d) s := by
  rw [hexNumber, hexToInt_hexDigit d hd, if_neg (by omega)]

theorem oneChar_digits (c : ℕ) : jsonOneChar c =
    [ch '\\', ch 'u', hexDigit (c / 4096), hexDigit (c / 256 % 16), hexDigit (c / 16 % 16),
      hexDigit (c % 16)] := by
  have h15 : ∀ n : ℕ, n &&& 15 = n % 16 := fun n => Bits.and_low n 4
  simp only [jsonOneChar, Nat.shiftRight_eq_div_pow, h15]

/-- The code that a printed code is read as. -/
theorem hexNumber_oneChar {c : ℕ} (hc : c < 0x10000) :
    hexNumber 0 [hexDigit (c / 4096), hexDigit (c / 256 % 16), hexDigit (c / 16 % 16),
      hexDigit (c % 16)] = some c := by
  rw [hexNumber_append _ _ (by omega), hexNumber_append _ _ (by omega),
    hexNumber_append _ _ (by omega), hexNumber_append _ _ (by omega), hexNumber]
  congr 1
  omega

theorem isSurrogate_iff (c : ℕ) : isSurrogate c = true ↔ 0xD800 ≤ c ∧ c < 0xE000 := by
  simp only [isSurrogate, decide_eq_true_eq]
  omega

theorem item_backslash (s : Bytes) : item (ch '\\' :: s) = escape s := by
  simp [item]

theorem escape_u (s : Bytes) : escape (ch 'u' :: s) = (code s).map fun r => (.code r.1, r.2) := by
  unfold escape
  dsimp only
  rw [show shortEscape (ch 'u') = none by decide]
  exact if_pos rfl

theorem item_oneChar {c : ℕ} (hc : c < 0x10000) (hs : ¬ (0xD800 ≤ c ∧ c < 0xE000)) (t : Bytes) :
    item (jsonOneChar c ++ t) = some (.code c, t) := by
  rw [oneChar_digits]
  simp only [List.cons_append, List.nil_append]
  rw [item_backslash, escape_u, code, if_neg (by simp)]
  simp only [List.take_succ_cons, List.take_zero, hexNumber_oneChar hc, Option.bind_eq_bind,
    Option.bind_some, List.drop_succ_cons, List.drop_zero]
  rw [if_neg (fun h => hs ((isSurrogate_iff c).mp h.1))]
  rfl

theorem item_pair {c : ℕ} (h1 : 0x10000 ≤ c) (h2 : c < 0x110000) (t : Bytes) :
    item (jsonOneChar (0xD7C0 + c / 1024) ++ jsonOneChar (0xDC00 + c % 1024) ++ t) =
      some (.code c, t) := by
  have hhigh := hexNumber_oneChar (c := 0xD7C0 + c / 1024) (by omega)
  have hlow := hexNumber_oneChar (c := 0xDC00 + c % 1024) (by omega)
  have hnum : (((0xD7C0 + c / 1024) &&& 0x3FF) <<< 10 ||| ((0xDC00 + c % 1024) &&& 0x3FF)) +
      0x10000 = c := by
    have h3FF : ∀ n : ℕ, n &&& 0x3FF = n % 1024 := fun n => Bits.and_low n 10
    have hlt : (0xDC00 + c % 1024) % 1024 < 2 ^ 10 := Nat.mod_lt _ (by omega)
    rw [h3FF, h3FF, Bits.shiftLeft_or hlt]
    omega
  rw [oneChar_digits, oneChar_digits]
  simp only [List.cons_append, List.nil_append]
  rw [item_backslash, escape_u, code, if_neg (by simp)]
  simp only [List.take_succ_cons, List.take_zero, hhigh, Option.bind_eq_bind, Option.bind_some,
    List.drop_succ_cons, List.drop_zero]
  rw [if_pos ⟨(isSurrogate_iff _).mpr ⟨by omega, by omega⟩, by simp, rfl⟩, hlow]
  simp only [Option.bind_some]
  rw [if_pos ((isSurrogate_iff _).mpr ⟨by omega, by omega⟩), hnum]
  rfl

theorem shortEscape_shortForm {x e : UInt8} (h : shortForm x = some e) :
    shortEscape e = some x := by
  unfold shortForm at h
  split_ifs at h with h1 h2 h3 h4 h5 h6 h7
  all_goals
    obtain rfl := Option.some.inj h
    subst_vars
    decide

/-- A piece of an ASCII character. -/
theorem item_ascii {c : ℕ} (hc : c < 0x80) (t : Bytes) :
    ∃ i : Item, i.bytes = [UInt8.ofNat c] ∧ item (piece c ++ t) = some (i, t) := by
  unfold piece
  rw [if_pos hc]
  rcases hs : shortForm (UInt8.ofNat c) with - | e
  · by_cases h31 : c ≤ 31
    · simp only [if_pos h31]
      have hb : (Item.code c).bytes = [UInt8.ofNat c] := by
        rw [Item.bytes, codeBytes, if_pos (by omega)]
      exact ⟨.code c, hb, item_oneChar (by omega) (by omega) t⟩
    · simp only [if_neg h31]
      have hne : UInt8.ofNat c ≠ ch '\\' := by
        intro he
        rw [he] at hs
        exact absurd hs (by decide)
      exact ⟨.byte (UInt8.ofNat c), rfl, if_neg hne⟩
  · refine ⟨.byte (UInt8.ofNat c), rfl, ?_⟩
    simp only [List.cons_append, List.nil_append]
    rw [item_backslash]
    unfold escape
    dsimp only
    rw [shortEscape_shortForm hs]

/-- The grammar reads a piece as the bytes of its scalar value. -/
theorem item_piece {c : ℕ} (hc : Scalar c) (t : Bytes) :
    ∃ i : Item, i.bytes = utf8 c ∧ item (piece c ++ t) = some (i, t) := by
  have hcode : (Item.code c).bytes = utf8 c := codeBytes_eq_utf8 c
  unfold Scalar at hc
  by_cases h1 : c < 0x80
  · obtain ⟨i, hi, h⟩ := item_ascii h1 t
    exact ⟨i, by rw [hi, utf8, if_pos h1], h⟩
  · unfold piece
    rw [if_neg h1]
    by_cases h2 : c < 0x10000
    · rw [if_pos h2]
      exact ⟨_, hcode, item_oneChar h2 (by omega) t⟩
    · rw [if_neg h2]
      exact ⟨_, hcode, item_pair (by omega) (by omega) t⟩

/-- What the encoder prints for scalar values stands for their bytes. -/
theorem unescape_flatMap {cs : List ℕ} (hcs : ∀ c ∈ cs, Scalar c) :
    unescape (cs.flatMap piece) = some (cs.flatMap utf8) := by
  induction cs with
  | nil => rw [unescape, List.flatMap_nil, items_nil]; rfl
  | cons c cs ih =>
    obtain ⟨hc, hcs⟩ := List.forall_mem_cons.mp hcs
    obtain ⟨is, his, hb⟩ := Option.map_eq_some_iff.mp (ih hcs)
    obtain ⟨i, hi, h⟩ := item_piece hc (cs.flatMap piece)
    rw [List.flatMap_cons, List.flatMap_cons, unescape, items_of_item h, his]
    simp only [Option.map_some, bytesOf, List.flatMap_cons, hi]
    rw [← hb]
    rfl

/-! ### The closing quote -/

/-- The scan for the closing quote passes the bytes. -/
def Closed (e : Bytes) : Prop :=
  ∀ t, closingQuote (e ++ t) = (closingQuote t).map (· + e.length)

theorem closed_nil : Closed [] := fun t => by simp

theorem Closed.append {d e : Bytes} (hd : Closed d) (he : Closed e) : Closed (d ++ e) := by
  intro t
  rw [List.append_assoc, hd, he, Option.map_map, List.length_append]
  congr 1
  funext n
  simp only [Function.comp_apply]
  omega

theorem closed_byte {b : UInt8} (h1 : b ≠ ch '"') (h2 : b ≠ ch '\\') : Closed [b] := by
  intro t
  rw [List.singleton_append, closingQuote.eq_def]
  simp only [if_neg h1, if_neg h2]
  rcases closingQuote t with - | n <;> rfl

theorem closed_escape (b : UInt8) : Closed [ch '\\', b] := by
  intro t
  rw [List.cons_append, List.singleton_append, closingQuote.eq_def]
  have hne : ch '\\' ≠ ch '"' := by decide
  simp only [if_neg hne, if_true]
  rcases closingQuote t with - | n <;> rfl

theorem hexDigit_ne {d : ℕ} (hd : d < 16) : hexDigit d ≠ ch '"' ∧ hexDigit d ≠ ch '\\' := by
  have hall : ∀ d < 16, hexDigit d ≠ ch '"' ∧ hexDigit d ≠ ch '\\' := by decide
  exact hall d hd

theorem closed_hex {d : ℕ} (hd : d < 16) : Closed [hexDigit d] :=
  closed_byte (hexDigit_ne hd).1 (hexDigit_ne hd).2

theorem closed_oneChar {c : ℕ} (hc : c < 0x10000) : Closed (jsonOneChar c) := by
  rw [oneChar_digits]
  have h := (closed_escape (ch 'u')).append ((closed_hex (show c / 4096 < 16 by omega)).append
    ((closed_hex (show c / 256 % 16 < 16 by omega)).append
      ((closed_hex (show c / 16 % 16 < 16 by omega)).append
        (closed_hex (show c % 16 < 16 by omega)))))
  exact h

theorem closed_piece {c : ℕ} (hc : c < 0x110000) : Closed (piece c) := by
  unfold piece
  by_cases h1 : c < 0x80
  · rw [if_pos h1]
    rcases hs : shortForm (UInt8.ofNat c) with - | e
    · by_cases h31 : c ≤ 31
      · simp only [if_pos h31]
        exact closed_oneChar (by omega)
      · simp only [if_neg h31]
        refine closed_byte ?_ ?_
        all_goals
          intro he
          rw [he] at hs
          exact absurd hs (by decide)
    · exact closed_escape e
  · rw [if_neg h1]
    by_cases h2 : c < 0x10000
    · rw [if_pos h2]
      exact closed_oneChar h2
    · rw [if_neg h2]
      exact (closed_oneChar (by omega)).append (closed_oneChar (by omega))

theorem closed_flatMap {cs : List ℕ} (hcs : ∀ c ∈ cs, Scalar c) : Closed (cs.flatMap piece) := by
  induction cs with
  | nil => exact closed_nil
  | cons c cs ih =>
    obtain ⟨hc, hcs⟩ := List.forall_mem_cons.mp hcs
    have hlt : c < 0x110000 := by
      unfold Scalar at hc
      omega
    rw [List.flatMap_cons]
    exact (closed_piece hlt).append (ih hcs)

theorem literal_closed {e str : Bytes} (hc : Closed e) (hu : unescape e = some str) (t : Bytes) :
    literal (ch '"' :: (e ++ ch '"' :: t)) = some (str, t) := by
  have hq : closingQuote (e ++ ch '"' :: t) = some e.length := by
    rw [hc, closingQuote.eq_def]
    simp
  simp only [literal, if_true, hq, Option.bind_eq_bind, Option.bind_some, List.take_left, hu]
  rw [← List.drop_drop, List.drop_left]
  rfl

/-- What the encoder prints for a string is a literal of the string. -/
theorem literal_jsonString {str text : Bytes} (h : jsonString str = some text) (t : Bytes) :
    literal (text ++ t) = some (str, t) := by
  obtain ⟨e, he, htext⟩ := Option.bind_eq_some_iff.mp h
  obtain ⟨cs, rfl, hcs⟩ := valid_of_stringChars (by rw [he]; rfl)
  rw [stringChars_flatMap hcs] at he
  obtain rfl := Option.some.inj he
  obtain rfl := Option.some.inj htext
  have hl := literal_closed (closed_flatMap hcs) (unescape_flatMap hcs) t
  simpa using hl

theorem jsonString_isSome (str : Bytes) : (jsonString str).isSome ↔ checkUtf8 str = true := by
  rw [checkUtf8_iff]
  constructor
  · intro h
    obtain ⟨text, h⟩ := Option.isSome_iff_exists.mp h
    obtain ⟨e, he, -⟩ := Option.bind_eq_some_iff.mp h
    exact valid_of_stringChars (by rw [he]; rfl)
  · rintro ⟨cs, rfl, hcs⟩
    rw [jsonString, stringChars_flatMap hcs]
    rfl

end TdUtils.Json
