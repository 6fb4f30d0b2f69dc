import Mathlib.Data.List.DropRight
import Mathlib.Data.List.Forall2
import TdUtils.Json.DecodeFollows
import TdUtils.Json.EscapeString
import TdUtils.Json.JsonRender

/-!
# Json.RoundTrip — what is encoded decodes to the same value

`Prints element text x` says that the grammar takes `text` off the input as `x`.  Brackets around
printed elements print the list, and so by induction on the depth does the encoder's text of a value.
-/

namespace TdUtils.Json

open Lib Bytes Text JsonBuilder

/-! ### The decoder as a function of the text -/

/-- `json_decode` takes the text, and the slices into the buffer it leaves stand for `v`. -/
def DecodesTo (text : Bytes) (v : JsonValue Bytes) : Prop :=
  ∃ w buf, jsonDecode text = .ok (w, buf) ∧ w.traverse (Slice.read buf) = some v

theorem ofSlice_follows (text : Bytes) : Follows ReadsValue (Parser.ofSlice text)
    (doJsonDecode (Parser.ofSlice text) 100) (value true 101 text) :=
  decodeValue_follows 101 (Parser.ofSlice text) rfl

theorem value_of_jsonDecode {text buf : Bytes} {w : JsonValue Slice}
    (h : jsonDecode text = .ok (w, buf)) :
    ∃ v rest, value true 101 text = some (v, rest) ∧ skipWs rest = [] ∧
      w.traverse (Slice.read buf) = some v := by
  have hf := ofSlice_follows text
  unfold jsonDecode at h
  rcases hv : value true 101 text with - | ⟨v, rest⟩ <;> rw [hv] at hf
  · obtain ⟨m, hm⟩ := hf
    rw [hm] at h
    cases h
  · obtain ⟨q, a, hq, hpq, hr⟩ := hf
    have hdata := (Ahead.skipWhitespaces q).data_eq
    rw [hpq.data_eq] at hdata
    rw [hq] at h
    simp only [bind, Except.bind, Parser.empty, hdata] at h
    split_ifs at h with hws
    · obtain ⟨rfl, rfl⟩ := Prod.mk.inj (Except.ok.inj h)
      exact ⟨v, rest, rfl, List.isEmpty_iff.mp hws,
        JsonValue.traverse_mono (Slice.read_mono (List.take_prefix _ _)) _ _ hr⟩

theorem decodesTo_of_value {text rest : Bytes} {v : JsonValue Bytes}
    (hv : value true 101 text = some (v, rest)) (hrest : skipWs rest = []) : DecodesTo text v := by
  have hf := ofSlice_follows text
  rw [hv] at hf
  obtain ⟨q, w, hq, hpq, hr⟩ := hf
  have hdata := (Ahead.skipWhitespaces q).data_eq
  rw [hpq.data_eq, hrest] at hdata
  refine ⟨w, q.buf, ?_, JsonValue.traverse_mono (Slice.read_mono (List.take_prefix _ _)) _ _ hr⟩
  unfold jsonDecode
  rw [hq]
  simp only [bind, Except.bind, Parser.empty, hdata]
  rfl

/-! ### Whitespace -/

theorem skipWs_append {ws : Bytes} (h : ∀ c ∈ ws, Parser.isWhitespace c = true) (s : Bytes) :
    skipWs (ws ++ s) = skipWs s :=
  List.dropWhile_append_of_pos h

theorem skipWs_cons {c : UInt8} (h : Parser.isWhitespace c = false) (s : Bytes) :
    skipWs (c :: s) = c :: s :=
  List.dropWhile_cons_of_neg (by simp [h])

theorem skipWs_skipWs (s : Bytes) : skipWs (skipWs s) = skipWs s :=
  List.dropWhile_idempotent _ _

theorem offsetText_ws (offset : ℤ) : ∀ c ∈ offsetText offset, Parser.isWhitespace c = true := by
  intro c hc
  unfold offsetText at hc
  split_ifs at hc with h
  · rw [List.mem_cons, List.mem_flatten] at hc
    rcases hc with rfl | ⟨l, hl, hc⟩
    · decide
    · rw [List.eq_of_mem_replicate hl] at hc
      have hall : ∀ c ∈ chs [' ', ' ', ' '], Parser.isWhitespace c = true := by decide
      exact hall c hc
  · cases hc

theorem value_skipWs (ok : Bool) (levels : ℕ) (s : Bytes) :
    value ok levels (skipWs s) = value ok levels s := by
  cases levels with
  | zero => rfl
  | succ levels =>
    unfold value
    rw [skipWs_skipWs]

/-! ### Printed elements -/

/-- What follows a value does not go on with a number. -/
def Ends (rest : Bytes) : Prop := ∀ c ∈ rest.head?, isNumberChar c = false

/-- The grammar takes `text` off the input as `x`. -/
structure Prints {α : Type} (element : Bytes → Option (α × Bytes)) (text : Bytes) (x : α) :
    Prop where
  head : ∃ c t, text = c :: t ∧ c ∉ chs [' ', '\t', '\r', '\n', ']', '}']
  element_eq : ∀ rest, Ends rest → element (text ++ rest) = some (x, rest)

section Printed

variable {α β : Type} {element : Bytes → Option (α × Bytes)} {text : Bytes} {x : α}

theorem Prints.skipWs_eq (h : Prints element text x) (s : Bytes) :
    skipWs (text ++ s) = text ++ s := by
  obtain ⟨c, t, rfl, hc⟩ := h.head
  refine skipWs_cons (decide_eq_false fun hws => hc ?_) _
  exact List.mem_append_left (chs [']', '}']) hws

theorem ends_cons {c : UInt8} (h : isNumberChar c = false) (s : Bytes) : Ends (c :: s) := by
  rintro d hd
  rwa [← Option.some.inj hd]

theorem ends_offset {s : Bytes} (h : Ends s) (offset : ℤ) : Ends (offsetText offset ++ s) := by
  unfold offsetText
  split_ifs
  · exact ends_cons (by decide) _
  · exact h

/-- The elements of a list with what stands in front of them. -/
def joined (offset : ℤ) : Bool → List Bytes → Bytes
  | _, [] => []
  | isFirst, text :: texts => separator offset isFirst ++ text ++ joined offset true texts

theorem length_le_joined (offset : ℤ) : ∀ texts : List Bytes,
    texts.length ≤ (joined offset true texts).length
  | [] => Nat.le_refl 0
  | text :: texts => by
    have ih := length_le_joined offset texts
    simp only [joined, separator, List.length_append, List.length_cons, if_true]
    omega

theorem trySkip_cons (c : UInt8) (s : Bytes) : trySkip c (c :: s) = some s := if_pos rfl

theorem trySkip_of_ne {c d : UInt8} (h : d ≠ c) (s : Bytes) : trySkip c (d :: s) = none :=
  if_neg (by simpa using h)

variable (close : UInt8)

/-- The loop over printed elements, from the first of them on. -/
theorem members_joined (hclose : close ∈ chs [']', '}']) (offset offset' : ℤ) (rest : Bytes) :
    ∀ (texts : List Bytes) (xs : List α) (text : Bytes) (x : α) (fuel : ℕ), Prints element text x →
      List.Forall₂ (Prints element) texts xs → texts.length < fuel →
      members close element fuel
        (text ++ (joined offset true texts ++ (offsetText offset' ++ close :: rest))) =
        some (x :: xs, rest) := by
  have hws : Parser.isWhitespace close = false := by
    have hall : ∀ c ∈ chs [']', '}'], Parser.isWhitespace c = false := by decide
    exact hall close hclose
  have hnum : isNumberChar close = false := by
    have hall : ∀ c ∈ chs [']', '}'], isNumberChar c = false := by decide
    exact hall close hclose
  have hcomma : ch ',' ≠ close := by
    rintro rfl
    revert hclose
    decide
  intro texts
  induction texts with
  | nil =>
    intro xs text x fuel hx hxs hfuel
    cases hxs
    obtain ⟨fuel, rfl⟩ := Nat.exists_eq_add_one_of_ne_zero (Nat.ne_of_gt hfuel)
    have hne : text ++ (joined offset true [] ++ (offsetText offset' ++ close :: rest)) ≠ [] := by
      simp
    unfold members
    rw [if_neg hne, joined, List.nil_append,
      hx.element_eq _ (ends_offset (ends_cons hnum _) _)]
    simp only [Option.bind_eq_bind, Option.bind_some, skipWs_append (offsetText_ws offset'),
      skipWs_cons hws, trySkip_cons]
    rfl
  | cons text' texts ih =>
    intro xs text x fuel hx hxs hfuel
    obtain ⟨x', xs, hx', hxs', rfl⟩ := List.forall₂_cons_left_iff.mp hxs
    obtain ⟨fuel, rfl⟩ := Nat.exists_eq_add_one_of_ne_zero (Nat.ne_of_gt (Nat.zero_lt_of_lt hfuel))
    have hne : text ++ (joined offset true (text' :: texts) ++
        (offsetText offset' ++ close :: rest)) ≠ [] := by
      simp
    have hjoined : joined offset true (text' :: texts) ++ (offsetText offset' ++ close :: rest) =
        ch ',' :: (offsetText offset ++
          (text' ++ (joined offset true texts ++ (offsetText offset' ++ close :: rest)))) := by
      simp [joined, separator]
    unfold members
    rw [if_neg hne, hx.element_eq _ (by rw [hjoined]; exact ends_cons (by decide) _), hjoined]
    simp only [Option.bind_eq_bind, Option.bind_some, skipWs_append (offsetText_ws offset),
      skipWs_cons (c := ch ',') (by decide), trySkip_cons, trySkip_of_ne hcomma,
      hx'.skipWs_eq, ih xs text' x' fuel hx' hxs' (Nat.lt_of_succ_lt_succ hfuel)]
    rfl

/-- Brackets around printed elements. -/
theorem bracketed_joined (hclose : close ∈ chs [']', '}']) (open_ : UInt8) (offset offset' : ℤ)
    {texts : List Bytes} {xs : List α} (h : List.Forall₂ (Prints element) texts xs) (rest : Bytes) :
    bracketed true close element
      (open_ :: (joined offset false texts ++ (offsetText offset' ++ close :: rest))) =
      some (xs, rest) := by
  unfold bracketed
  cases h with
  | nil =>
    have hws : Parser.isWhitespace close = false := by
      have hall : ∀ c ∈ chs [']', '}'], Parser.isWhitespace c = false := by decide
      exact hall close hclose
    simp only [skipOne, if_true, List.tail_cons, joined, List.nil_append,
      skipWs_append (offsetText_ws offset'), skipWs_cons hws, trySkip_cons]
  | @cons text x texts xs hx hxs =>
    obtain ⟨c, t, ht, hc⟩ := hx.head
    have hne : c ≠ close := by
      rintro rfl
      exact hc (List.mem_append_right (chs [' ', '\t', '\r', '\n']) hclose)
    have hskip : skipWs (joined offset false (text :: texts) ++ (offsetText offset' ++ close :: rest))
        = text ++ (joined offset true texts ++ (offsetText offset' ++ close :: rest)) := by
      have happ : joined offset false (text :: texts) = offsetText offset ++ text ++
          joined offset true texts := rfl
      rw [happ, List.append_assoc, List.append_assoc, skipWs_append (offsetText_ws offset),
        hx.skipWs_eq]
    have hnone : trySkip close (text ++ (joined offset true texts ++ (offsetText offset' ++
        close :: rest))) = none := by
      rw [ht]
      exact trySkip_of_ne hne _
    have hlen : texts.length < (text ++ (joined offset true texts ++
        (offsetText offset' ++ close :: rest))).length + 1 := by
      have := length_le_joined offset texts
      simp only [List.length_append]
      omega
    simp only [skipOne, if_true, List.tail_cons, hskip, hnone]
    exact members_joined close hclose offset offset' rest texts xs text x _ hx hxs hlen

end Printed

/-! ### The text of a value -/

/-- A non-empty token over `[-+.eE0-9]` that starts with one of `[-+.0-9]`. -/
structure NumberToken (number : Bytes) : Prop where
  start : ∃ c t, number = c :: t ∧ isNumberStart c = true
  chars : ∀ c ∈ number, isNumberChar c = true

theorem renderItems_joined {offset : ℤ} : ∀ {items : List (JsonValue Bytes)} {isFirst : Bool}
    {t : Bytes}, renderItems offset isFirst items = some t →
    ∃ texts, List.Forall₂ (fun v text => render offset v = some text) items texts ∧
      t = joined offset isFirst texts
  | [], isFirst, t, h => ⟨[], .nil, (Option.some.inj h).symm⟩
  | v :: items, isFirst, t, h => by
    simp only [renderItems, Option.bind_eq_bind, Option.bind_eq_some_iff, Option.pure_def,
      Option.some.injEq] at h
    obtain ⟨text, hv, rest, hitems, rfl⟩ := h
    obtain ⟨texts, htexts, rfl⟩ := renderItems_joined hitems
    exact ⟨text :: texts, .cons hv htexts, rfl⟩

/-- The text of a field. -/
def FieldText (offset : ℤ) (field : Bytes × JsonValue Bytes) (text : Bytes) : Prop :=
  ∃ name body, jsonString field.1 = some name ∧ render offset field.2 = some body ∧
    text = name ++ (colon offset ++ body)

theorem renderFields_joined {offset : ℤ} : ∀ {fields : List (Bytes × JsonValue Bytes)}
    {isFirst : Bool} {t : Bytes}, renderFields offset isFirst fields = some t →
    ∃ texts, List.Forall₂ (FieldText offset) fields texts ∧ t = joined offset isFirst texts
  | [], isFirst, t, h => ⟨[], .nil, (Option.some.inj h).symm⟩
  | (key, v) :: fields, isFirst, t, h => by
    simp only [renderFields, Option.bind_eq_bind, Option.bind_eq_some_iff, Option.pure_def,
      Option.some.injEq] at h
    obtain ⟨name, hname, body, hv, rest, hfields, rfl⟩ := h
    obtain ⟨texts, htexts, rfl⟩ := renderFields_joined hfields
    refine ⟨(name ++ (colon offset ++ body)) :: texts, .cons ⟨name, body, hname, hv, rfl⟩ htexts, ?_⟩
    simp [joined]

theorem word_append {α : Type} (pre : Bytes) (x : α) (rest : Bytes) :
    word pre x (pre ++ rest) = some (x, rest) := by
  unfold word
  rw [if_neg, List.drop_left]
  rintro (h | h)
  · rw [List.length_append] at h
    omega
  · rw [List.take_left] at h
    exact h rfl

theorem jsonString_head {str text : Bytes} (h : jsonString str = some text) :
    ∃ t, text = ch '"' :: t := by
  simp only [jsonString, Option.bind_eq_bind, Option.bind_eq_some_iff, Option.pure_def,
    Option.some.injEq] at h
  obtain ⟨t, -, rfl⟩ := h
  exact ⟨_, rfl⟩

theorem literal_prints {str text : Bytes} (h : jsonString str = some text) :
    Prints literal text str where
  head := by
    obtain ⟨t, rfl⟩ := jsonString_head h
    exact ⟨_, t, rfl, by decide⟩
  element_eq rest _ := literal_jsonString h rest

theorem value_cons (levels : ℕ) {c : UInt8} (h : Parser.isWhitespace c = false) (s : Bytes) :
    value true (levels + 1) (c :: s) =
      if c = ch 'f' then word (chs ['f', 'a', 'l', 's', 'e']) (.boolean false) (c :: s)
      else if c = ch 't' then word (chs ['t', 'r', 'u', 'e']) (.boolean true) (c :: s)
      else if c = ch 'n' then word (chs ['n', 'u', 'l', 'l']) .null (c :: s)
      else if c = ch '"' then (literal (c :: s)).map fun r => (.string r.1, r.2)
      else if c = ch '[' then
        (bracketed true (ch ']') (value true levels) (c :: s)).map fun r => (.array r.1, r.2)
      else if c = ch '{' then
        (bracketed true (ch '}') (pair literal (value true levels)) (c :: s)).map fun r =>
          (.object r.1, r.2)
      else if isNumberStart c then
        some (.number ((c :: s).takeWhile isNumberChar), (c :: s).dropWhile isNumberChar)
      else none := by
  rw [value, skipWs_cons h, List.headD_cons]

theorem string_prints {str text : Bytes} (h : jsonString str = some text) (levels : ℕ) :
    Prints (value true (levels + 1)) text (.string str) where
  head := (literal_prints h).head
  element_eq rest hrest := by
    have hlit := (literal_prints h).element_eq rest hrest
    obtain ⟨t, rfl⟩ := jsonString_head h
    rw [List.cons_append] at hlit ⊢
    rw [value_cons levels (by decide), if_neg (by decide), if_neg (by decide), if_neg (by decide),
      if_pos rfl, hlit]
    rfl

theorem number_prints {number : Bytes} (h : NumberToken number) (levels : ℕ) :
    Prints (value true (levels + 1)) number (.number number) := by
  obtain ⟨c, t, rfl, hc⟩ := h.start
  have hmem : c ∈ chs ['-', '+', '.', '0', '1', '2', '3', '4', '5', '6', '7', '8', '9'] := by
    simpa [isNumberStart] using hc
  have hall : ∀ c ∈ chs ['-', '+', '.', '0', '1', '2', '3', '4', '5', '6', '7', '8', '9'],
      c ∉ chs [' ', '\t', '\r', '\n', ']', '}'] ∧ c ∉ chs ['f', 't', 'n', '"', '[', '{'] ∧
        Parser.isWhitespace c = false := by decide
  obtain ⟨h1, h2, h3⟩ := hall c hmem
  refine ⟨⟨c, t, rfl, h1⟩, fun rest hrest => ?_⟩
  have hne : ∀ d ∈ chs ['f', 't', 'n', '"', '[', '{'], c ≠ d := fun d hd hcd => h2 (hcd ▸ hd)
  have htake : (c :: t ++ rest).takeWhile isNumberChar = c :: t := by
    rw [List.takeWhile_append_of_pos h.chars]
    rcases rest with - | ⟨d, rest⟩
    · exact List.append_nil _
    · rw [List.takeWhile_cons_of_neg (by simp [hrest d rfl]), List.append_nil]
  have hdrop : (c :: t ++ rest).dropWhile isNumberChar = rest := by
    rw [List.dropWhile_append_of_pos h.chars]
    rcases rest with - | ⟨d, rest⟩
    · rfl
    · exact List.dropWhile_cons_of_neg (by simp [hrest d rfl])
  rw [List.cons_append] at htake hdrop ⊢
  rw [value_cons levels h3, if_neg (hne _ (by decide)), if_neg (hne _ (by decide)),
    if_neg (hne _ (by decide)), if_neg (hne _ (by decide)), if_neg (hne _ (by decide)),
    if_neg (hne _ (by decide)), if_pos hc, htake, hdrop]

theorem colon_ws (offset : ℤ) : ∃ ws₁ ws₂, colon offset = ws₁ ++ ch ':' :: ws₂ ∧
    (∀ c ∈ ws₁, Parser.isWhitespace c = true) ∧ ∀ c ∈ ws₂, Parser.isWhitespace c = true := by
  unfold colon
  split_ifs
  · exact ⟨chs [' '], chs [' '], rfl, by decide, by decide⟩
  · exact ⟨[], [], rfl, by decide, by decide⟩

theorem field_prints {offset : ℤ} {levels : ℕ} {key name body : Bytes} {v : JsonValue Bytes}
    (hname : jsonString key = some name) (hv : Prints (value true levels) body v) :
    Prints (pair literal (value true levels)) (name ++ (colon offset ++ body)) (key, v) where
  head := by
    obtain ⟨t, rfl⟩ := jsonString_head hname
    exact ⟨_, _, rfl, by decide⟩
  element_eq rest hrest := by
    obtain ⟨ws₁, ws₂, hcolon, h₁, h₂⟩ := colon_ws offset
    have hvalue : value true levels (ws₂ ++ (body ++ rest)) = some (v, rest) := by
      rw [← value_skipWs, skipWs_append h₂, hv.skipWs_eq]
      exact hv.element_eq rest hrest
    unfold pair
    rw [hcolon, List.append_assoc, literal_jsonString hname, List.append_assoc, List.append_assoc,
      List.cons_append]
    simp only [Option.bind_eq_bind, Option.bind_some, skipWs_append h₁,
      skipWs_cons (c := ch ':') (by decide), trySkip_cons, hvalue]
    rfl

/-- The text of a value decodes to the value. -/
theorem render_prints : ∀ (levels : ℕ) {v : JsonValue Bytes} {offset : ℤ} {text : Bytes},
    render offset v = some text → (∀ number ∈ v.numbers, NumberToken number) →
    v.depth < levels → Prints (value true levels) text v
  | 0, _, _, _, _, _, hd => absurd hd (Nat.not_lt_zero _)
  | levels + 1, .null, _, _, ht, _, _ => by
    obtain rfl := Option.some.inj ht
    refine ⟨⟨_, _, rfl, by decide⟩, fun rest _ => (value_cons levels (by decide) _).trans ?_⟩
    rw [if_neg (by decide), if_neg (by decide), if_pos rfl]
    exact word_append _ _ _
  | levels + 1, .boolean true, _, _, ht, _, _ => by
    obtain rfl := Option.some.inj ht
    refine ⟨⟨_, _, rfl, by decide⟩, fun rest _ => (value_cons levels (by decide) _).trans ?_⟩
    rw [if_neg (by decide), if_pos rfl]
    exact word_append _ _ _
  | levels + 1, .boolean false, _, _, ht, _, _ => by
    obtain rfl := Option.some.inj ht
    refine ⟨⟨_, _, rfl, by decide⟩, fun rest _ => (value_cons levels (by decide) _).trans ?_⟩
    rw [if_pos rfl]
    exact word_append _ _ _
  | levels + 1, .number number, _, _, ht, hn, _ => by
    obtain rfl := Option.some.inj ht
    exact number_prints (hn _ List.mem_cons_self) levels
  | levels + 1, .string str, _, _, ht, _, _ => string_prints ht levels
  | levels + 1, .array items, offset, _, ht, hn, hd => by
    simp only [render, Option.bind_eq_bind, Option.bind_eq_some_iff, Option.pure_def,
      Option.some.injEq] at ht
    obtain ⟨t, ht, rfl⟩ := ht
    obtain ⟨texts, htexts, rfl⟩ := renderItems_joined ht
    rw [JsonValue.numbers, numbersOfItems_eq] at hn
    have hprints : List.Forall₂ (Prints (value true levels)) texts items := by
      refine (List.Forall₂.imp (fun v text h => ?_)
        ((List.forall₂_and_left _ _).mpr ⟨fun _ h => h, htexts⟩)).flip
      exact render_prints levels h.2 (fun n hmem => hn n (List.mem_flatMap_of_mem h.1 hmem))
        (depthOfItems_lt.mp hd v h.1)
    refine ⟨⟨_, _, rfl, by decide⟩, fun rest _ => ?_⟩
    have hlist := bracketed_joined (ch ']') (by decide) (ch '[') (deeper offset) offset hprints rest
    simp only [List.append_assoc, List.nil_append, List.cons_append]
    rw [value_cons levels (by decide), if_neg (by decide), if_neg (by decide), if_neg (by decide),
      if_neg (by decide), if_pos rfl, hlist]
    rfl
  | levels + 1, .object fields, offset, _, ht, hn, hd => by
    simp only [render, Option.bind_eq_bind, Option.bind_eq_some_iff, Option.pure_def,
      Option.some.injEq] at ht
    obtain ⟨t, ht, rfl⟩ := ht
    obtain ⟨texts, htexts, rfl⟩ := renderFields_joined ht
    rw [JsonValue.numbers, numbersOfFields_eq] at hn
    have hprints : List.Forall₂ (Prints (pair literal (value true levels))) texts fields := by
      refine (List.Forall₂.imp (fun field text h => ?_)
        ((List.forall₂_and_left _ _).mpr ⟨fun _ h => h, htexts⟩)).flip
      obtain ⟨hmem, name, body, hname, hbody, rfl⟩ := h
      refine field_prints hname (render_prints levels hbody (fun n hn' => ?_) ?_)
      · exact hn n (List.mem_flatMap_of_mem hmem hn')
      · exact depthOfFields_lt.mp hd field hmem
    refine ⟨⟨_, _, rfl, by decide⟩, fun rest _ => ?_⟩
    have hlist := bracketed_joined (ch '}') (by decide) (ch '{') (deeper offset) offset hprints rest
    simp only [List.append_assoc, List.nil_append, List.cons_append]
    rw [value_cons levels (by decide), if_neg (by decide), if_neg (by decide), if_neg (by decide),
      if_neg (by decide), if_neg (by decide), if_pos rfl, hlist]
    rfl

/-! ### The whole text -/

theorem jsonEncode_eq (v : JsonValue Bytes) (pretty : Bool) : jsonEncode v pretty =
    (render (if pretty then 0 else -1) v).map (· ++ if pretty then [ch '\n'] else []) := by
  have hscope := valueScope_eq (f := store v) ⟨[], none, if pretty then 0 else -1⟩
    (render (if pretty then 0 else -1) v) (fun scope jb' ho => by rw [store_eq, ho])
  unfold jsonEncode
  simp only [Option.bind_eq_bind, Option.pure_def]
  rw [← Option.bind_assoc] at hscope ⊢
  rw [← Option.bind_assoc, hscope]
  rcases render (if pretty then 0 else -1) v with - | text
  · rfl
  · cases pretty
    · simp [JsonBuilder.append]
    · rfl

mutual

/-- The encoder completes exactly on values whose strings are UTF-8. -/
theorem render_isSome (offset : ℤ) : ∀ v : JsonValue Bytes,
    (render offset v).isSome ↔ ∀ str ∈ v.strings, checkUtf8 str = true
  | .null | .boolean true | .boolean false | .number _ => by simp [render, JsonValue.strings]
  | .string str => by simp [render, JsonValue.strings, jsonString_isSome]
  | .array items => by
    rw [JsonValue.strings, ← renderItems_isSome (deeper offset) false items, render]
    rcases renderItems (deeper offset) false items with - | t <;> simp
  | .object fields => by
    rw [JsonValue.strings, ← renderFields_isSome (deeper offset) false fields, render]
    rcases renderFields (deeper offset) false fields with - | t <;> simp

theorem renderItems_isSome (offset : ℤ) (isFirst : Bool) : ∀ items : List (JsonValue Bytes),
    (renderItems offset isFirst items).isSome ↔
      ∀ str ∈ stringsOfItems items, checkUtf8 str = true
  | [] => by simp [renderItems, stringsOfItems]
  | v :: items => by
    rw [stringsOfItems, List.forall_mem_append, ← render_isSome offset v,
      ← renderItems_isSome offset true items, renderItems]
    rcases render offset v with - | t
    · simp
    · rcases renderItems offset true items with - | t' <;> simp

theorem renderFields_isSome (offset : ℤ) (isFirst : Bool) :
    ∀ fields : List (Bytes × JsonValue Bytes), (renderFields offset isFirst fields).isSome ↔
      ∀ str ∈ stringsOfFields fields, checkUtf8 str = true
  | [] => by simp [renderFields, stringsOfFields]
  | (key, v) :: fields => by
    rw [stringsOfFields, List.forall_mem_append, List.forall_mem_cons, ← jsonString_isSome key,
      ← render_isSome offset v, ← renderFields_isSome offset true fields, renderFields]
    rcases jsonString key with - | name
    · simp
    · rcases render offset v with - | t
      · simp
      · rcases renderFields offset true fields with - | t' <;> simp

end

theorem jsonEncode_isSome (v : JsonValue Bytes) (pretty : Bool) :
    (jsonEncode v pretty).isSome ↔ ∀ str ∈ v.strings, checkUtf8 str = true := by
  rw [jsonEncode_eq, Option.isSome_map, render_isSome]

theorem decodesTo_of_jsonEncode {v : JsonValue Bytes} {pretty : Bool} {text : Bytes}
    (h : jsonEncode v pretty = some text) (hn : ∀ number ∈ v.numbers, NumberToken number)
    (hd : v.depth ≤ 100) : DecodesTo text v := by
  rw [jsonEncode_eq, Option.map_eq_some_iff] at h
  obtain ⟨t, ht, rfl⟩ := h
  have hends : Ends (if pretty then [ch '\n'] else []) := by
    cases pretty
    · rintro c hc
      cases hc
    · exact ends_cons (by decide) _
  refine decodesTo_of_value ((render_prints 101 ht hn (Nat.lt_succ_of_le hd)).element_eq _ hends) ?_
  cases pretty
  · rfl
  · decide

/-- **Round trip.**  A value with UTF-8 strings, number tokens and at most 100 brackets around each
value is encoded without a failed check, and the text, pretty or not, decodes to the same value. -/
theorem decode_encode (v : JsonValue Bytes) (pretty : Bool)
    (hs : ∀ str ∈ v.strings, checkUtf8 str = true)
    (hn : ∀ number ∈ v.numbers, NumberToken number) (hd : v.depth ≤ 100) :
    ∃ text, jsonEncode v pretty = some text ∧ DecodesTo text v := by
  obtain ⟨text, ht⟩ := Option.isSome_iff_exists.mp ((jsonEncode_isSome v pretty).mpr hs)
  exact ⟨text, ht, decodesTo_of_jsonEncode ht hn hd⟩

theorem decode_encode_pair : ∃ text,
    jsonEncode (.array [.object [([0xC3, 0xA9], .number (chs ['-', '1']))], .null]) true = some text ∧
      DecodesTo text (.array [.object [([0xC3, 0xA9], .number (chs ['-', '1']))], .null]) := by
  refine decode_encode _ true (by decide) ?_ (by decide)
  have hnumber : NumberToken (chs ['-', '1']) := ⟨⟨_, _, rfl, by decide⟩, by decide⟩
  exact List.forall_mem_singleton.mpr hnumber

end TdUtils.Json
