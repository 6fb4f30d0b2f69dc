import TdUtils.Json.JsonScopes
import TdUtils.Json.RoundTrip

/-!
# Json.ScopesSpell — when the text of nested scopes is JSON

An object scope puts no comma in front of raw members.  With raw members only in front of all others,
and with scalars that JSON has texts for, the text spells what was written; otherwise it has fewer
commas than what was written needs, or there is no text of what was written.
-/

namespace TdUtils.Json

open Lib Bytes Utf8 JsonBuilder

/-! ### Raw members in front -/

theorem ws_offsetText (offset : ℤ) : Ws (offsetText offset) := offsetText_ws offset

theorem spells_member {key name : Bytes} (hname : jsonString key = some name) (offset : ℤ)
    {text : Bytes} {v : JsonValue Bytes} (h : Spells (.value v) text) :
    Spells (.members [(key, v)]) (name ++ colon offset ++ text) := by
  obtain ⟨content, rfl, hcontent⟩ := quotes_of_jsonString hname
  have hspace : Ws [ch ' '] := List.forall_mem_singleton.mpr (by decide)
  unfold colon
  split_ifs
  · have hmember := Spells.member hcontent hspace (h.before hspace)
    simpa [chs] using hmember
  · have hmember := Spells.member hcontent Ws.nil h
    simpa using hmember

/-- The text of elements, with a comma in front of it where they are not the first ones. -/
def After (isFirst : Bool) (p : Phrase) (text : Bytes) : Prop :=
  ∃ t, text = (if isFirst then [ch ','] else []) ++ t ∧ Spells p t

theorem after_separator {isFirst : Bool} {p : Phrase} {text : Bytes} (h : Spells p text)
    (offset : ℤ) : After isFirst p (separator offset isFirst ++ text) :=
  ⟨offsetText offset ++ text, List.append_assoc _ _ _, h.before (ws_offsetText offset)⟩

theorem After.append {isFirst : Bool} {p q : Phrase} {text rest : Bytes} (h : After isFirst p text)
    (hjoin : ∀ t, Spells p t → Spells q (t ++ rest)) : After isFirst q (text ++ rest) := by
  obtain ⟨t, rfl, ht⟩ := h
  exact ⟨t ++ rest, List.append_assoc _ _ _, hjoin t ht⟩

theorem items_join {rest t : Bytes} {vs ws : List (JsonValue Bytes)}
    (hrest : ws = [] ∧ rest = [] ∨ After true (.items ws) rest) (h : Spells (.items vs) t) :
    Spells (.items (vs ++ ws)) (t ++ rest) := by
  rcases hrest with ⟨rfl, rfl⟩ | ⟨u, rfl, hu⟩
  · rwa [List.append_nil, List.append_nil]
  · exact .items h hu

theorem members_join {rest t : Bytes} {fs gs : List (Bytes × JsonValue Bytes)}
    (hrest : gs = [] ∧ rest = [] ∨ After true (.members gs) rest) (h : Spells (.members fs) t) :
    Spells (.members (fs ++ gs)) (t ++ rest) := by
  rcases hrest with ⟨rfl, rfl⟩ | ⟨u, rfl, hu⟩
  · rwa [List.append_nil, List.append_nil]
  · exact .members h hu

mutual

/-- With raw members only in front of others the text spells what was written. -/
theorem Node.spells (offset : ℤ) : ∀ (n : Node) {text : Bytes}, n.render offset = some text →
    n.RawsFirst → n.Spellable → Spells (.value n.tree) text
  | .leaf leaf, _, h, _, hspell => leaf.spells h hspell
  | .array items, text, h, hraw, hspell => by
    obtain ⟨inner, hinner, h⟩ := Option.bind_eq_some_iff.mp h
    obtain rfl := Option.some.inj h
    have hws := ws_offsetText offset
    have hassoc : [ch '['] ++ inner ++ offsetText offset ++ [ch ']'] =
        ch '[' :: (inner ++ offsetText offset) ++ [ch ']'] := by simp
    rw [hassoc, Node.tree]
    rcases items_after (deeper offset) false items hinner hraw hspell with ⟨htree, rfl⟩ | ⟨t, rfl, ht⟩
    · rw [htree]
      exact .emptyArray hws
    · exact .array (ht.after hws)
  | .object members, text, h, hraw, hspell => by
    obtain ⟨inner, hinner, h⟩ := Option.bind_eq_some_iff.mp h
    obtain rfl := Option.some.inj h
    have hws := ws_offsetText offset
    have hassoc : [ch '{'] ++ inner ++ offsetText offset ++ [ch '}'] =
        ch '{' :: (inner ++ offsetText offset) ++ [ch '}'] := by simp
    rw [hassoc, Node.tree]
    rcases members_after (deeper offset) false members hinner hraw hspell with
      ⟨htree, rfl⟩ | ⟨t, rfl, ht⟩
    · rw [htree]
      exact .emptyObject hws
    · exact .object (ht.after hws)

theorem items_after (offset : ℤ) : ∀ (isFirst : Bool) (items : List Node) {text : Bytes},
    renderNodes offset isFirst items = some text → RawsFirstItems items → SpellableItems items →
    treesOf items = [] ∧ text = [] ∨ After isFirst (.items (treesOf items)) text
  | isFirst, [], text, h, _, _ => Or.inl ⟨rfl, (Option.some.inj h).symm⟩
  | isFirst, n :: items, text, h, ⟨hn, hitems⟩, ⟨hspell, hspells⟩ => by
    obtain ⟨t, ht, h⟩ := Option.bind_eq_some_iff.mp h
    obtain ⟨rest, hrest, h⟩ := Option.bind_eq_some_iff.mp h
    obtain rfl := Option.some.inj h
    have hitem := Spells.item (n.spells offset ht hn hspell)
    have hafter := items_after offset true items hrest hitems hspells
    exact Or.inr ((after_separator hitem offset).append fun t ht => items_join hafter ht)

theorem members_after (offset : ℤ) : ∀ (isFirst : Bool) (members : List Member) {text : Bytes},
    renderMembers offset isFirst members = some text → RawsFirstMembers isFirst members →
    SpellableMembers members →
    fieldsOf members = [] ∧ text = [] ∨ After isFirst (.members (fieldsOf members)) text
  | isFirst, [], text, h, _, _ => Or.inl ⟨rfl, (Option.some.inj h).symm⟩
  | isFirst, .field key n :: members, text, h, ⟨hn, hmembers⟩, ⟨hspell, hspells⟩ => by
    obtain ⟨name, hname, h⟩ := Option.bind_eq_some_iff.mp h
    obtain ⟨t, ht, h⟩ := Option.bind_eq_some_iff.mp h
    obtain ⟨rest, hrest, h⟩ := Option.bind_eq_some_iff.mp h
    obtain rfl := Option.some.inj h
    have hmember := spells_member hname offset (n.spells offset ht hn hspell)
    have hafter := members_after offset true members hrest hmembers hspells
    have hfront : After isFirst (.members [(key, n.tree)]) _ := after_separator hmember offset
    have happend := hfront.append fun t ht => members_join hafter ht
    refine Or.inr ?_
    simpa [fieldsOf] using happend
  | isFirst, .raw raw :: members, text, h, ⟨hfirst, hmembers⟩, hspells => by
    obtain ⟨rest, hrest, h⟩ := Option.bind_eq_some_iff.mp h
    obtain rfl := Option.some.inj h
    subst hfirst
    have hafter := members_after offset true members hrest hmembers hspells
    exact Or.inr ⟨raw.text ++ rest, rfl, members_join hafter raw.spells⟩

end

/-! ### Missing commas -/

/-- The text has at most `k` commas, and as many where `p` holds. -/
def CountsUpTo (k : ℕ) (p : Prop) (text : Bytes) : Prop := ∃ n ≤ k, Counts n text ∧ (n = k ↔ p)

theorem Counts.upTo {n : ℕ} {text : Bytes} (h : Counts n text) : CountsUpTo n True text :=
  ⟨n, Nat.le_refl n, h, by simp⟩

theorem CountsUpTo.append {k l : ℕ} {p q : Prop} {s t : Bytes} (hs : CountsUpTo k p s)
    (ht : CountsUpTo l q t) : CountsUpTo (k + l) (p ∧ q) (s ++ t) := by
  obtain ⟨n, hn, hcount, hp⟩ := hs
  obtain ⟨m, hm, hcount', hq⟩ := ht
  refine ⟨n + m, by omega, hcount.append hcount', ?_⟩
  rw [← hp, ← hq]
  omega

theorem CountsUpTo.congr {k l : ℕ} {p q : Prop} {text : Bytes} (h : CountsUpTo k p text)
    (hk : k = l) (hp : p ↔ q) : CountsUpTo l q text := by
  obtain ⟨n, hn, hcount, hnp⟩ := h
  exact ⟨n, hk ▸ hn, hcount, hk ▸ hnp.trans hp⟩

theorem counts_separator (offset : ℤ) (isFirst : Bool) :
    Counts (if isFirst then 1 else 0) (separator offset isFirst) := by
  have hws := (ws_offsetText offset).counts
  unfold separator
  cases isFirst with
  | false => exact hws
  | true => exact counts_comma.append hws

theorem counts_jsonString {str text : Bytes} (h : jsonString str = some text) : Counts 0 text := by
  obtain ⟨content, rfl, hcontent⟩ := quotes_of_jsonString h
  exact counts_quoted hcontent.unescapes.content

theorem counts_colon (offset : ℤ) : Counts 0 (colon offset) := by
  unfold colon
  split_ifs <;> exact counts_of_plain (by decide)

theorem content_rawChars : ∀ str : Bytes, Content (rawChars str)
  | [] => .nil
  | x :: str => by
    have ih := content_rawChars str
    unfold rawChars at ih ⊢
    rw [List.flatMap_cons]
    rcases hx : shortForm x with - | e
    · dsimp only
      split_ifs with h31
      · have hlt := x.toNat_lt
        rw [oneChar_digits]
        exact .escaped ((hex4_digits (c := x.toNat) (by omega)).content ih)
      · have hne : x ≠ ch '"' ∧ x ≠ ch '\\' := by
          constructor
          all_goals
            rintro rfl
            exact absurd hx (by decide)
        exact .plain hne.1 hne.2 ih
    · exact .escaped ih

theorem counts_jsonFloat (x : Double) : Counts 0 (jsonFloat x) := by
  have hsign : ∀ negative : Bool, Counts 0 (if negative = true then [ch '-'] else []) := by
    intro negative
    cases negative <;> exact counts_of_plain (by decide)
  cases x with
  | finite negative mantissa exponent =>
    exact ((number_jsonFloat (.finite negative mantissa exponent)).mpr True.intro).counts
  | inf negative => exact (hsign negative).append (counts_of_plain (by decide))
  | nan negative => exact (hsign negative).append (counts_of_plain (by decide))

/-- A scalar brings the commas of its value, JSON or not. -/
theorem Leaf.counts : ∀ (leaf : Leaf) {t : Bytes}, leaf.text = some t → Counts leaf.value.commas t
  | .null, _, h => (Leaf.spells .null h True.intro).counted
  | .bool b, _, h => (Leaf.spells (.bool b) h True.intro).counted
  | .int x, _, h => (Leaf.spells (.int x) h True.intro).counted
  | .float x, _, h => Option.some.inj h ▸ counts_jsonFloat x
  | .string str, _, h => (Leaf.spells (.string str) h True.intro).counted
  | .rawString str, _, h => Option.some.inj h ▸ counts_quoted (content_rawChars str)
  | .raw value, _, h => (Leaf.spells (.raw value) h True.intro).counted

/-- Raw members bring a comma for all members but the first one. -/
theorem RawMembers.counts (raw : RawMembers) (isFirst : Bool) :
    CountsUpTo (commasOfFields raw.fields - if isFirst then 0 else 1) (isFirst = false) raw.text := by
  obtain ⟨hpos, hcount⟩ := raw.spells.counted
  refine ⟨_, ?_, hcount, ?_⟩
  · split_ifs <;> omega
  · cases isFirst with
    | false => simp
    | true =>
      rw [if_pos rfl]
      simp only [Bool.true_eq_false, iff_false]
      omega

theorem counts_brackets_upTo {k : ℕ} {p : Prop} {inner ws : Bytes} {open_ close : UInt8}
    (hb : ∀ c ∈ [open_, close], c ≠ ch '"' ∧ c ≠ ch ',') (h : CountsUpTo k p inner) (hws : Ws ws) :
    CountsUpTo k p ([open_] ++ inner ++ ws ++ [close]) := by
  obtain ⟨n, hn, hcount, hp⟩ := h
  refine ⟨n, hn, ?_, hp⟩
  have hinner := counts_brackets hb (hcount.append hws.counts)
  simpa using hinner

mutual

theorem Node.counts (offset : ℤ) : ∀ (n : Node) {text : Bytes}, n.render offset = some text →
    CountsUpTo n.tree.commas n.RawsFirst text
  | .leaf leaf, _, h => (leaf.counts h).upTo
  | .array items, text, h => by
    obtain ⟨inner, hinner, h⟩ := Option.bind_eq_some_iff.mp h
    obtain rfl := Option.some.inj h
    exact counts_brackets_upTo (by decide) (items_counts (deeper offset) false items hinner)
      (ws_offsetText offset)
  | .object members, text, h => by
    obtain ⟨inner, hinner, h⟩ := Option.bind_eq_some_iff.mp h
    obtain rfl := Option.some.inj h
    exact counts_brackets_upTo (by decide) (members_counts (deeper offset) false members hinner)
      (ws_offsetText offset)

theorem items_counts (offset : ℤ) : ∀ (isFirst : Bool) (items : List Node) {text : Bytes},
    renderNodes offset isFirst items = some text →
    CountsUpTo (commasOfItems (treesOf items) - if isFirst then 0 else 1) (RawsFirstItems items) text
  | isFirst, [], text, h => by
    obtain rfl := Option.some.inj h
    exact (counts_of_plain (s := []) (by simp)).upTo.congr (Nat.zero_sub _).symm Iff.rfl
  | isFirst, n :: items, text, h => by
    obtain ⟨t, ht, h⟩ := Option.bind_eq_some_iff.mp h
    obtain ⟨rest, hrest, h⟩ := Option.bind_eq_some_iff.mp h
    obtain rfl := Option.some.inj h
    have hcounts := ((counts_separator offset isFirst).upTo.append (n.counts offset ht)).append
      (items_counts offset true items hrest)
    refine hcounts.congr ?_ (by rw [true_and]; rfl)
    rw [treesOf, commasOfItems]
    cases isFirst
    all_goals
      simp only [Bool.false_eq_true, if_false, if_true]
      omega

theorem members_counts (offset : ℤ) : ∀ (isFirst : Bool) (members : List Member) {text : Bytes},
    renderMembers offset isFirst members = some text →
    CountsUpTo (commasOfFields (fieldsOf members) - if isFirst then 0 else 1)
      (RawsFirstMembers isFirst members) text
  | isFirst, [], text, h => by
    obtain rfl := Option.some.inj h
    exact (counts_of_plain (s := []) (by simp)).upTo.congr (Nat.zero_sub _).symm Iff.rfl
  | isFirst, .field key n :: members, text, h => by
    obtain ⟨name, hname, h⟩ := Option.bind_eq_some_iff.mp h
    obtain ⟨t, ht, h⟩ := Option.bind_eq_some_iff.mp h
    obtain ⟨rest, hrest, h⟩ := Option.bind_eq_some_iff.mp h
    obtain rfl := Option.some.inj h
    have hfront := ((counts_separator offset isFirst).append (counts_jsonString hname)).append
      (counts_colon offset)
    have hcounts := (hfront.upTo.append (n.counts offset ht)).append
      (members_counts offset true members hrest)
    refine hcounts.congr ?_ (by rw [true_and]; rfl)
    rw [fieldsOf, commasOfFields]
    cases isFirst
    all_goals
      simp only [Bool.false_eq_true, if_false, if_true]
      omega
  | isFirst, .raw raw :: members, text, h => by
    obtain ⟨rest, hrest, h⟩ := Option.bind_eq_some_iff.mp h
    obtain rfl := Option.some.inj h
    have hpos := raw.spells.counted.1
    refine ((raw.counts isFirst).append (members_counts offset true members hrest)).congr ?_ Iff.rfl
    rw [fieldsOf, commasOfFields_append]
    cases isFirst
    all_goals
      simp only [Bool.false_eq_true, if_false, if_true]
      omega

end

theorem Counts.unique {n m : ℕ} {s : Bytes} (h : Counts n s) (h' : Counts m s) : n = m :=
  Nat.add_right_cancel ((h []).symm.trans (h' []))

/-! ### Scalars without a text -/

def Phrase.numbers : Phrase → List Bytes
  | .value v => v.numbers
  | .items vs => vs.flatMap JsonValue.numbers
  | .members fs => fs.flatMap fun field => field.2.numbers

def Phrase.strings : Phrase → List Bytes
  | .value v => v.strings
  | .items vs => vs.flatMap JsonValue.strings
  | .members fs => fs.flatMap fun field => field.1 :: field.2.strings

/-- What has a text has JSON numbers and strings of UTF-8 only. -/
theorem Spells.parts {p : Phrase} {s : Bytes} (h : Spells p s) :
    (∀ n ∈ p.numbers, Number n) ∧ ∀ s ∈ p.strings, Valid s := by
  have hquotes : ∀ {content str : Bytes}, Quotes content str → Valid str := fun hq =>
    hq.unescapes.valid [] hq.valid
  induction h with
  | null | true | false | emptyArray | emptyObject =>
    exact ⟨List.forall_mem_nil _, List.forall_mem_nil _⟩
  | number h => exact ⟨List.forall_mem_singleton.mpr h, List.forall_mem_nil _⟩
  | string h => exact ⟨List.forall_mem_nil _, List.forall_mem_singleton.mpr (hquotes h)⟩
  | @array s vs _ ih =>
    simp only [Phrase.numbers, Phrase.strings, JsonValue.numbers, JsonValue.strings,
      numbersOfItems_eq, stringsOfItems_eq]
    exact ih
  | @object s fs _ ih =>
    simp only [Phrase.numbers, Phrase.strings, JsonValue.numbers, JsonValue.strings,
      numbersOfFields_eq, stringsOfFields_eq]
    exact ih
  | item _ ih =>
    simp only [Phrase.numbers, Phrase.strings, List.flatMap_singleton]
    exact ih
  | items _ _ ihs iht | members _ _ ihs iht =>
    simp only [Phrase.numbers, Phrase.strings, List.flatMap_append, List.forall_mem_append]
    exact ⟨⟨ihs.1, iht.1⟩, ihs.2, iht.2⟩
  | member hkey _ _ ih =>
    simp only [Phrase.numbers, Phrase.strings, List.flatMap_singleton, List.forall_mem_cons]
    exact ⟨ih.1, hquotes hkey, ih.2⟩
  | ws _ _ _ ih => exact ih

mutual

theorem Node.spellable : ∀ n : Node, (∀ t ∈ n.tree.numbers, Number t) →
    (∀ s ∈ n.tree.strings, Valid s) → n.Spellable
  | .leaf leaf, hnumbers, hstrings => leaf.spellable hnumbers hstrings
  | .array items, hnumbers, hstrings => items_spellable items hnumbers hstrings
  | .object members, hnumbers, hstrings => members_spellable members hnumbers hstrings

theorem items_spellable : ∀ items : List Node, (∀ t ∈ numbersOfItems (treesOf items), Number t) →
    (∀ s ∈ stringsOfItems (treesOf items), Valid s) → SpellableItems items
  | [], _, _ => True.intro
  | n :: items, hnumbers, hstrings => by
    rw [treesOf, numbersOfItems, List.forall_mem_append] at hnumbers
    rw [treesOf, stringsOfItems, List.forall_mem_append] at hstrings
    exact ⟨n.spellable hnumbers.1 hstrings.1, items_spellable items hnumbers.2 hstrings.2⟩

theorem members_spellable : ∀ members : List Member,
    (∀ t ∈ numbersOfFields (fieldsOf members), Number t) →
    (∀ s ∈ stringsOfFields (fieldsOf members), Valid s) → SpellableMembers members
  | [], _, _ => True.intro
  | .field key n :: members, hnumbers, hstrings => by
    rw [fieldsOf, numbersOfFields, List.forall_mem_append] at hnumbers
    rw [fieldsOf, stringsOfFields, List.cons_append, List.forall_mem_cons,
      List.forall_mem_append] at hstrings
    exact ⟨n.spellable hnumbers.1 hstrings.2.1,
      members_spellable members hnumbers.2 hstrings.2.2⟩
  | .raw raw :: members, hnumbers, hstrings => by
    rw [fieldsOf, numbersOfFields_eq, List.flatMap_append, List.forall_mem_append,
      ← numbersOfFields_eq (fieldsOf members)] at hnumbers
    rw [fieldsOf, stringsOfFields_eq, List.flatMap_append, List.forall_mem_append,
      ← stringsOfFields_eq (fieldsOf members)] at hstrings
    exact members_spellable members hnumbers.2 hstrings.2

end

theorem Node.spells_iff {offset : ℤ} {n : Node} {text : Bytes} (h : n.render offset = some text) :
    Spells (.value n.tree) text ↔ n.RawsFirst ∧ n.Spellable := by
  refine ⟨fun hspells => ?_, fun hgood => n.spells offset h hgood.1 hgood.2⟩
  obtain ⟨k, -, hcount, hraw⟩ := n.counts offset h
  obtain ⟨hnumbers, hstrings⟩ := hspells.parts
  exact ⟨hraw.mp (hcount.unique hspells.counted), n.spellable hnumbers hstrings⟩

/-! ### What can be printed -/

mutual

theorem Node.isSome_render (offset : ℤ) : ∀ n : Node, (n.render offset).isSome ↔ n.Printable
  | .leaf leaf => Iff.rfl
  | .array items => by
    rw [Node.Printable, ← isSome_renderNodes (deeper offset) false items]
    unfold Node.render
    rcases renderNodes (deeper offset) false items with - | text <;> exact Iff.rfl
  | .object members => by
    rw [Node.Printable, ← isSome_renderMembers (deeper offset) false members]
    unfold Node.render
    rcases renderMembers (deeper offset) false members with - | text <;> exact Iff.rfl

theorem isSome_renderNodes (offset : ℤ) : ∀ (isFirst : Bool) (items : List Node),
    (renderNodes offset isFirst items).isSome ↔ PrintableItems items
  | _, [] => by simp [renderNodes, PrintableItems]
  | isFirst, n :: items => by
    rw [PrintableItems, ← n.isSome_render offset, ← isSome_renderNodes offset true items]
    rw [renderNodes]
    rcases n.render offset with - | text
    · simp
    · rcases renderNodes offset true items with - | rest <;> simp

theorem isSome_renderMembers (offset : ℤ) : ∀ (isFirst : Bool) (members : List Member),
    (renderMembers offset isFirst members).isSome ↔ PrintableMembers members
  | _, [] => by simp [renderMembers, PrintableMembers]
  | isFirst, .field key n :: members => by
    rw [PrintableMembers, ← jsonString_isSome, ← n.isSome_render offset,
      ← isSome_renderMembers offset true members]
    rw [renderMembers]
    rcases jsonString key with - | name
    · simp
    · rcases n.render offset with - | text
      · simp
      · rcases renderMembers offset true members with - | rest <;> simp
  | isFirst, .raw raw :: members => by
    rw [PrintableMembers, ← isSome_renderMembers offset true members]
    rw [renderMembers]
    rcases renderMembers offset true members with - | rest <;> simp

end

/-- Operations of which every string is UTF-8 make a text, and the text spells what was written if
and only if raw members stand only in front of all others, every double is finite and every raw
string is UTF-8. -/
theorem Document.write_spells (offset : ℤ) (d : Document) :
    ((d.write offset).isSome ↔ d.node.Printable) ∧ ∀ text, d.write offset = some text →
      (Spells (.value d.node.tree) text ↔ d.node.RawsFirst ∧ d.node.Spellable) := by
  rw [Document.write_eq]
  exact ⟨d.node.isSome_render offset, fun text h => Node.spells_iff h⟩

/-- `object("a", NAN)` is written as `{"a":nan}`. -/
example : (Document.object [.field (chs ['a']) (.leaf (.float (.nan false)))]).write (-1) =
    some (chs ['{', '"', 'a', '"', ':', 'n', 'a', 'n', '}']) := by decide

/-- `"b":2`. -/
def bTwo : RawMembers where
  text := chs ['"', 'b', '"', ':', '2']
  fields := [(chs ['b'], .number (chs ['2']))]
  spells := by
    have hkey : Quotes (chs ['b']) (chs ['b']) :=
      quotes_of_ascii (.plain (by decide) (by decide) .nil) (by decide)
    have htwo : Number (chs ['2']) := by
      have hdigits : Digits (chs ['2']) := ⟨by decide, by decide⟩
      exact Number.mk (Or.inl rfl) (Or.inr ⟨hdigits, by decide⟩) (Or.inl rfl) (Or.inl rfl)
    exact Spells.member hkey Ws.nil (.number htwo)

/-- `object << JsonRaw("\"b\":2")`, then `object("a", 0.5)`. -/
def rawFirst : Document :=
  .object [.raw bTwo, .field (chs ['a']) (.leaf (.float (.finite false 1 (-1))))]

/-- `object("a", 1)`, then `object << JsonRaw("\"b\":2")`. -/
def rawSecond : Document := .object [.field (chs ['a']) (.leaf (.int 1)), .raw bTwo]

/-- `{"b":2,"a":0.500000}`. -/
theorem write_spells_rawFirst : Spells (.value rawFirst.node.tree)
    (chs ['{', '"', 'b', '"', ':', '2', ',', '"', 'a', '"', ':', '0', '.', '5', '0', '0', '0', '0',
      '0', '}']) :=
  ((Document.write_spells (-1) rawFirst).2 _ (by decide)).mpr
    ⟨⟨rfl, trivial, trivial⟩, trivial, trivial⟩

/-- The text is `{"a":1"b":2}`, which does not spell the two members. -/
theorem rawSecond_misses_comma :
    rawSecond.write (-1) =
      some (chs ['{', '"', 'a', '"', ':', '1', '"', 'b', '"', ':', '2', '}']) ∧
    ¬ Spells (.value rawSecond.node.tree)
      (chs ['{', '"', 'a', '"', ':', '1', '"', 'b', '"', ':', '2', '}']) := by
  have hrender : rawSecond.node.render (-1) =
      some (chs ['{', '"', 'a', '"', ':', '1', '"', 'b', '"', ':', '2', '}']) := rfl
  refine ⟨rfl, fun hspells => ?_⟩
  obtain ⟨⟨-, hraw, -⟩, -⟩ := (Node.spells_iff hrender).mp hspells
  cases hraw

end TdUtils.Json
