import TdUtils.Json.JsonValue
import TdUtils.Json.Unescape
import TdUtils.Text.Misc

/-!
# Json.Wellformed — the grammar of JSON texts

`Spells p text` derives a value, the items of an array or the members of an object from a text, as
the standard defines them: no comma may be missing, and between the quotes of a string stands
UTF-8 without control characters.  What a text spells determines the number of its commas.
-/

namespace TdUtils.Json

open Lib Bytes Text Utf8

/-! ### The grammar -/

def Ws (s : Bytes) : Prop := ∀ c ∈ s, Parser.isWhitespace c = true

def Digits (s : Bytes) : Prop := s ≠ [] ∧ ∀ c ∈ s, isDigit c = true

/-- A sign, digits without leading zeros, a fraction and an exponent. -/
inductive Number : Bytes → Prop
  | mk {sign int frac exp : Bytes} (hsign : sign = [] ∨ sign = [ch '-'])
    (hint : int = [ch '0'] ∨ Digits int ∧ int.head? ≠ some (ch '0'))
    (hfrac : frac = [] ∨ ∃ ds, Digits ds ∧ frac = ch '.' :: ds)
    (hexp : exp = [] ∨ ∃ e s ds, e ∈ chs ['e', 'E'] ∧ s ∈ [[], [ch '+'], [ch '-']] ∧ Digits ds ∧
      exp = e :: (s ++ ds)) :
    Number (sign ++ int ++ frac ++ exp)

/-- What may stand between the quotes of the string. -/
structure Quotes (content str : Bytes) : Prop where
  unescapes : Unescapes content str
  valid : Valid content
  printable : ∀ b ∈ content, 0x20 ≤ b

def quoted (content : Bytes) : Bytes := ch '"' :: content ++ [ch '"']

inductive Phrase where
  | value (v : JsonValue Bytes)
  | items (vs : List (JsonValue Bytes))
  | members (fs : List (Bytes × JsonValue Bytes))

inductive Spells : Phrase → Bytes → Prop
  | null : Spells (.value .null) (chs ['n', 'u', 'l', 'l'])
  | true : Spells (.value (.boolean true)) (chs ['t', 'r', 'u', 'e'])
  | false : Spells (.value (.boolean false)) (chs ['f', 'a', 'l', 's', 'e'])
  | number {s : Bytes} (h : Number s) : Spells (.value (.number s)) s
  | string {content str : Bytes} (h : Quotes content str) :
    Spells (.value (.string str)) (quoted content)
  | emptyArray {ws : Bytes} (h : Ws ws) :
    Spells (.value (.array [])) (ch '[' :: ws ++ [ch ']'])
  | array {s : Bytes} {vs : List (JsonValue Bytes)} (h : Spells (.items vs) s) :
    Spells (.value (.array vs)) (ch '[' :: s ++ [ch ']'])
  | emptyObject {ws : Bytes} (h : Ws ws) :
    Spells (.value (.object [])) (ch '{' :: ws ++ [ch '}'])
  | object {s : Bytes} {fs : List (Bytes × JsonValue Bytes)} (h : Spells (.members fs) s) :
    Spells (.value (.object fs)) (ch '{' :: s ++ [ch '}'])
  | item {s : Bytes} {v : JsonValue Bytes} (h : Spells (.value v) s) : Spells (.items [v]) s
  | items {s t : Bytes} {vs ws : List (JsonValue Bytes)} (hs : Spells (.items vs) s)
    (ht : Spells (.items ws) t) : Spells (.items (vs ++ ws)) (s ++ ch ',' :: t)
  | member {content key ws s : Bytes} {v : JsonValue Bytes} (hkey : Quotes content key) (hws : Ws ws)
    (h : Spells (.value v) s) : Spells (.members [(key, v)]) (quoted content ++ ws ++ ch ':' :: s)
  | members {s t : Bytes} {fs gs : List (Bytes × JsonValue Bytes)} (hs : Spells (.members fs) s)
    (ht : Spells (.members gs) t) : Spells (.members (fs ++ gs)) (s ++ ch ',' :: t)
  | ws {p : Phrase} {s before after : Bytes} (hbefore : Ws before) (h : Spells p s)
    (hafter : Ws after) : Spells p (before ++ s ++ after)

theorem Ws.nil : Ws [] := fun _ hc => absurd hc List.not_mem_nil

theorem Spells.after {p : Phrase} {s ws : Bytes} (h : Spells p s) (hws : Ws ws) :
    Spells p (s ++ ws) :=
  .ws .nil h hws

theorem Spells.before {p : Phrase} {s ws : Bytes} (hws : Ws ws) (h : Spells p s) :
    Spells p (ws ++ s) := by
  have hboth := Spells.ws hws h Ws.nil
  rwa [List.append_nil] at hboth

/-! ### The commas of a text -/

inductive Mode where
  | outside
  | inside
  | escaped

/-- The commas outside of strings. -/
def commas : Mode → Bytes → ℕ
  | _, [] => 0
  | .outside, c :: s =>
    if c = ch '"' then commas .inside s
    else if c = ch ',' then commas .outside s + 1
    else commas .outside s
  | .inside, c :: s =>
    if c = ch '"' then commas .outside s
    else if c = ch '\\' then commas .escaped s
    else commas .inside s
  | .escaped, _ :: s => commas .inside s

/-- The text has `n` commas and leaves no string open. -/
def Counts (n : ℕ) (s : Bytes) : Prop := ∀ t, commas .outside (s ++ t) = n + commas .outside t

theorem Counts.append {n m : ℕ} {s t : Bytes} (hs : Counts n s) (ht : Counts m t) :
    Counts (n + m) (s ++ t) := by
  intro u
  rw [List.append_assoc, hs, ht, Nat.add_assoc]

theorem counts_of_plain {s : Bytes} (h : ∀ c ∈ s, c ≠ ch '"' ∧ c ≠ ch ',') : Counts 0 s := by
  intro t
  rw [Nat.zero_add]
  induction s with
  | nil => rfl
  | cons c s ih =>
    obtain ⟨⟨hquote, hcomma⟩, hs⟩ := List.forall_mem_cons.mp h
    rw [List.cons_append, commas, if_neg hquote, if_neg hcomma]
    exact ih hs

theorem counts_comma : Counts 1 [ch ','] := by
  intro t
  rw [List.singleton_append, commas, if_neg (by decide), if_pos rfl, Nat.add_comm]

theorem commas_content {content : Bytes} (h : Content content) (t : Bytes) :
    commas .inside (content ++ ch '"' :: t) = commas .outside t := by
  induction h with
  | nil => exact if_pos rfl
  | plain hquote hslash _ ih => rw [List.cons_append, commas, if_neg hquote, if_neg hslash, ih]
  | escaped _ ih =>
    rw [List.cons_append, commas, if_neg (by decide), if_pos rfl]
    exact ih

theorem counts_quoted {content : Bytes} (h : Content content) : Counts 0 (quoted content) := by
  intro t
  have hcontent := commas_content h t
  simpa [quoted, commas] using hcontent

theorem Ws.counts {ws : Bytes} (h : Ws ws) : Counts 0 ws := by
  have hall : ∀ c ∈ chs [' ', '\t', '\r', '\n'], c ≠ ch '"' ∧ c ≠ ch ',' := by decide
  exact counts_of_plain fun c hc => hall c (of_decide_eq_true (h c hc))

theorem isDigit_plain {c : UInt8} (h : isDigit c = true) : c ≠ ch '"' ∧ c ≠ ch ',' := by
  constructor
  all_goals
    rintro rfl
    revert h
    decide

theorem Digits.counts {ds : Bytes} (h : Digits ds) : Counts 0 ds :=
  counts_of_plain fun c hc => isDigit_plain (h.2 c hc)

theorem Number.counts {s : Bytes} (h : Number s) : Counts 0 s := by
  obtain ⟨hsign, hint, hfrac, hexp⟩ := h
  refine ((Counts.append (n := 0) (m := 0) ?_ ?_).append (m := 0) ?_).append (m := 0) ?_
  · rcases hsign with rfl | rfl <;> exact counts_of_plain (by decide)
  · rcases hint with rfl | ⟨hds, -⟩
    · exact counts_of_plain (by decide)
    · exact hds.counts
  · rcases hfrac with rfl | ⟨ds, hds, rfl⟩
    · exact counts_of_plain (by decide)
    · exact Counts.append (s := [ch '.']) (counts_of_plain (by decide)) hds.counts
  · rcases hexp with rfl | ⟨e, s, ds, he, hs, hds, rfl⟩
    · exact counts_of_plain (by decide)
    · have hletter : ∀ e ∈ chs ['e', 'E'], ∀ c ∈ [e], c ≠ ch '"' ∧ c ≠ ch ',' := by decide
      have hmark : ∀ s ∈ [[], [ch '+'], [ch '-']], ∀ c ∈ s, c ≠ ch '"' ∧ c ≠ ch ',' := by decide
      exact (counts_of_plain (hletter e he)).append ((counts_of_plain (hmark s hs)).append hds.counts)

mutual

/-- How many commas a text of the value has. -/
def JsonValue.commas {α : Type} : JsonValue α → ℕ
  | .array items => commasOfItems items - 1
  | .object fields => commasOfFields fields - 1
  | _ => 0

/-- The same of items that all have a comma of their own. -/
def commasOfItems {α : Type} : List (JsonValue α) → ℕ
  | [] => 0
  | v :: items => v.commas + 1 + commasOfItems items

def commasOfFields {α : Type} : List (α × JsonValue α) → ℕ
  | [] => 0
  | (_, v) :: fields => v.commas + 1 + commasOfFields fields

end

theorem commasOfItems_append {α : Type} : ∀ vs ws : List (JsonValue α),
    commasOfItems (vs ++ ws) = commasOfItems vs + commasOfItems ws
  | [], ws => (Nat.zero_add _).symm
  | v :: vs, ws => by
    have ih := commasOfItems_append vs ws
    simp only [List.cons_append, commasOfItems, ih]
    omega

theorem commasOfFields_append {α : Type} : ∀ fs gs : List (α × JsonValue α),
    commasOfFields (fs ++ gs) = commasOfFields fs + commasOfFields gs
  | [], gs => (Nat.zero_add _).symm
  | (_, v) :: fs, gs => by
    have ih := commasOfFields_append fs gs
    simp only [List.cons_append, commasOfFields, ih]
    omega

/-- The commas, and whether there is any element. -/
def Phrase.Counted : Phrase → Bytes → Prop
  | .value v, s => Counts v.commas s
  | .items vs, s => 0 < commasOfItems vs ∧ Counts (commasOfItems vs - 1) s
  | .members fs, s => 0 < commasOfFields fs ∧ Counts (commasOfFields fs - 1) s

theorem Phrase.Counted.ws {p : Phrase} {s before after : Bytes} (hbefore : Ws before)
    (h : p.Counted s) (hafter : Ws after) : p.Counted (before ++ s ++ after) := by
  have hall : ∀ n, Counts n s → Counts n (before ++ s ++ after) := by
    intro n hn
    have happend := (hbefore.counts.append hn).append hafter.counts
    rwa [Nat.zero_add, Nat.add_zero] at happend
  cases p with
  | value v => exact hall _ h
  | items vs => exact ⟨h.1, hall _ h.2⟩
  | members fs => exact ⟨h.1, hall _ h.2⟩

theorem counts_brackets {n : ℕ} {s : Bytes} {open_ close : UInt8}
    (hb : ∀ c ∈ [open_, close], c ≠ ch '"' ∧ c ≠ ch ',') (h : Counts n s) :
    Counts n (open_ :: s ++ [close]) := by
  obtain ⟨hopen, hclose⟩ := List.forall_mem_cons.mp hb
  have happend := (Counts.append (s := [open_])
    (counts_of_plain (List.forall_mem_singleton.mpr hopen)) h).append (counts_of_plain hclose)
  rwa [Nat.zero_add, Nat.add_zero] at happend

theorem counts_separated {n m : ℕ} {s t : Bytes} (hs : Counts n s) (ht : Counts m t) :
    Counts (n + (1 + m)) (s ++ ch ',' :: t) :=
  hs.append (counts_comma.append ht)

theorem Spells.counted {p : Phrase} {s : Bytes} (h : Spells p s) : p.Counted s := by
  induction h with
  | null | true | false => exact counts_of_plain (by decide)
  | number h => exact h.counts
  | string h => exact counts_quoted h.unescapes.content
  | emptyArray h => exact counts_brackets (by decide) h.counts
  | emptyObject h => exact counts_brackets (by decide) h.counts
  | array _ ih => exact counts_brackets (by decide) ih.2
  | object _ ih => exact counts_brackets (by decide) ih.2
  | item _ ih =>
    refine ⟨Nat.succ_pos _, ?_⟩
    simpa [commasOfItems, Phrase.Counted] using ih
  | @items s t vs ws _ _ ihs iht =>
    have hcount := counts_separated ihs.2 iht.2
    have heq : commasOfItems vs - 1 + (1 + (commasOfItems ws - 1)) =
        commasOfItems (vs ++ ws) - 1 := by
      have hpos := And.intro ihs.1 iht.1
      rw [commasOfItems_append]
      omega
    refine ⟨?_, heq ▸ hcount⟩
    rw [commasOfItems_append]
    exact Nat.add_pos_left ihs.1 _
  | @member content key ws s v hkey hws _ ih =>
    have hcolon := Counts.append (s := [ch ':']) (counts_of_plain (by decide)) ih
    have hcount := ((counts_quoted hkey.unescapes.content).append hws.counts).append hcolon
    refine ⟨Nat.succ_pos _, ?_⟩
    simpa [commasOfFields, Phrase.Counted] using hcount
  | @members s t fs gs _ _ ihs iht =>
    have hcount := counts_separated ihs.2 iht.2
    have heq : commasOfFields fs - 1 + (1 + (commasOfFields gs - 1)) =
        commasOfFields (fs ++ gs) - 1 := by
      have hpos := And.intro ihs.1 iht.1
      rw [commasOfFields_append]
      omega
    refine ⟨?_, heq ▸ hcount⟩
    rw [commasOfFields_append]
    exact Nat.add_pos_left ihs.1 _
  | ws hbefore _ hafter ih => exact ih.ws hbefore hafter

end TdUtils.Json
