import TdUtils.Json.JsonDecode

/-!
# Json.Grammar — what the decoder accepts, on lists of bytes

The same grammar without a buffer: `items` reads the content of a string literal, `value` takes a
value off a list of bytes and leaves the rest.  The decoder and its skipping twin both follow it.
-/

namespace TdUtils.Json

open Lib Bytes

abbrev Bytes := List UInt8

/-! ### The content of a string literal -/

/-- What one element of a literal stands for: a byte, or a code behind `\u`. -/
inductive Item where
  | byte (b : UInt8)
  | code (num : ℕ)
  deriving DecidableEq, Repr

def Item.bytes : Item → Bytes
  | .byte b => [b]
  | .code num => codeBytes num

/-- The number with the given hexadecimal digits. -/
def hexNumber : ℕ → Bytes → Option ℕ
  | num, [] => some num
  | num, c :: s => if hexToInt c = 16 then none else hexNumber (num * 16 + hexToInt c) s

/-- The code behind `\u`, and the rest. -/
def code (s : Bytes) : Option (ℕ × Bytes) :=
  if s.length < 4 then none
  else do
    let num ← hexNumber 0 (s.take 4)
    let s := s.drop 4
    if isSurrogate num ∧ 6 ≤ s.length ∧ s.take 2 = chs ['\\', 'u'] then
      let newNum ← hexNumber 0 ((s.drop 2).take 4)
      if isSurrogate newNum then
        return (((num &&& 0x3FF) <<< 10 ||| (newNum &&& 0x3FF)) + 0x10000, s.drop 6)
      else return (num, s)
    else return (num, s)

/-- What stands behind a backslash. -/
def escape : Bytes → Option (Item × Bytes)
  | [] => none
  | c :: s =>
    match shortEscape c with
    | some b => some (.byte b, s)
    | none => if c = ch 'u' then (code s).map fun r => (.code r.1, r.2) else some (.byte c, s)

/-- The first element of a literal, and the rest. -/
def item : Bytes → Option (Item × Bytes)
  | [] => none
  | c :: s => if c = ch '\\' then escape s else some (.byte c, s)

theorem length_le_of_code {s rest : Bytes} {num : ℕ} (h : code s = some (num, rest)) :
    ∃ k, 4 ≤ k ∧ k ≤ s.length ∧ rest = s.drop k := by
  unfold code at h
  split_ifs at h with hs
  simp only [Option.bind_eq_bind, Option.bind_eq_some_iff] at h
  obtain ⟨n, -, h⟩ := h
  split_ifs at h with h2
  · obtain ⟨m, -, h⟩ := Option.bind_eq_some_iff.mp h
    have h6 : 6 ≤ (s.drop 4).length := h2.2.1
    rw [List.length_drop] at h6
    split_ifs at h with h3
    · simp only [Option.pure_def, Option.some.injEq, Prod.mk.injEq] at h
      exact ⟨10, by omega, by omega, by rw [← h.2, List.drop_drop]⟩
    · simp only [Option.pure_def, Option.some.injEq, Prod.mk.injEq] at h
      exact ⟨4, by omega, by omega, h.2.symm⟩
  · simp only [Option.pure_def, Option.some.injEq, Prod.mk.injEq] at h
    exact ⟨4, by omega, by omega, h.2.symm⟩

theorem length_lt_of_escape {s rest : Bytes} {i : Item} (h : escape s = some (i, rest)) :
    rest.length < s.length := by
  rcases s with - | ⟨c, s⟩
  · simp [escape] at h
  · unfold escape at h
    rcases hc : shortEscape c with - | b
    · simp only [hc] at h
      split_ifs at h with hu
      · obtain ⟨⟨num, rest'⟩, hr, h⟩ := Option.map_eq_some_iff.mp h
        obtain ⟨k, -, -, rfl⟩ := length_le_of_code hr
        obtain ⟨-, rfl⟩ := Prod.mk.inj h
        rw [List.length_drop, List.length_cons]
        omega
      · obtain ⟨-, rfl⟩ := Prod.mk.inj (Option.some.inj h)
        exact Nat.lt_succ_self _
    · simp only [hc] at h
      obtain ⟨-, rfl⟩ := Prod.mk.inj (Option.some.inj h)
      exact Nat.lt_succ_self _

theorem length_lt_of_item {s rest : Bytes} {i : Item} (h : item s = some (i, rest)) :
    rest.length < s.length := by
  rcases s with - | ⟨c, s⟩
  · simp [item] at h
  · unfold item at h
    dsimp only at h
    split_ifs at h with hc
    · exact Nat.lt_trans (length_lt_of_escape h) (Nat.lt_succ_self _)
    · obtain ⟨-, rfl⟩ := Prod.mk.inj (Option.some.inj h)
      exact Nat.lt_succ_self _

/-- The elements of a literal. -/
def items (s : Bytes) : Option (List Item) :=
  if s = [] then some []
  else match _h : item s with
    | none => none
    | some (i, rest) => (items rest).map (i :: ·)
termination_by s.length
decreasing_by exact length_lt_of_item (by assumption)

theorem items_nil : items [] = some [] := by
  rw [items, if_pos rfl]

theorem items_of_item {s rest : Bytes} {i : Item} (h : item s = some (i, rest)) :
    items s = (items rest).map (i :: ·) := by
  have hs : s ≠ [] := by
    rintro rfl
    simp [item] at h
  rw [items, if_neg hs]
  split
  · next h' => simp [h] at h'
  · next h' =>
    obtain ⟨rfl, rfl⟩ := Prod.mk.inj (Option.some.inj (h.symm.trans h'))
    rfl

theorem items_of_none {s : Bytes} (hs : s ≠ []) (h : item s = none) : items s = none := by
  rw [items, if_neg hs]
  split
  · rfl
  · next h' => simp [h] at h'

/-- The bytes that the elements stand for. -/
def bytesOf (is : List Item) : Bytes := is.flatMap Item.bytes

/-- The bytes that a literal stands for. -/
def unescape (s : Bytes) : Option Bytes := (items s).map bytesOf

/-- A string literal with its quotes: what it stands for, and the rest. -/
def literal : Bytes → Option (Bytes × Bytes)
  | [] => none
  | c :: s =>
    if c = ch '"' then do
      let n ← closingQuote s
      let str ← unescape (s.take n)
      return (str, s.drop (n + 1))
    else none

/-! ### Values -/

def trySkip (c : UInt8) (s : Bytes) : Option Bytes :=
  if s.head? = some c then some s.tail else none

def skipWs (s : Bytes) : Bytes := s.dropWhile Parser.isWhitespace

/-- `skip` of the byte that was looked at; a parser with an error does not move. -/
def skipOne (ok : Bool) (s : Bytes) : Bytes := if ok then s.tail else s

def word {α : Type} (pre : Bytes) (x : α) (s : Bytes) : Option (α × Bytes) :=
  if pre.length > s.length ∨ pre ≠ s.take pre.length then none else some (x, s.drop pre.length)

/-- The elements of an array or an object up to the closing bracket. -/
def members {α : Type} (close : UInt8) (element : Bytes → Option (α × Bytes)) :
    ℕ → Bytes → Option (List α × Bytes)
  | 0, _ => none
  | fuel + 1, s =>
    if s = [] then none
    else do
      let (x, s) ← element s
      match trySkip close (skipWs s) with
      | some s => return ([x], s)
      | none =>
        match trySkip (ch ',') (skipWs s) with
        | some s =>
          let (xs, s) ← members close element fuel (skipWs s)
          return (x :: xs, s)
        | none => none

def pair {α β : Type} (key : Bytes → Option (α × Bytes)) (value : Bytes → Option (β × Bytes))
    (s : Bytes) : Option ((α × β) × Bytes) := do
  let (k, s) ← key s
  let s ← trySkip (ch ':') (skipWs s)
  let (v, s) ← value s
  return ((k, v), s)

/-- Brackets around elements. -/
def bracketed {α : Type} (ok : Bool) (close : UInt8) (element : Bytes → Option (α × Bytes))
    (s : Bytes) : Option (List α × Bytes) :=
  let s := skipWs (skipOne ok s)
  match trySkip close s with
  | some s => some ([], s)
  | none => members close element (s.length + 1) s

/-- A value with at most so many levels; `ok` says that the parser has no error. -/
def value (ok : Bool) : ℕ → Bytes → Option (JsonValue Bytes × Bytes)
  | 0, _ => none
  | levels + 1, s =>
    let s := skipWs s
    let c := s.headD 0
    if c = ch 'f' then word (chs ['f', 'a', 'l', 's', 'e']) (.boolean false) s
    else if c = ch 't' then word (chs ['t', 'r', 'u', 'e']) (.boolean true) s
    else if c = ch 'n' then word (chs ['n', 'u', 'l', 'l']) .null s
    else if c = ch '"' then (literal s).map fun r => (.string r.1, r.2)
    else if c = ch '[' then
      (bracketed ok (ch ']') (value ok levels) s).map fun r => (.array r.1, r.2)
    else if c = ch '{' then
      (bracketed ok (ch '}') (pair literal (value ok levels)) s).map fun r => (.object r.1, r.2)
    else if isNumberStart c then
      some (.number (s.takeWhile isNumberChar), s.dropWhile isNumberChar)
    else none

/-! ### Every step takes at least one byte -/

/-- What is left is shorter. -/
def Shrinks {α : Type} (f : Bytes → Option (α × Bytes)) : Prop :=
  ∀ ⦃s x rest⦄, f s = some (x, rest) → rest.length < s.length

section Shrinks

variable {α β : Type} {element : Bytes → Option (α × Bytes)}

theorem eq_cons_of_trySkip {c : UInt8} {s t : Bytes} (h : trySkip c s = some t) : s = c :: t := by
  unfold trySkip at h
  split_ifs at h with hc
  obtain ⟨s', rfl⟩ := List.head?_eq_some_iff.mp hc
  rw [← Option.some.inj h, List.tail_cons]

theorem length_skipWs_le (s : Bytes) : (skipWs s).length ≤ s.length :=
  (List.dropWhile_suffix _).length_le

theorem length_lt_of_trySkip {c : UInt8} {s t : Bytes} (h : trySkip c (skipWs s) = some t) :
    t.length < s.length := by
  have hl := length_skipWs_le s
  rw [eq_cons_of_trySkip h, List.length_cons] at hl
  omega

theorem literal_shrinks : Shrinks literal := by
  rintro (- | ⟨c, s⟩) x rest h
  · simp [literal] at h
  · unfold literal at h
    dsimp only at h
    split_ifs at h with hc
    simp only [Option.bind_eq_bind, Option.bind_eq_some_iff, Option.pure_def, Option.some.injEq,
      Prod.mk.injEq] at h
    obtain ⟨n, -, str, -, -, rfl⟩ := h
    rw [List.length_drop, List.length_cons]
    omega

theorem word_shrinks {pre : Bytes} (hpre : pre ≠ []) (x : α) : Shrinks (word pre x) := by
  intro s y rest h
  unfold word at h
  split_ifs at h with hs
  obtain ⟨-, rfl⟩ := Prod.mk.inj (Option.some.inj h)
  have := List.length_pos_of_ne_nil hpre
  rw [not_or] at hs
  rw [List.length_drop]
  omega

theorem pair_shrinks {key : Bytes → Option (β × Bytes)} (hk : Shrinks key)
    (hv : Shrinks element) : Shrinks (pair key element) := by
  intro s x rest h
  unfold pair at h
  simp only [Option.bind_eq_bind, Option.bind_eq_some_iff, Prod.exists, Option.pure_def,
    Option.some.injEq, Prod.mk.injEq] at h
  obtain ⟨k, s₁, h₁, s₂, h₂, v, s₃, h₃, -, rfl⟩ := h
  have := hk h₁
  have := length_lt_of_trySkip h₂
  have := hv h₃
  omega

theorem members_shrinks (close : UInt8) (he : Shrinks element) :
    ∀ fuel, Shrinks (members close element fuel)
  | 0, s, xs, rest, h => by simp [members] at h
  | fuel + 1, s, xs, rest, h => by
    unfold members at h
    split_ifs at h with hs
    simp only [Option.bind_eq_bind, Option.bind_eq_some_iff, Prod.exists] at h
    obtain ⟨x, s₁, h₁, h⟩ := h
    have hl := he h₁
    rcases h₂ : trySkip close (skipWs s₁) with - | s₂
    · simp only [h₂] at h
      rcases h₃ : trySkip (ch ',') (skipWs s₁) with - | s₃
      · simp [h₃] at h
      · simp only [h₃, Option.bind_eq_some_iff, Prod.exists, Option.pure_def, Option.some.injEq,
          Prod.mk.injEq] at h
        obtain ⟨xs', s₄, h₄, -, rfl⟩ := h
        have := length_lt_of_trySkip h₃
        have := length_skipWs_le s₃
        have := members_shrinks close he fuel h₄
        omega
    · simp only [h₂, Option.pure_def, Option.some.injEq, Prod.mk.injEq] at h
      have := length_lt_of_trySkip h₂
      rw [← h.2]
      omega

theorem bracketed_shrinks (ok : Bool) (close : UInt8) (he : Shrinks element) :
    Shrinks (bracketed ok close element) := by
  intro s xs rest h
  have hone : (skipOne ok s).length ≤ s.length := by
    unfold skipOne
    split_ifs
    · rw [List.length_tail]
      omega
    · exact Nat.le_refl _
  have hws := length_skipWs_le (skipOne ok s)
  unfold bracketed at h
  dsimp only at h
  rcases h₁ : trySkip close (skipWs (skipOne ok s)) with - | t
  · simp only [h₁] at h
    have := members_shrinks close he _ h
    omega
  · simp only [h₁, Option.some.injEq, Prod.mk.injEq] at h
    have := length_lt_of_trySkip h₁
    rw [← h.2]
    omega

theorem isNumberChar_of_start : ∀ c, isNumberStart c = true → isNumberChar c = true := by
  intro c h
  have hall : ∀ c ∈ chs ['-', '+', '.', '0', '1', '2', '3', '4', '5', '6', '7', '8', '9'],
      isNumberChar c = true := by decide
  exact hall c (by simpa [isNumberStart] using h)

/-- The words a value may be. -/
def keywords : List (Bytes × JsonValue Bytes) :=
  [(chs ['f', 'a', 'l', 's', 'e'], .boolean false), (chs ['t', 'r', 'u', 'e'], .boolean true),
    (chs ['n', 'u', 'l', 'l'], .null)]

/-- What stands at the front of `s`, behind the white space, is the value, and `rest` is left. -/
inductive ValueAt (ok : Bool) (levels : ℕ) (s : Bytes) : JsonValue Bytes → Bytes → Prop
  | word {pre v rest} (hkey : (pre, v) ∈ keywords) (h : Json.word pre v s = some (v, rest)) :
    ValueAt ok levels s v rest
  | string {str rest} (h : literal s = some (str, rest)) : ValueAt ok levels s (.string str) rest
  | array {items rest} (hc : s.headD 0 = ch '[')
    (h : bracketed ok (ch ']') (value ok levels) s = some (items, rest)) :
    ValueAt ok levels s (.array items) rest
  | object {fields rest} (hc : s.headD 0 = ch '{')
    (h : bracketed ok (ch '}') (pair literal (value ok levels)) s = some (fields, rest)) :
    ValueAt ok levels s (.object fields) rest
  | number (hc : isNumberStart (s.headD 0) = true) :
    ValueAt ok levels s (.number (s.takeWhile isNumberChar)) (s.dropWhile isNumberChar)

theorem word_eq {α : Type} {pre s rest : Bytes} {x y : α} (h : word pre x s = some (y, rest)) :
    y = x := by
  unfold word at h
  split_ifs at h
  exact (Prod.mk.inj (Option.some.inj h)).1.symm

theorem ValueAt.of_word {ok : Bool} {levels : ℕ} {s pre rest : Bytes} {x v : JsonValue Bytes}
    (hkey : (pre, x) ∈ keywords) (h : Json.word pre x s = some (v, rest)) :
    ValueAt ok levels s v rest := by
  obtain rfl := word_eq h
  exact .word hkey h

theorem value_cases {ok : Bool} {levels : ℕ} {s rest : Bytes} {v : JsonValue Bytes}
    (h : value ok (levels + 1) s = some (v, rest)) : ValueAt ok levels (skipWs s) v rest := by
  unfold value at h
  dsimp only at h
  generalize skipWs s = s' at h ⊢
  split_ifs at h with h1 h2 h3 h4 h5 h6 h7
  · exact .of_word List.mem_cons_self h
  · exact .of_word (List.mem_cons_of_mem _ List.mem_cons_self) h
  · exact .of_word (List.mem_cons_of_mem _ (List.mem_cons_of_mem _ List.mem_cons_self)) h
  · obtain ⟨⟨str, t⟩, hx, hv⟩ := Option.map_eq_some_iff.mp h
    obtain ⟨rfl, rfl⟩ := Prod.mk.inj hv
    exact .string hx
  · obtain ⟨⟨items, t⟩, hx, hv⟩ := Option.map_eq_some_iff.mp h
    obtain ⟨rfl, rfl⟩ := Prod.mk.inj hv
    exact .array h5 hx
  · obtain ⟨⟨fields, t⟩, hx, hv⟩ := Option.map_eq_some_iff.mp h
    obtain ⟨rfl, rfl⟩ := Prod.mk.inj hv
    exact .object h6 hx
  · obtain ⟨rfl, rfl⟩ := Prod.mk.inj (Option.some.inj h)
    exact .number h7

theorem forall_keywords {P : Bytes → JsonValue Bytes → Prop}
    (hfalse : P (chs ['f', 'a', 'l', 's', 'e']) (.boolean false))
    (htrue : P (chs ['t', 'r', 'u', 'e']) (.boolean true)) (hnull : P (chs ['n', 'u', 'l', 'l']) .null)
    {pre : Bytes} {v : JsonValue Bytes} (h : (pre, v) ∈ keywords) : P pre v := by
  simp only [keywords, List.mem_cons, Prod.mk.injEq, List.not_mem_nil, or_false] at h
  rcases h with ⟨rfl, rfl⟩ | ⟨rfl, rfl⟩ | ⟨rfl, rfl⟩
  · exact hfalse
  · exact htrue
  · exact hnull

theorem value_shrinks (ok : Bool) : ∀ levels, Shrinks (value ok levels)
  | 0, s, v, rest, h => by simp [value] at h
  | levels + 1, s, v, rest, h => by
    have hws := length_skipWs_le s
    have ih := value_shrinks ok levels
    cases value_cases h with
    | word hkey hx =>
      have := word_shrinks (forall_keywords (P := fun pre _ => pre ≠ []) (by decide) (by decide)
        (by decide) hkey) _ hx
      omega
    | string hx =>
      have := literal_shrinks hx
      omega
    | array hc hx =>
      have := bracketed_shrinks ok _ ih hx
      omega
    | object hc hx =>
      have := bracketed_shrinks ok _ (pair_shrinks literal_shrinks ih) hx
      omega
    | number hc =>
      have hnum := isNumberChar_of_start _ hc
      rcases hs : skipWs s with - | ⟨c, t⟩
      · rw [hs] at hc
        exact absurd hc (by decide)
      · rw [hs] at hnum hws
        rw [List.headD_cons] at hnum
        rw [List.dropWhile_cons_of_pos hnum]
        have := (List.dropWhile_suffix (l := t) isNumberChar).length_le
        rw [List.length_cons] at hws
        omega

end Shrinks

end TdUtils.Json
