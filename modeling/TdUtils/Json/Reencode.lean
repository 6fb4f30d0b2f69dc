import TdUtils.Json.RoundTrip

/-!
# Json.Reencode — which decoded values can be encoded

The decoder lets two things through that are not UTF-8: bytes as they stand in the text, and a `\u`
escape for a surrogate without a partner.  `Readable` says of a literal that it has neither, and the
values that can be encoded again are those of texts with readable literals only.
-/

namespace TdUtils.Json

open Lib Bytes Utf8 Text

/-! ### Codes behind `\u` -/

theorem hexToInt_le (c : UInt8) : hexToInt c ≤ 16 := by
  have hdigit : isDigit c = true → c.toNat ≤ 57 := fun h => by
    simp only [isDigit, decide_eq_true_eq] at h
    exact UInt8.le_iff_toNat_le.mp h.2
  have hlower : c ||| 0x20 ≤ ch 'f' → (c ||| 0x20).toNat ≤ 102 := UInt8.le_iff_toNat_le.mp
  unfold hexToInt
  dsimp only
  split_ifs with h1 h2
  · have := hdigit h1
    rw [show (ch '0').toNat = 48 from rfl]
    omega
  · have := hlower h2.2
    rw [show (ch 'a').toNat = 97 from rfl]
    omega
  · exact Nat.le_refl 16

theorem hexNumber_lt : ∀ {s : Bytes} {num n : ℕ}, hexNumber num s = some n →
    n < (num + 1) * 16 ^ s.length
  | [], num, n, h => by
    rw [← Option.some.inj h]
    simp
  | c :: s, num, n, h => by
    rw [hexNumber] at h
    split_ifs at h with hc
    have hlt := hexNumber_lt h
    have hle := hexToInt_le c
    have hmul : (num * 16 + hexToInt c + 1) * 16 ^ s.length ≤ (num + 1) * 16 * 16 ^ s.length :=
      Nat.mul_le_mul_right _ (by omega)
    rw [List.length_cons, Nat.pow_succ', ← Nat.mul_assoc]
    omega

theorem code_lt {s rest : Bytes} {num : ℕ} (h : code s = some (num, rest)) : num < 0x110000 := by
  have hfour : ∀ {t : Bytes} {n : ℕ}, hexNumber 0 (t.take 4) = some n → n < 0x10000 := by
    intro t n hn
    have hlt := hexNumber_lt hn
    have hpow : 16 ^ (t.take 4).length ≤ 16 ^ 4 :=
      Nat.pow_le_pow_right (by omega) (List.length_take_le 4 t)
    omega
  unfold code at h
  split_ifs at h with hs
  simp only [Option.bind_eq_bind, Option.bind_eq_some_iff] at h
  obtain ⟨n, hn, h⟩ := h
  have hn' := hfour hn
  split_ifs at h with h2
  · obtain ⟨m, -, h⟩ := Option.bind_eq_some_iff.mp h
    split_ifs at h
    · obtain ⟨rfl, -⟩ := Prod.mk.inj (Option.some.inj h)
      have h3FF : ∀ k : ℕ, k &&& 0x3FF = k % 1024 := fun k => Bits.and_low k 10
      have hm : m % 1024 < 2 ^ 10 := Nat.mod_lt _ (by omega)
      rw [h3FF, h3FF, Bits.shiftLeft_or hm]
      omega
    · obtain ⟨rfl, -⟩ := Prod.mk.inj (Option.some.inj h)
      omega
  · obtain ⟨rfl, -⟩ := Prod.mk.inj (Option.some.inj h)
    omega

theorem code_lt_of_escape {s rest : Bytes} {num : ℕ} (h : escape s = some (.code num, rest)) :
    num < 0x110000 := by
  rcases s with - | ⟨c, s⟩
  · simp [escape] at h
  · unfold escape at h
    dsimp only at h
    rcases hc : shortEscape c with - | b <;> rw [hc] at h <;> dsimp only at h
    · split_ifs at h
      · obtain ⟨⟨n, t⟩, hn, h⟩ := Option.map_eq_some_iff.mp h
        obtain rfl : n = num := Item.code.inj (Prod.mk.inj h).1
        exact code_lt hn
      · simp at h
    · simp at h

theorem code_lt_of_item {s rest : Bytes} {num : ℕ} (h : item s = some (.code num, rest)) :
    num < 0x110000 := by
  rcases s with - | ⟨c, s⟩
  · simp [item] at h
  · unfold item at h
    dsimp only at h
    split_ifs at h
    · exact code_lt_of_escape h
    · simp at h

theorem code_lt_of_items {s : Bytes} {is : List Item} (h : items s = some is) :
    ∀ num, Item.code num ∈ is → num < 0x110000 := by
  induction hn : s.length using Nat.strong_induction_on generalizing s is with
  | _ n ih =>
    intro num hmem
    by_cases hs : s = []
    · rw [hs, items_nil] at h
      rw [← Option.some.inj h] at hmem
      cases hmem
    · rcases hi : item s with - | ⟨i, rest⟩
      · rw [items_of_none hs hi] at h
        cases h
      · rw [items_of_item hi] at h
        obtain ⟨is', his, rfl⟩ := Option.map_eq_some_iff.mp h
        rcases List.mem_cons.mp hmem with rfl | hmem
        · exact code_lt_of_item hi
        · exact ih rest.length (hn ▸ length_lt_of_item hi) his rfl num hmem

/-! ### Readable literals -/

/-- The byte of an element, with a question mark for a code. -/
def Item.visible : Item → UInt8
  | .byte b => b
  | .code _ => ch '?'

/-- No `\u` escape stands for a surrogate on its own, and the bytes around the `\u` escapes are
UTF-8. -/
def Readable (lit : Bytes) : Prop :=
  ∀ is, items lit = some is →
    (∀ num, Item.code num ∈ is → isSurrogate num = false) ∧
      checkUtf8 (is.map Item.visible) = true

theorem valid_bytesOf : ∀ {is : List Item}, (∀ num, Item.code num ∈ is → num < 0x110000) →
    ∀ pre : Bytes, Valid (pre ++ bytesOf is) ↔
      (∀ num, Item.code num ∈ is → isSurrogate num = false) ∧
        Valid (pre ++ is.map Item.visible)
  | [], _, pre => by simp [bytesOf]
  | .byte b :: is, hlt, pre => by
    have ih := valid_bytesOf (fun num h => hlt num (List.mem_cons_of_mem _ h)) (pre ++ [b])
    simpa [bytesOf, Item.bytes, Item.visible] using ih
  | .code num :: is, hlt, pre => by
    have hnum := hlt num List.mem_cons_self
    have ih := valid_bytesOf (fun num h => hlt num (List.mem_cons_of_mem _ h)) []
    have hscalar : Scalar num ↔ isSurrogate num = false := by
      rw [← Bool.not_eq_true, isSurrogate_iff]
      unfold Scalar
      omega
    have hmark : Scalar (ch '?').toNat := by decide
    have hbytes : bytesOf (.code num :: is) = utf8 num ++ bytesOf is := by
      rw [← codeBytes_eq_utf8]
      rfl
    have hvisible : (Item.code num :: is).map Item.visible =
        utf8 (ch '?').toNat ++ is.map Item.visible := by
      rw [utf8_one (by decide)]
      rfl
    rw [hbytes, hvisible, valid_append (not_continues_head (by omega) _),
      valid_append (not_continues_head (by decide) _), valid_utf8_append hnum,
      valid_utf8_append (by decide), ← List.nil_append (bytesOf is), ih, hscalar]
    simp only [List.mem_cons, Item.code.injEq, forall_eq_or_imp, hmark, true_and, List.nil_append]
    tauto

/-- What a literal stands for is UTF-8 exactly when the literal is readable. -/
theorem readable_iff {lit str : Bytes} (h : unescape lit = some str) :
    Readable lit ↔ checkUtf8 str = true := by
  obtain ⟨is, his, rfl⟩ := Option.map_eq_some_iff.mp h
  have hvalid := valid_bytesOf (code_lt_of_items his) []
  rw [List.nil_append, List.nil_append] at hvalid
  rw [checkUtf8_iff, hvalid, ← checkUtf8_iff]
  constructor
  · exact fun hr => hr is his
  · rintro hr is' his'
    obtain rfl := Option.some.inj (his.symm.trans his')
    exact hr

/-! ### The literals of a text -/

/-- The contents of the string literals of a text, from its first quotation mark on. -/
def literals : Bytes → List Bytes
  | [] => []
  | c :: s =>
    if c = ch '"' then
      match closingQuote s with
      | none => []
      | some n => s.take n :: literals (s.drop (n + 1))
    else literals s
termination_by s => s.length
decreasing_by all_goals simp only [List.length_drop, List.length_cons]; omega

/-- Between `s` and `rest` stand literals of these strings. -/
def Literals (s rest : Bytes) (strs : List Bytes) : Prop :=
  ∃ lits, literals s = lits ++ literals rest ∧
    List.Forall₂ (fun lit str => unescape lit = some str) lits strs

section Literals

variable {s t rest : Bytes}

theorem Literals.refl (s : Bytes) : Literals s s [] := ⟨[], rfl, .nil⟩

theorem Literals.trans {strs strs' : List Bytes} (h : Literals s t strs)
    (h' : Literals t rest strs') : Literals s rest (strs ++ strs') := by
  obtain ⟨lits, hs, hlits⟩ := h
  obtain ⟨lits', ht, hlits'⟩ := h'
  exact ⟨lits ++ lits', by rw [hs, ht, List.append_assoc], List.rel_append hlits hlits'⟩

theorem literals_append {pre : Bytes} (h : ∀ c ∈ pre, c ≠ ch '"') (s : Bytes) :
    literals (pre ++ s) = literals s := by
  induction pre with
  | nil => rfl
  | cons c pre ih =>
    obtain ⟨hc, hpre⟩ := List.forall_mem_cons.mp h
    rw [List.cons_append, literals, if_neg hc, ih hpre]

/-- Bytes without a quotation mark. -/
theorem Literals.skip (pre : Bytes) (h : ∀ c ∈ pre, c ≠ ch '"') (s : Bytes) :
    Literals (pre ++ s) s [] := ⟨[], literals_append h s, .nil⟩

theorem Literals.dropWhile {f : UInt8 → Bool} (hf : f (ch '"') = false) (s : Bytes) :
    Literals s (s.dropWhile f) [] := by
  have h := Literals.skip (s.takeWhile f) (fun c hc hq => ?_) (s.dropWhile f)
  · rwa [List.takeWhile_append_dropWhile] at h
  · have := List.mem_takeWhile_imp hc
    rw [hq, hf] at this
    cases this

theorem Literals.skipWs (s : Bytes) : Literals s (skipWs s) [] := Literals.dropWhile (by decide) s

theorem Literals.trySkip {c : UInt8} (hc : c ≠ ch '"') (h : trySkip c s = some t) :
    Literals s t [] := by
  obtain rfl := eq_cons_of_trySkip h
  exact Literals.skip [c] (List.forall_mem_singleton.mpr hc) t

theorem Literals.literal {str : Bytes} (h : literal s = some (str, rest)) :
    Literals s rest [str] := by
  rcases s with - | ⟨c, s⟩
  · simp [TdUtils.Json.literal] at h
  · unfold TdUtils.Json.literal at h
    dsimp only at h
    split_ifs at h with hc
    simp only [Option.bind_eq_bind, Option.bind_eq_some_iff, Option.pure_def, Option.some.injEq,
      Prod.mk.injEq] at h
    obtain ⟨n, hn, str', hstr, rfl, rfl⟩ := h
    refine ⟨[s.take n], ?_, .cons hstr .nil⟩
    rw [literals, if_pos hc, hn]
    rfl

theorem Literals.word {α : Type} {pre : Bytes} {x y : α} (hpre : ∀ c ∈ pre, c ≠ ch '"')
    (h : word pre x s = some (y, rest)) : Literals s rest [] := by
  unfold TdUtils.Json.word at h
  split_ifs at h with hs
  rw [not_or, not_not] at hs
  obtain ⟨-, rfl⟩ := Prod.mk.inj (Option.some.inj h)
  have hskip := Literals.skip pre hpre (s.drop pre.length)
  have happ := List.take_append_drop pre.length s
  rw [← hs.2] at happ
  rwa [happ] at hskip

variable {α β : Type} {element : Bytes → Option (α × Bytes)} {f : α → List Bytes}

theorem Literals.members {close : UInt8} (hclose : close ≠ ch '"')
    (he : ∀ {s x rest}, element s = some (x, rest) → Literals s rest (f x)) :
    ∀ {fuel : ℕ} {s rest : Bytes} {xs : List α},
      members close element fuel s = some (xs, rest) → Literals s rest (xs.flatMap f)
  | 0, s, rest, xs, h => by simp [TdUtils.Json.members] at h
  | fuel + 1, s, rest, xs, h => by
    unfold TdUtils.Json.members at h
    split_ifs at h with hs
    simp only [Option.bind_eq_bind, Option.bind_eq_some_iff, Prod.exists] at h
    obtain ⟨x, s₁, h₁, h⟩ := h
    have hx := (he h₁).trans (Literals.skipWs s₁)
    rcases h₂ : TdUtils.Json.trySkip close (TdUtils.Json.skipWs s₁) with - | s₂
    · simp only [h₂] at h
      rcases h₃ : TdUtils.Json.trySkip (ch ',') (TdUtils.Json.skipWs s₁) with - | s₃
      · simp [h₃] at h
      · simp only [h₃, Option.bind_eq_some_iff, Prod.exists, Option.pure_def, Option.some.injEq,
          Prod.mk.injEq] at h
        obtain ⟨xs', s₄, h₄, rfl, rfl⟩ := h
        have hrest := Literals.members hclose he h₄
        have hcomma := (Literals.trySkip (by decide) h₃).trans (Literals.skipWs s₃)
        simpa using (hx.trans hcomma).trans hrest
    · simp only [h₂, Option.pure_def, Option.some.injEq, Prod.mk.injEq] at h
      obtain ⟨rfl, rfl⟩ := h
      simpa using hx.trans (Literals.trySkip hclose h₂)

theorem Literals.bracketed {open_ close : UInt8} (hopen : open_ ≠ ch '"') (hclose : close ≠ ch '"')
    (he : ∀ {s x rest}, element s = some (x, rest) → Literals s rest (f x)) {xs : List α}
    (h : bracketed true close element (open_ :: s) = some (xs, rest)) :
    Literals (open_ :: s) rest (xs.flatMap f) := by
  have hfront : Literals (open_ :: s) (TdUtils.Json.skipWs s) [] :=
    (Literals.skip [open_] (List.forall_mem_singleton.mpr hopen) s).trans
      (Literals.skipWs s)
  unfold TdUtils.Json.bracketed at h
  simp only [skipOne, if_true, List.tail_cons] at h
  rcases h₁ : TdUtils.Json.trySkip close (TdUtils.Json.skipWs s) with - | t
  · simp only [h₁] at h
    exact hfront.trans (Literals.members hclose he h)
  · simp only [h₁, Option.some.injEq, Prod.mk.injEq] at h
    obtain ⟨rfl, rfl⟩ := h
    exact hfront.trans (Literals.trySkip hclose h₁)

theorem Literals.pair {key : Bytes → Option (β × Bytes)} {g : β → List Bytes}
    (hk : ∀ {s x rest}, key s = some (x, rest) → Literals s rest (g x))
    (he : ∀ {s x rest}, element s = some (x, rest) → Literals s rest (f x)) {x : β × α}
    (h : pair key element s = some (x, rest)) : Literals s rest (g x.1 ++ f x.2) := by
  unfold TdUtils.Json.pair at h
  simp only [Option.bind_eq_bind, Option.bind_eq_some_iff, Prod.exists, Option.pure_def,
    Option.some.injEq, Prod.mk.injEq] at h
  obtain ⟨k, s₁, h₁, s₂, h₂, v, s₃, h₃, rfl, rfl⟩ := h
  have hcolon := (Literals.skipWs s₁).trans (Literals.trySkip (by decide) h₂)
  simpa using ((hk h₁).trans hcolon).trans (he h₃)

end Literals

/-- A text with its first byte, where the grammar looks at it. -/
theorem eq_cons_of_headD {s : Bytes} {c : UInt8} (h : s.headD 0 = c) (hc : c ≠ 0) :
    ∃ t, s = c :: t :=
  List.head?_eq_some_iff.mp (head?_of_headD h hc)

/-- The literals of a value are those of its strings and keys. -/
theorem value_literals : ∀ (levels : ℕ) {s rest : Bytes} {v : JsonValue Bytes},
    value true levels s = some (v, rest) → Literals s rest v.strings
  | 0, s, rest, v, h => by simp [value] at h
  | levels + 1, s, rest, v, h => by
    have hws := Literals.skipWs s
    have ih : ∀ {s x rest}, value true levels s = some (x, rest) →
      Literals s rest (JsonValue.strings x) := value_literals levels
    refine hws.trans ?_
    have hat := value_cases h
    generalize skipWs s = s' at hat
    cases hat with
    | word hkey hx =>
      obtain ⟨hquotes, hstrings⟩ := forall_keywords
        (P := fun pre v => (∀ c ∈ pre, c ≠ ch '"') ∧ v.strings = [])
        ⟨by decide, rfl⟩ ⟨by decide, rfl⟩ ⟨by decide, rfl⟩ hkey
      rw [hstrings]
      exact Literals.word hquotes hx
    | string hx => exact Literals.literal hx
    | array hc hx =>
      obtain ⟨t, rfl⟩ := eq_cons_of_headD hc (by decide)
      rw [JsonValue.strings, stringsOfItems_eq]
      exact Literals.bracketed (by decide) (by decide) ih hx
    | object hc hx =>
      obtain ⟨t, rfl⟩ := eq_cons_of_headD hc (by decide)
      rw [JsonValue.strings, stringsOfFields_eq]
      exact Literals.bracketed (by decide) (by decide)
        (Literals.pair (g := fun key => [key]) Literals.literal ih) hx
    | number hc => exact Literals.dropWhile (by decide) s'

/-! ### What the grammar makes can be printed -/

section Sound

variable {α β : Type} {element : Bytes → Option (α × Bytes)} {P : α → Prop}

theorem members_forall {close : UInt8} (he : ∀ {s x rest}, element s = some (x, rest) → P x) :
    ∀ {fuel : ℕ} {s rest : Bytes} {xs : List α},
      members close element fuel s = some (xs, rest) → ∀ x ∈ xs, P x
  | 0, s, rest, xs, h => by simp [members] at h
  | fuel + 1, s, rest, xs, h => by
    unfold members at h
    split_ifs at h with hs
    simp only [Option.bind_eq_bind, Option.bind_eq_some_iff, Prod.exists] at h
    obtain ⟨x, s₁, h₁, h⟩ := h
    rcases h₂ : trySkip close (skipWs s₁) with - | s₂
    · simp only [h₂] at h
      rcases h₃ : trySkip (ch ',') (skipWs s₁) with - | s₃
      · simp [h₃] at h
      · simp only [h₃, Option.bind_eq_some_iff, Prod.exists, Option.pure_def, Option.some.injEq,
          Prod.mk.injEq] at h
        obtain ⟨xs', s₄, h₄, rfl, -⟩ := h
        exact List.forall_mem_cons.mpr ⟨he h₁, members_forall he h₄⟩
    · simp only [h₂, Option.pure_def, Option.some.injEq, Prod.mk.injEq] at h
      obtain ⟨rfl, -⟩ := h
      exact List.forall_mem_singleton.mpr (he h₁)

theorem bracketed_forall {close : UInt8} (he : ∀ {s x rest}, element s = some (x, rest) → P x)
    {s rest : Bytes} {xs : List α} (h : bracketed true close element s = some (xs, rest)) :
    ∀ x ∈ xs, P x := by
  unfold bracketed at h
  dsimp only at h
  rcases h₁ : trySkip close (skipWs (skipOne true s)) with - | t
  · simp only [h₁] at h
    exact members_forall he h
  · simp only [h₁, Option.some.injEq, Prod.mk.injEq] at h
    rw [← h.1]
    exact List.forall_mem_nil P

theorem pair_forall {key : Bytes → Option (β × Bytes)}
    (he : ∀ {s x rest}, element s = some (x, rest) → P x) {s rest : Bytes} {x : β × α}
    (h : pair key element s = some (x, rest)) : P x.2 := by
  unfold pair at h
  simp only [Option.bind_eq_bind, Option.bind_eq_some_iff, Prod.exists, Option.pure_def,
    Option.some.injEq, Prod.mk.injEq] at h
  obtain ⟨k, s₁, h₁, s₂, h₂, v, s₃, h₃, rfl, -⟩ := h
  exact he h₃

end Sound

/-- The numbers are tokens and the brackets fit into the levels. -/
def Fits (levels : ℕ) (v : JsonValue Bytes) : Prop :=
  v.depth < levels ∧ ∀ number ∈ v.numbers, NumberToken number

theorem fits_leaf {levels : ℕ} {v : JsonValue Bytes} (hd : v.depth = 0) (hn : v.numbers = []) :
    Fits (levels + 1) v :=
  ⟨by rw [hd]; exact Nat.succ_pos _, by simp [hn]⟩

theorem value_fits : ∀ (levels : ℕ) {s rest : Bytes} {v : JsonValue Bytes},
    value true levels s = some (v, rest) → Fits levels v
  | 0, s, rest, v, h => by simp [value] at h
  | levels + 1, s, rest, v, h => by
    have ih : ∀ {s x rest}, value true levels s = some (x, rest) → Fits levels x :=
      value_fits levels
    have hat := value_cases h
    generalize skipWs s = s' at hat
    cases hat with
    | word hkey hx =>
      obtain ⟨hdepth, hnumbers⟩ := forall_keywords
        (P := fun _ v => v.depth = 0 ∧ v.numbers = []) ⟨rfl, rfl⟩ ⟨rfl, rfl⟩ ⟨rfl, rfl⟩ hkey
      exact fits_leaf hdepth hnumbers
    | string hx => exact fits_leaf rfl rfl
    | array hc hx =>
      have hall := bracketed_forall ih hx
      refine ⟨depthOfItems_lt.mpr fun x hx => (hall x hx).1, ?_⟩
      rw [JsonValue.numbers, numbersOfItems_eq]
      intro number hnumber
      obtain ⟨x, hx, hnumber⟩ := List.mem_flatMap.mp hnumber
      exact (hall x hx).2 number hnumber
    | object hc hx =>
      have hall := bracketed_forall (P := fun field => Fits levels field.2) (pair_forall ih) hx
      refine ⟨depthOfFields_lt.mpr fun x hx => (hall x hx).1, ?_⟩
      rw [JsonValue.numbers, numbersOfFields_eq]
      intro number hnumber
      obtain ⟨x, hx, hnumber⟩ := List.mem_flatMap.mp hnumber
      exact (hall x hx).2 number hnumber
    | number hc =>
      refine ⟨Nat.succ_pos _, List.forall_mem_singleton.mpr ⟨?_, fun c hc => ?_⟩⟩
      · rcases s' with - | ⟨c, t⟩
        · exact absurd hc (by decide)
        · rw [List.takeWhile_cons_of_pos (isNumberChar_of_start c hc)]
          exact ⟨c, _, rfl, hc⟩
      · exact List.mem_takeWhile_imp hc

/-! ### Decoding and encoding again -/

theorem readable_strings {lits strs : List Bytes}
    (h : List.Forall₂ (fun lit str => unescape lit = some str) lits strs) :
    (∀ lit ∈ lits, Readable lit) ↔ ∀ str ∈ strs, checkUtf8 str = true := by
  induction h with
  | nil => simp
  | cons hlit _ ih => rw [List.forall_mem_cons, List.forall_mem_cons, readable_iff hlit, ih]

/-- The literals of an accepted text are those of its value. -/
theorem literals_of_value {levels : ℕ} {text rest : Bytes} {v : JsonValue Bytes}
    (h : value true levels text = some (v, rest)) (hrest : skipWs rest = []) :
    List.Forall₂ (fun lit str => unescape lit = some str) (literals text) v.strings := by
  obtain ⟨lits, hlits, hall⟩ := (value_literals levels h).trans (Literals.skipWs rest)
  rw [hrest, literals, List.append_nil] at hlits
  rw [List.append_nil] at hall
  rwa [hlits]

/-- **Decoded values.**  What an accepted text decodes to can be encoded, and decoded again to an
equal value, exactly when every string literal of the text is readable. -/
theorem encode_decode_iff {text buf : Bytes} {w : JsonValue Slice}
    (h : jsonDecode text = .ok (w, buf)) (pretty : Bool) :
    (∃ v, w.traverse (Slice.read buf) = some v ∧
      ∃ text', jsonEncode v pretty = some text' ∧ DecodesTo text' v) ↔
    ∀ lit ∈ literals text, Readable lit := by
  obtain ⟨v, rest, hv, hrest, hw⟩ := value_of_jsonDecode h
  rw [readable_strings (literals_of_value hv hrest), ← jsonEncode_isSome v pretty]
  constructor
  · rintro ⟨v', hw', text', ht, -⟩
    obtain rfl := Option.some.inj (hw.symm.trans hw')
    rw [ht]
    rfl
  · intro hsome
    obtain ⟨text', ht⟩ := Option.isSome_iff_exists.mp hsome
    obtain ⟨hd, hn⟩ := value_fits 101 hv
    exact ⟨v, hw, text', ht, decodesTo_of_jsonEncode ht hn (Nat.le_of_lt_succ hd)⟩

/-- `"\uD800"` with its quotation marks. -/
def loneSurrogate : Bytes := chs ['"', '\\', 'u', 'D', '8', '0', '0', '"']

theorem encode_decode_iff_lone :
    (∃ v, (JsonValue.string (⟨1, 3⟩ : Slice)).traverse
        (Slice.read (write loneSurrogate 1 [0xED, 0xA0, 0x80])) = some v ∧
      ∃ text', jsonEncode v false = some text' ∧ DecodesTo text' v) ↔
    ∀ lit ∈ literals loneSurrogate, Readable lit :=
  @encode_decode_iff loneSurrogate _ _ (by rfl) false

/-- The decoder takes a surrogate on its own, which the encoder cannot print. -/
theorem loneSurrogate_stops : ¬ ∀ (text buf : Bytes) (w : JsonValue Slice),
    jsonDecode text = .ok (w, buf) → ∃ v, w.traverse (Slice.read buf) = some v ∧
      ∃ text', jsonEncode v false = some text' ∧ DecodesTo text' v := by
  intro h
  obtain ⟨v, hv, text', ht, -⟩ := h loneSurrogate _ (.string ⟨1, 3⟩) (by rfl)
  obtain rfl : v = .string [0xED, 0xA0, 0x80] := (Option.some.inj hv).symm
  cases ht

end TdUtils.Json
