import TdUtils.Json.DecodeString

/-!
# Json.DecodeFollows — the decoder and its skipping twin follow the grammar

`Ahead p q rest` says what a parser `q` keeps of an earlier parser `p` when `rest` is left: the
buffer behind the pointer is as it was, and so is what lay before the pointer of `p`.  The slices of
a value lie before the pointer, so that what is parsed later does not change them.
-/

namespace TdUtils.Json

open Lib Bytes

/-- The parser `q` is behind `p` and `rest` is left. -/
structure Ahead (p q : Parser) (rest : Bytes) : Prop where
  status_eq : q.status = p.status
  data_eq : q.data = rest
  ptr_eq : q.ptr + rest.length = p.ptr + p.data.length
  length_eq : q.buf.length = p.buf.length
  prefix_done : p.buf.take p.ptr <+: q.buf.take q.ptr

/-- What a function of the parser does against what the grammar says: an error where the grammar has
nothing, else the rest of the grammar is left and `R` holds between the parser and the results. -/
def Follows {α β : Type} (R : Parser → α → β → Prop) (p : Parser)
    (r : Except Stop (Parser × α)) : Option (β × Bytes) → Prop
  | none => ∃ text, r = .error (.error text)
  | some (b, rest) => ∃ q a, r = .ok (q, a) ∧ Ahead p q rest ∧ R q a b

theorem Ahead.refl (p : Parser) : Ahead p p p.data := ⟨rfl, rfl, rfl, rfl, List.prefix_rfl⟩

theorem Ahead.trans {p q r : Parser} {s t : Bytes} (h : Ahead p q s) (h' : Ahead q r t) :
    Ahead p r t where
  status_eq := h'.status_eq.trans h.status_eq
  data_eq := h'.data_eq
  ptr_eq := by
    have h1 := h.ptr_eq
    have h2 := h'.ptr_eq
    rw [h.data_eq] at h2
    omega
  length_eq := h'.length_eq.trans h.length_eq
  prefix_done := h.prefix_done.trans h'.prefix_done

theorem Ahead.move {p : Parser} {n : ℕ} (h : n ≤ p.data.length) :
    Ahead p (p.move n) (p.data.drop n) where
  status_eq := rfl
  data_eq := List.drop_drop.symm
  ptr_eq := by
    rw [List.length_drop]
    show p.ptr + n + _ = _
    omega
  length_eq := rfl
  prefix_done := List.take_prefix_take_left (Nat.le_add_right _ _)

theorem Ahead.moveWhile (p : Parser) (f : UInt8 → Bool) :
    Ahead p (p.move (p.data.takeWhile f).length) (p.data.dropWhile f) := by
  have h := @List.drop_left _ (p.data.takeWhile f) (p.data.dropWhile f)
  rw [List.takeWhile_append_dropWhile] at h
  have hm := Ahead.move (p := p) (List.takeWhile_prefix f).length_le
  rwa [h] at hm

theorem Ahead.skipWhitespaces (p : Parser) : Ahead p p.skipWhitespaces (skipWs p.data) :=
  Ahead.moveWhile p Parser.isWhitespace

theorem trySkip_ahead (p : Parser) (c : UInt8) :
    match trySkip c p.data with
    | none => p.trySkip c = none
    | some rest => ∃ q, p.trySkip c = some q ∧ Ahead p q rest := by
  unfold trySkip Parser.trySkip
  by_cases h : p.data.head? = some c
  · rw [if_pos h, if_pos h]
    obtain ⟨t, ht⟩ := List.head?_eq_some_iff.mp h
    have hm := Ahead.move (p := p) (n := 1) (by rw [ht, List.length_cons]; omega)
    rw [List.drop_one] at hm
    exact ⟨_, rfl, hm⟩
  · rw [if_neg h, if_neg h]

/-! ### Strings -/

/-- A slice in front of the pointer, and its bytes. -/
def Reads (q : Parser) (slice : Slice) (str : Bytes) : Prop :=
  slice.read (q.buf.take q.ptr) = some str

theorem Slice.read_mono {buf buf' : Bytes} (h : buf <+: buf') (s : Slice) (str : Bytes)
    (hr : s.read buf = some str) : s.read buf' = some str := by
  obtain ⟨t, rfl⟩ := h
  unfold Slice.read at hr ⊢
  split_ifs at hr with hs
  rw [if_pos (by rw [List.length_append]; omega), ← hr, List.drop_append_of_le_length (by omega),
    List.take_append_of_le_length (by rw [List.length_drop]; omega)]

theorem length_data (p : Parser) : p.data.length = p.buf.length - p.ptr := List.length_drop

/-- The state of the string loops at their start. -/
theorem at_start {p : Parser} {s : Bytes} {n : ℕ} (hp : p.data = s) (hn : n < s.length) :
    At (s.drop n) (p.buf.take p.ptr) [] (s.take n) p.buf (p.ptr + n) p.ptr p.ptr := by
  have hl := length_data p
  rw [hp] at hl
  have hdone : (p.buf.take p.ptr).length = p.ptr := List.length_take_of_le (by omega)
  have hdrop : p.buf.drop p.ptr = s := hp
  refine ⟨?_, hdone.symm, by simp [hdone], ?_⟩
  · rw [List.nil_append, List.take_append_drop, ← hdrop, List.take_append_drop]
  · rw [hdone, List.length_take_of_le (by omega)]
    rfl

theorem read_append (front str : Bytes) :
    Slice.read (front ++ str) ⟨front.length, str.length⟩ = some str := by
  simp [Slice.read]

/-- The parser behind a string that was unescaped in place. -/
theorem ahead_decoded {q : Parser} {s str junk : Bytes} {n : ℕ} (hq : q.data = s)
    (hn : n < s.length) (hlen : str.length + junk.length = n) :
    let r : Parser :=
      { q.move (n + 1) with buf := q.buf.take q.ptr ++ str ++ (junk ++ s.drop n) }
    Ahead q r (s.drop (n + 1)) ∧ Reads r ⟨q.ptr, str.length⟩ str := by
  have hl := length_data q
  rw [hq] at hl
  have hdone : (q.buf.take q.ptr).length = q.ptr := List.length_take_of_le (by omega)
  have hpre : q.buf.take q.ptr ++ str <+:
      (q.buf.take q.ptr ++ str ++ (junk ++ s.drop n)).take (q.ptr + (n + 1)) := by
    rw [List.prefix_take_iff]
    refine ⟨List.prefix_append _ _, ?_⟩
    rw [List.length_append, hdone]
    omega
  have hdata : (q.buf.take q.ptr ++ str ++ (junk ++ s.drop n)).drop (q.ptr + (n + 1)) =
      s.drop (n + 1) := by
    rw [← List.append_assoc, show q.ptr + (n + 1) =
      (q.buf.take q.ptr ++ str ++ junk).length + 1 by
        simp only [List.length_append, hdone]
        omega, ← List.drop_drop, List.drop_left, List.drop_drop]
  refine ⟨⟨rfl, hdata, ?_, ?_, (List.prefix_append _ _).trans hpre⟩, ?_⟩
  · show q.ptr + (n + 1) + (s.drop (n + 1)).length = q.ptr + q.data.length
    rw [List.length_drop, hq]
    omega
  · simp only [List.length_append, hdone, List.length_drop]
    omega
  · have hr := read_append (q.buf.take q.ptr) str
    rw [hdone] at hr
    exact Slice.read_mono hpre _ _ hr

theorem jsonStringDecode_follows (p : Parser) :
    Follows Reads p (jsonStringDecode p) (literal p.data) := by
  have hskip := trySkip_ahead p (ch '"')
  unfold jsonStringDecode literal
  rcases hs : p.data with - | ⟨c, s⟩
  · rw [hs] at hskip
    exact ⟨_, by rw [show p.trySkip (ch '"') = none from hskip]⟩
  rw [hs] at hskip
  unfold trySkip at hskip
  by_cases hc : c = ch '"'
  · rw [if_pos (by rw [List.head?_cons, hc])] at hskip
    obtain ⟨q, hq, hpq⟩ := hskip
    rw [List.tail_cons] at hpq
    simp only [hq, if_pos hc, hpq.data_eq]
    rcases hn : closingQuote s with - | n
    · exact ⟨_, rfl⟩
    have hlt := closingQuote_lt hn
    have hat := at_start hpq.data_eq hlt
    have hl := length_data q
    rw [hpq.data_eq] at hl
    have hround := decodeString_rounds (s.drop n) (n + 1) (by rw [List.length_take]; omega) hat
    have hadv : q.advance (n + 1) = .ok (q.move (n + 1)) := if_pos (by omega)
    simp only [hadv, Option.bind_eq_bind, Option.bind_some, unescape]
    rcases hi : items (s.take n) with - | is
    · rw [hi] at hround
      obtain ⟨text, hr⟩ := hround
      exact ⟨text, by simp only [bind, Except.bind, Parser.move, hr]⟩
    · rw [hi] at hround
      obtain ⟨junk, hj, hr⟩ := hround
      obtain ⟨ha, hread⟩ := ahead_decoded hpq.data_eq hlt
        (show (bytesOf is).length + junk.length = n by omega)
      have hdest : (q.buf.take q.ptr ++ bytesOf is).length = q.ptr + (bytesOf is).length := by
        rw [List.length_append, List.length_take_of_le (by omega)]
      refine ⟨_, _, ?_, hpq.trans ha, hread⟩
      simp only [bind, Except.bind, Parser.move, hr, hdest]
      rw [if_pos (by omega), Nat.add_sub_cancel_left]
      rfl
  · rw [if_neg (by simpa using hc)] at hskip
    simp only [if_neg hc]
    exact ⟨_, by rw [show p.trySkip (ch '"') = none from hskip]⟩

/-- Nothing is asked of the results of a skip. -/
def Any {α β : Type} (_ : Parser) (_ : α) (_ : β) : Prop := True

theorem jsonStringSkip_follows (p : Parser) :
    Follows Any p (noResult jsonStringSkip p) (literal p.data) := by
  have hskip := trySkip_ahead p (ch '"')
  unfold noResult jsonStringSkip literal
  rcases hs : p.data with - | ⟨c, s⟩
  · rw [hs] at hskip
    exact ⟨_, by rw [show p.trySkip (ch '"') = none from hskip]; rfl⟩
  rw [hs] at hskip
  unfold trySkip at hskip
  by_cases hc : c = ch '"'
  · rw [if_pos (by rw [List.head?_cons, hc])] at hskip
    obtain ⟨q, hq, hpq⟩ := hskip
    rw [List.tail_cons] at hpq
    simp only [hq, if_pos hc, hpq.data_eq]
    rcases hn : closingQuote s with - | n
    · exact ⟨_, rfl⟩
    have hlt := closingQuote_lt hn
    have hat := at_start hpq.data_eq hlt
    have hl := length_data q
    rw [hpq.data_eq] at hl
    have hround := skipString_skipped (n + 1) (by rw [List.length_take]; omega) hat
    have hadv : q.advance (n + 1) = .ok (q.move (n + 1)) := if_pos (by omega)
    simp only [hadv, Option.bind_eq_bind, Option.bind_some, unescape]
    rcases hi : items (s.take n) with - | is
    · rw [hi] at hround
      obtain ⟨text, hr⟩ := hround
      exact ⟨text, by simp only [bind, Except.bind, Parser.move, hr]⟩
    · rw [hi] at hround
      have hr : skipString (q.ptr + n) q.buf (n + 1) q.ptr = .ok () := hround
      have hm := Ahead.move (p := q) (n := n + 1) (by rw [hpq.data_eq]; omega)
      rw [hpq.data_eq] at hm
      refine ⟨_, (), ?_, hpq.trans hm, trivial⟩
      simp only [bind, Except.bind, Parser.move, hr]
      rfl
  · rw [if_neg (by simpa using hc)] at hskip
    simp only [if_neg hc]
    exact ⟨_, by rw [show p.trySkip (ch '"') = none from hskip]; rfl⟩

/-! ### Loops over elements -/

section Loops

variable {α β γ δ : Type} {R : Parser → α → β → Prop} {ok : Bool}

/-- What holds between results keeps holding while the parser goes on. -/
def Stable (R : Parser → α → β → Prop) : Prop :=
  ∀ ⦃p q rest a b⦄, R p a b → Ahead p q rest → R q a b

/-- A function of the parser follows a function of the grammar, from every parser whose status is
as `ok` says. -/
def FollowsAll (ok : Bool) (R : Parser → α → β → Prop) (f : Parser → Except Stop (Parser × α))
    (g : Bytes → Option (β × Bytes)) : Prop :=
  ∀ p : Parser, p.status.isNone = ok → Follows R p (f p) (g p.data)

theorem Follows.after {p q : Parser} {s : Bytes} {r : Except Stop (Parser × α)}
    {m : Option (β × Bytes)} (h : Follows R q r m) (hpq : Ahead p q s) : Follows R p r m := by
  rcases m with - | ⟨b, rest⟩
  · exact h
  · obtain ⟨t, a, hr, hqt, hR⟩ := h
    exact ⟨t, a, hr, hpq.trans hqt, hR⟩

theorem elements_follows {element : Parser → Except Stop (Parser × α)}
    {elem : Bytes → Option (β × Bytes)} (hR : Stable R) (h : FollowsAll ok R element elem)
    (hs : Shrinks elem) (close : UInt8) (texts : LoopTexts) :
    ∀ (fuel : ℕ) (p : Parser), p.status.isNone = ok → p.data.length < fuel →
      Follows (fun q => List.Forall₂ (R q)) p (elements close texts element fuel p)
        (members close elem fuel p.data)
  | fuel + 1, p, hok, hfuel => by
    unfold elements members
    by_cases hp : p.data = []
    · rw [if_pos hp, if_pos (by simp [Parser.empty, hp])]
      exact ⟨_, rfl⟩
    rw [if_neg hp, if_neg (by simpa [Parser.empty] using hp)]
    have hfirst := h p hok
    rcases he : elem p.data with - | ⟨b, rest⟩
    · rw [he] at hfirst
      obtain ⟨text, hr⟩ := hfirst
      exact ⟨text, by rw [hr]; rfl⟩
    rw [he] at hfirst
    obtain ⟨q, a, hr, hpq, ha⟩ := hfirst
    have hlt := hs he
    have hqw := Ahead.skipWhitespaces q
    rw [hpq.data_eq] at hqw
    have hclose := trySkip_ahead q.skipWhitespaces close
    have hcomma := trySkip_ahead q.skipWhitespaces (ch ',')
    rw [hqw.data_eq] at hclose hcomma
    simp only [hr, bind, Except.bind, Option.bind_some]
    rcases hc : trySkip close (skipWs rest) with - | rest₁
    · rw [hc] at hclose
      rw [show q.skipWhitespaces.trySkip close = none from hclose]
      rcases hm : trySkip (ch ',') (skipWs rest) with - | rest₂
      · rw [hm] at hcomma
        rw [show q.skipWhitespaces.trySkip (ch ',') = none from hcomma]
        exact ⟨_, rfl⟩
      · rw [hm] at hcomma
        obtain ⟨t, ht, hwt⟩ := hcomma
        have htw := Ahead.skipWhitespaces t
        rw [hwt.data_eq] at htw
        have hnext := (hqw.trans hwt).trans htw
        have hl := length_lt_of_trySkip hm
        have hl' := length_skipWs_le rest₂
        have ih := elements_follows hR h hs close texts fuel t.skipWhitespaces
          (by rw [hnext.status_eq, hpq.status_eq]; exact hok) (by rw [htw.data_eq]; omega)
        rw [htw.data_eq] at ih
        simp only [ht]
        rcases hms : members close elem fuel (skipWs rest₂) with - | ⟨bs, rest₃⟩
        · rw [hms] at ih
          obtain ⟨text, hr'⟩ := ih
          exact ⟨text, by rw [hr']⟩
        · rw [hms] at ih
          obtain ⟨u, as, hr', hu, has⟩ := ih
          have hqu := hnext.trans hu
          exact ⟨u, a :: as, by rw [hr']; rfl, hpq.trans hqu, .cons (hR ha hqu) has⟩
    · rw [hc] at hclose
      obtain ⟨t, ht, hwt⟩ := hclose
      have hqt := hqw.trans hwt
      exact ⟨t, [a], by rw [ht]; rfl, hpq.trans hqt, .cons (hR ha hqt) .nil⟩

theorem field_follows {R' : Parser → γ → δ → Prop} {key : Parser → Except Stop (Parser × γ)}
    {value : Parser → Except Stop (Parser × α)} {key' : Bytes → Option (δ × Bytes)}
    {value' : Bytes → Option (β × Bytes)} (hR' : Stable R') (hk : FollowsAll ok R' key key')
    (hv : FollowsAll ok R value value') :
    FollowsAll ok (fun q a b => R' q a.1 b.1 ∧ R q a.2 b.2) (field key value)
      (pair key' value') := by
  intro p hok
  have hfirst := hk p hok
  unfold field pair
  rcases he : key' p.data with - | ⟨k, rest⟩
  · rw [he] at hfirst
    obtain ⟨text, hr⟩ := hfirst
    exact ⟨text, by rw [hr]; rfl⟩
  rw [he] at hfirst
  obtain ⟨q, a, hr, hpq, ha⟩ := hfirst
  have hqw := Ahead.skipWhitespaces q
  rw [hpq.data_eq] at hqw
  have hcolon := trySkip_ahead q.skipWhitespaces (ch ':')
  rw [hqw.data_eq] at hcolon
  simp only [hr, bind, Except.bind, Option.bind_some]
  rcases hc : trySkip (ch ':') (skipWs rest) with - | rest₁
  · rw [hc] at hcolon
    rw [show q.skipWhitespaces.trySkip (ch ':') = none from hcolon]
    exact ⟨_, rfl⟩
  rw [hc] at hcolon
  obtain ⟨t, ht, hwt⟩ := hcolon
  have hqt := hqw.trans hwt
  have hsecond := hv t (by rw [hqt.status_eq, hpq.status_eq]; exact hok)
  rw [hqt.data_eq] at hsecond
  simp only [ht, Option.bind_some]
  rcases he' : value' rest₁ with - | ⟨v, rest₂⟩
  · rw [he'] at hsecond
    obtain ⟨text, hr'⟩ := hsecond
    exact ⟨text, by rw [hr']⟩
  rw [he'] at hsecond
  obtain ⟨u, a', hr', htu, ha'⟩ := hsecond
  have hqu := hqt.trans htu
  exact ⟨u, (a, a'), by rw [hr']; rfl, hpq.trans hqu, hR' ha hqu, ha'⟩

theorem skip_ahead {p : Parser} {c : UInt8} (hok : p.status.isNone = ok)
    (hc : p.data.head? = some c) : Ahead p (p.skip c) (skipOne ok p.data) := by
  obtain ⟨t, ht⟩ := List.head?_eq_some_iff.mp hc
  unfold Parser.skip skipOne
  rcases hst : p.status with - | text
  · obtain rfl : ok = true := by simpa [hst] using hok.symm
    rw [if_neg (by simp), if_pos hc, if_pos rfl, ← List.drop_one]
    exact Ahead.move (by rw [ht, List.length_cons]; omega)
  · obtain rfl : ok = false := by simpa [hst] using hok.symm
    rw [if_pos (by simp), if_neg (by simp)]
    exact Ahead.refl p

theorem brackets_follows {element : Parser → Except Stop (Parser × α)}
    {elem : Bytes → Option (β × Bytes)} (hR : Stable R) (h : FollowsAll ok R element elem)
    (hs : Shrinks elem) {open_ close : UInt8} (texts : LoopTexts) {p : Parser}
    (hok : p.status.isNone = ok) (hc : p.data.head? = some open_) :
    Follows (fun q => List.Forall₂ (R q)) p (brackets open_ close texts element p)
      (bracketed ok close elem p.data) := by
  have hps := skip_ahead hok hc
  have hsw := Ahead.skipWhitespaces (p.skip open_)
  rw [hps.data_eq] at hsw
  have hpw := hps.trans hsw
  have hclose := trySkip_ahead (p.skip open_).skipWhitespaces close
  rw [hpw.data_eq] at hclose
  unfold brackets bracketed
  dsimp only
  rcases ht : trySkip close (skipWs (skipOne ok p.data)) with - | rest
  · rw [ht] at hclose
    rw [show (p.skip open_).skipWhitespaces.trySkip close = none from hclose]
    have he := elements_follows hR h hs close texts
      ((p.skip open_).skipWhitespaces.data.length + 1) (p.skip open_).skipWhitespaces
      (by rw [hpw.status_eq]; exact hok) (Nat.lt_succ_self _)
    simp only
    rw [hpw.data_eq] at he ⊢
    exact he.after hpw
  · rw [ht] at hclose
    obtain ⟨q, hq, hwq⟩ := hclose
    simp only [hq]
    exact ⟨q, [], rfl, hpw.trans hwq, .nil⟩

theorem Follows.ite {p : Parser} {r r' : Except Stop (Parser × α)} {m m' : Option (β × Bytes)}
    {c : Prop} [Decidable c] (hpos : c → Follows R p r m) (hneg : ¬c → Follows R p r' m') :
    Follows R p (if c then r else r') (if c then m else m') := by
  by_cases hc : c
  · rw [if_pos hc, if_pos hc]
    exact hpos hc
  · rw [if_neg hc, if_neg hc]
    exact hneg hc

theorem Follows.ite_bind {p : Parser} {r r' : Except Stop γ} {f : γ → Except Stop (Parser × α)}
    {m m' : Option (β × Bytes)} {c : Prop} [Decidable c] (hpos : c → Follows R p (r.bind f) m)
    (hneg : ¬c → Follows R p (r'.bind f) m') :
    Follows R p ((if c then r else r').bind f) (if c then m else m') := by
  by_cases hc : c
  · rw [if_pos hc, if_pos hc]
    exact hpos hc
  · rw [if_neg hc, if_neg hc]
    exact hneg hc

theorem Follows.map {R' : Parser → γ → δ → Prop} {p : Parser} {r : Except Stop (Parser × α)}
    {m : Option (β × Bytes)} {f : α → γ} {g : β → δ} (h : Follows R p r m)
    (hR : ∀ q a b, R q a b → R' q (f a) (g b)) :
    Follows R' p (r.bind fun x => .ok (x.1, f x.2)) (m.map fun x => (g x.1, x.2)) := by
  rcases m with - | ⟨b, rest⟩
  · obtain ⟨text, rfl⟩ := h
    exact ⟨text, rfl⟩
  · obtain ⟨q, a, rfl, hpq, hab⟩ := h
    exact ⟨q, f a, rfl, hpq, hR q a b hab⟩

theorem token_follows {p : Parser} (pre : Bytes) (x : α) (y : β) (message : String)
    (hxy : ∀ q, R q x y) : Follows R p (token p pre x message) (word pre y p.data) := by
  unfold token word Parser.trySkipSlice
  by_cases h : pre.length > p.data.length ∨ pre ≠ p.data.take pre.length
  · rw [if_pos h, if_pos h]
    exact ⟨message, rfl⟩
  · rw [if_neg h, if_neg h]
    rw [not_or] at h
    exact ⟨_, x, rfl, Ahead.move (by omega), hxy _⟩

end Loops

/-! ### Values -/

/-- A value of slices in front of the pointer, and the value they stand for. -/
def ReadsValue (q : Parser) (v : JsonValue Slice) (w : JsonValue Bytes) : Prop :=
  v.traverse (Slice.read (q.buf.take q.ptr)) = some w

theorem reads_stable : Stable Reads := fun _ _ _ slice str h hpq =>
  slice.read_mono hpq.prefix_done str h

theorem readsValue_stable : Stable ReadsValue := fun _ _ _ v w h hpq =>
  v.traverse_mono (Slice.read_mono hpq.prefix_done) w h

theorem Reads.string {q : Parser} {slice : Slice} {str : Bytes} (h : Reads q slice str) :
    ReadsValue q (.string slice) (.string str) := by
  simp only [ReadsValue, JsonValue.traverse, show slice.read (q.buf.take q.ptr) = some str from h]
  rfl

theorem Reads.number {q : Parser} {slice : Slice} {str : Bytes} (h : Reads q slice str) :
    ReadsValue q (.number slice) (.number str) := by
  simp only [ReadsValue, JsonValue.traverse, show slice.read (q.buf.take q.ptr) = some str from h]
  rfl

theorem any_stable {α β : Type} : Stable (@Any α β) := fun _ _ _ _ _ _ _ => trivial

theorem traverseItems_of_forall₂ {f : Slice → Option Bytes} :
    ∀ {vs : List (JsonValue Slice)} {ws : List (JsonValue Bytes)},
      List.Forall₂ (fun v w => v.traverse f = some w) vs ws → traverseItems f vs = some ws
  | _, _, .nil => rfl
  | _, _, .cons h hs => by simp [traverseItems, h, traverseItems_of_forall₂ hs]

theorem traverseFields_of_forall₂ {f : Slice → Option Bytes} :
    ∀ {vs : List (Slice × JsonValue Slice)} {ws : List (Bytes × JsonValue Bytes)},
      List.Forall₂ (fun v w => f v.1 = some w.1 ∧ v.2.traverse f = some w.2) vs ws →
      traverseFields f vs = some ws
  | _, _, .nil => rfl
  | (_, _) :: _, (_, _) :: _, .cons h hs => by
    simp [traverseFields, h.1, h.2, traverseFields_of_forall₂ hs]

theorem head?_of_headD {s : Bytes} {c : UInt8} (h : s.headD 0 = c) (hc : c ≠ 0) :
    s.head? = some c := by
  rcases s with - | ⟨d, s⟩
  · exact absurd h.symm hc
  · rw [← h]
    rfl

theorem reads_moveWhile (f : UInt8 → Bool) {q : Parser} (hq : q.data ≠ []) :
    Reads (q.move (q.data.takeWhile f).length) ⟨q.ptr, (q.data.takeWhile f).length⟩
      (q.data.takeWhile f) := by
  have hpos := List.length_pos_of_ne_nil hq
  have hl := length_data q
  have hr := read_append (q.buf.take q.ptr) (q.data.takeWhile f)
  rw [List.length_take_of_le (by omega)] at hr
  have htake : q.buf.take (q.ptr + (q.data.takeWhile f).length) =
      q.buf.take q.ptr ++ q.data.takeWhile f := by
    rw [List.take_add]
    exact congrArg _ (List.prefix_iff_eq_take.mp (List.takeWhile_prefix f)).symm
  unfold Reads
  rw [← htake] at hr
  exact hr

/-- `do_json_decode` follows the grammar, and its slices stand for the value. -/
theorem decodeValue_follows {ok : Bool} : ∀ levels,
    FollowsAll ok ReadsValue (decodeValue levels) (value ok levels)
  | 0, p, _ => ⟨_, rfl⟩
  | levels + 1, p, hok => by
    have ih : FollowsAll ok ReadsValue (decodeValue levels) (value ok levels) :=
      decodeValue_follows levels
    have hpw := Ahead.skipWhitespaces p
    have hok' : p.skipWhitespaces.status.isNone = ok := hok
    unfold decodeValue value
    refine Follows.after ?_ hpw
    have hdata := hpw.data_eq
    rw [← hdata]
    generalize p.skipWhitespaces = q at hok' ⊢
    unfold Parser.peekChar
    dsimp only
    refine .ite (fun _ => token_follows _ _ _ _ fun _ => rfl) fun _ => ?_
    refine .ite (fun _ => token_follows _ _ _ _ fun _ => rfl) fun _ => ?_
    refine .ite (fun _ => token_follows _ _ _ _ fun _ => rfl) fun _ => ?_
    refine .ite (fun _ => (jsonStringDecode_follows q).map fun _ _ _ h => h.string) fun _ => ?_
    refine .ite (fun hc => ?_) fun _ => ?_
    · refine (brackets_follows readsValue_stable ih (value_shrinks ok levels) _ hok'
        (head?_of_headD hc (by decide))).map fun r vs ws h => ?_
      simp only [ReadsValue, JsonValue.traverse, traverseItems_of_forall₂ h]
      rfl
    refine .ite (fun hc => ?_) fun _ => ?_
    · have hstable : Stable fun q (a : Slice × JsonValue Slice) (b : Bytes × JsonValue Bytes) =>
          Reads q a.1 b.1 ∧ ReadsValue q a.2 b.2 :=
        fun _ _ _ _ _ h hpq => ⟨reads_stable h.1 hpq, readsValue_stable h.2 hpq⟩
      refine (brackets_follows hstable
        (field_follows reads_stable (fun p _ => jsonStringDecode_follows p) ih)
        (pair_shrinks literal_shrinks (value_shrinks ok levels)) _ hok'
        (head?_of_headD hc (by decide))).map fun r vs ws h => ?_
      simp only [ReadsValue, JsonValue.traverse, traverseFields_of_forall₂ h]
      rfl
    refine .ite (fun hc => ?_) fun _ => ?_
    · have hread := reads_moveWhile isNumberChar (q := q) (fun h => by
        rw [h] at hc
        exact absurd hc (by decide))
      exact ⟨_, _, rfl, Ahead.moveWhile q isNumberChar, hread.number⟩
    split_ifs
    · exact ⟨_, rfl⟩
    · exact ⟨_, rfl⟩

theorem Follows.forget {α β : Type} {R : Parser → α → β → Prop} {p : Parser}
    {r : Except Stop (Parser × α)} {m : Option (β × Bytes)} (h : Follows R p r m) :
    Follows (@Any Unit β) p ((r.bind fun x => .ok x.1).bind fun q => .ok (q, ())) m := by
  rcases m with - | ⟨b, rest⟩
  · obtain ⟨text, rfl⟩ := h
    exact ⟨text, rfl⟩
  · obtain ⟨q, a, rfl, hpq, -⟩ := h
    exact ⟨q, (), rfl, hpq, trivial⟩

theorem Follows.map_any {α β γ : Type} {p : Parser} {r : Except Stop (Parser × α)}
    {m : Option (β × Bytes)} {g : β → γ} (h : Follows Any p r m) :
    Follows Any p r (m.map fun x => (g x.1, x.2)) := by
  rcases m with - | ⟨b, rest⟩
  · exact h
  · exact h

/-- `do_json_skip` follows the grammar, too. -/
theorem skipValue_follows {ok : Bool} : ∀ levels,
    FollowsAll ok (@Any Unit (JsonValue Bytes)) (noResult (skipValue levels)) (value ok levels)
  | 0, p, _ => ⟨_, rfl⟩
  | levels + 1, p, hok => by
    have ih : FollowsAll ok (@Any Unit (JsonValue Bytes)) (noResult (skipValue levels))
        (value ok levels) := skipValue_follows levels
    have hpw := Ahead.skipWhitespaces p
    have hok' : p.skipWhitespaces.status.isNone = ok := hok
    unfold noResult skipValue value
    refine Follows.after ?_ hpw
    have hdata := hpw.data_eq
    rw [← hdata]
    generalize p.skipWhitespaces = q at hok' ⊢
    unfold Parser.peekChar
    dsimp only
    refine .ite_bind (fun _ => (token_follows (R := Any) _ _ _ _ fun _ => trivial).forget) fun _ => ?_
    refine .ite_bind (fun _ => (token_follows (R := Any) _ _ _ _ fun _ => trivial).forget) fun _ => ?_
    refine .ite_bind (fun _ => (token_follows (R := Any) _ _ _ _ fun _ => trivial).forget) fun _ => ?_
    refine .ite_bind (fun _ => (jsonStringSkip_follows q).map_any) fun _ => ?_
    refine .ite_bind (fun hc => ?_) fun _ => ?_
    · exact (brackets_follows any_stable ih (value_shrinks ok levels) _ hok'
        (head?_of_headD hc (by decide))).forget.map_any
    refine .ite_bind (fun hc => ?_) fun _ => ?_
    · have hstable : Stable fun q (a : Unit × Unit) (b : Bytes × JsonValue Bytes) =>
          Any q a.1 b.1 ∧ Any q a.2 b.2 := fun _ _ _ _ _ h _ => h
      exact (brackets_follows hstable
        (field_follows any_stable (fun p _ => jsonStringSkip_follows p) ih)
        (pair_shrinks literal_shrinks (value_shrinks ok levels)) _ hok'
        (head?_of_headD hc (by decide))).forget.map_any
    refine .ite_bind (fun _ => ⟨_, (), rfl, Ahead.moveWhile q isNumberChar, trivial⟩) fun _ => ?_
    split_ifs
    · exact ⟨_, rfl⟩
    · exact ⟨_, rfl⟩

/-- Both run to an end with the same outcome. -/
theorem skip_decode_cases (p : Parser) (maxDepth : ℤ) :
    (∃ text text', doJsonSkip p maxDepth = .error (.error text) ∧
      doJsonDecode p maxDepth = .error (.error text')) ∨
    (∃ q r v, doJsonSkip p maxDepth = .ok q ∧ doJsonDecode p maxDepth = .ok (r, v) ∧
      q.ptr = r.ptr ∧ q.data = r.data) := by
  have hskip := skipValue_follows (maxDepth + 1).toNat p rfl
  have hdecode := decodeValue_follows (maxDepth + 1).toNat p rfl
  unfold doJsonSkip doJsonDecode
  unfold noResult at hskip
  rcases hw : value p.status.isNone (maxDepth + 1).toNat p.data with - | ⟨w, rest⟩ <;>
    rw [hw] at hskip hdecode
  · obtain ⟨text, hs⟩ := hskip
    obtain ⟨text', hd⟩ := hdecode
    rcases hv : skipValue (maxDepth + 1).toNat p with stop | q <;> rw [hv] at hs
    · obtain rfl := Except.error.inj (show Except.error stop = _ from hs)
      exact Or.inl ⟨text, text', rfl, hd⟩
    · cases hs
  · obtain ⟨q, _, hs, hpq, -⟩ := hskip
    obtain ⟨r, v, hd, hpr, -⟩ := hdecode
    rcases hv : skipValue (maxDepth + 1).toNat p with stop | q' <;> rw [hv] at hs
    · cases hs
    · obtain rfl : q' = q := (Prod.mk.inj (Except.ok.inj hs)).1
      have h1 := hpq.ptr_eq
      have h2 := hpr.ptr_eq
      exact Or.inr ⟨q', r, v, rfl, hd, by omega, by rw [hpq.data_eq, hpr.data_eq]⟩

/-- **Decoding and skipping agree.**  From every position of every buffer and for every depth
`do_json_skip` succeeds exactly when `do_json_decode` does, and then both leave the parser at the
same position with the same bytes in front of it; where they do not succeed both end with an error,
not with a failed `CHECK` and not by running forever. -/
theorem skip_iff_decode (p : Parser) (maxDepth : ℤ) :
    ((∃ q, doJsonSkip p maxDepth = .ok q) ↔ ∃ r v, doJsonDecode p maxDepth = .ok (r, v)) ∧
    (∀ q r v, doJsonSkip p maxDepth = .ok q → doJsonDecode p maxDepth = .ok (r, v) →
      q.ptr = r.ptr ∧ q.data = r.data) ∧
    (∀ stop, doJsonSkip p maxDepth = .error stop ∨ doJsonDecode p maxDepth = .error stop →
      ∃ text, stop = .error text) := by
  rcases skip_decode_cases p maxDepth with ⟨text, text', hs, hd⟩ | ⟨q, r, v, hs, hd, hptr, hdata⟩
  · rw [hs, hd]
    refine ⟨by simp, by simp, ?_⟩
    rintro stop (h | h)
    · exact ⟨text, (Except.error.inj h).symm⟩
    · exact ⟨text', (Except.error.inj h).symm⟩
  · rw [hs, hd]
    refine ⟨⟨fun _ => ⟨r, v, rfl⟩, fun _ => ⟨q, rfl⟩⟩, ?_, by simp⟩
    rintro q' r' v' hq hr
    cases hq
    cases hr
    exact ⟨hptr, hdata⟩

end TdUtils.Json
