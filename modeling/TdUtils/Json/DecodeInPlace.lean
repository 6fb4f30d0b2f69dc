import TdUtils.Json.DecodeFollows

/-!
# Json.DecodeInPlace — the string decoder with the writes that it makes

The same decoder, with the buffer and the parser as they are left when it stops with an error, and a
record of every write: where it went, how long it was, and how far the source had been read by then.
The content of a literal is a sequence of plain bytes and of backslashes with the byte behind them; every
round starts between two of these.
-/

namespace TdUtils.Json

open Lib Bytes

/-- `size` bytes were written at `dest`, when `cur_src` was `src`. -/
structure Write where
  dest : ℕ
  size : ℕ
  src : ℕ
deriving DecidableEq

/-- The loop: the buffer, `cur_src`, `cur_dest` and the writes so far. -/
structure InPlace where
  buf : Bytes
  src : ℕ
  dest : ℕ
  writes : List Write
deriving DecidableEq

namespace InPlace

/-- Write at `cur_dest` what was read up to `src`. -/
def put (d : InPlace) (bytes : Bytes) (src : ℕ) : InPlace :=
  ⟨write d.buf d.dest bytes, src, d.dest + bytes.length, d.writes ++ [⟨d.dest, bytes.length, src⟩]⟩

/-- A round behind the `memmove`. -/
def escape (endSrc : ℕ) (d : InPlace) : InPlace × Option Stop :=
  if d.src = endSrc then (d, none)
  else
    let d := { d with src := d.src + 1 }
    if d.src = endSrc then (d, some (.error "Unexpected end of string"))
    else
      match shortEscape (d.buf.getD d.src 0) with
      | some b => (d.put [b] (d.src + 1), none)
      | none =>
        if d.buf.getD d.src 0 = ch 'u' then
          match readCode d.buf (d.src + 1) endSrc with
          | .error e => (d, some e)
          | .ok (num, src) => (d.put (codeBytes num) src, none)
        else (d, none)

/-- The `memmove` up to the next backslash, and what is behind it. -/
def round (endSrc : ℕ) (d : InPlace) : InPlace × Option Stop :=
  let bytes := run d.buf d.src endSrc
  escape endSrc (d.put bytes (d.src + bytes.length))

/-- `while (cur_src != end_src)`. -/
def rounds (endSrc : ℕ) : ℕ → InPlace → InPlace × Option Stop
  | 0, d => (d, some .fuel)
  | fuel + 1, d =>
    if d.src = endSrc then (d, none)
    else
      match d.round endSrc with
      | (d, some e) => (d, some e)
      | (d, none) => rounds endSrc fuel d

end InPlace

/-- The parser as it is left, the writes, and what is returned. -/
structure Outcome where
  parser : Parser
  writes : List Write
  result : Except Stop Slice

/-- `json_string_decode`, all that it does. -/
def stringDecode (p : Parser) : Outcome :=
  match p.trySkip (ch '"') with
  | none => ⟨p, [], .error (.error "Opening '\"' expected")⟩
  | some p =>
    match closingQuote p.data with
    | none => ⟨p, [], .error (.error "Closing '\"' not found")⟩
    | some n =>
      match p.advance (n + 1) with
      | .error e => ⟨p, [], .error e⟩
      | .ok q =>
        match InPlace.rounds (p.ptr + n) (n + 1) ⟨p.buf, p.ptr, p.ptr, []⟩ with
        | (d, some e) => ⟨{ q with buf := d.buf }, d.writes, .error e⟩
        | (d, none) => ⟨{ q with buf := d.buf }, d.writes,
            if d.dest ≤ p.ptr + n then .ok ⟨p.ptr, d.dest - p.ptr⟩ else .error .check⟩

/-! ### The same answers -/

theorem InPlace.escape_eq (endSrc : ℕ) (next : Bytes → ℕ → ℕ → Except Stop (Bytes × ℕ)) (d : InPlace) :
    decodeEscape endSrc next d.buf d.src d.dest =
      match d.escape endSrc with
      | (_, some e) => .error e
      | (d', none) => next d'.buf d'.src d'.dest := by
  unfold decodeEscape escape
  dsimp only
  by_cases hend : d.src = endSrc
  · rw [if_pos hend, if_pos hend]
  rw [if_neg hend, if_neg hend]
  by_cases hlast : d.src + 1 = endSrc
  · rw [if_pos hlast, if_pos hlast]
  rw [if_neg hlast, if_neg hlast]
  cases shortEscape (d.buf.getD (d.src + 1) 0) with
  | some b => rfl
  | none =>
    dsimp only
    by_cases hu : d.buf.getD (d.src + 1) 0 = ch 'u'
    · rw [if_pos hu, if_pos hu]
      cases readCode d.buf (d.src + 1 + 1) endSrc with
      | error e => rfl
      | ok r => rfl
    · rw [if_neg hu, if_neg hu]

theorem InPlace.rounds_eq (endSrc : ℕ) : ∀ (fuel : ℕ) (d : InPlace),
    decodeString endSrc fuel d.buf d.src d.dest =
      match d.rounds endSrc fuel with
      | (_, some e) => .error e
      | (d', none) => .ok (d'.buf, d'.dest)
  | 0, _ => rfl
  | fuel + 1, d => by
    rw [decodeString, rounds]
    by_cases hsrc : d.src = endSrc
    · rw [if_pos hsrc, if_pos hsrc]
    rw [if_neg hsrc, if_neg hsrc]
    have hescape := escape_eq endSrc (decodeString endSrc fuel)
      (d.put (Json.run d.buf d.src endSrc) (d.src + (Json.run d.buf d.src endSrc).length))
    refine hescape.trans ?_
    unfold round
    dsimp only
    rcases escape endSrc (d.put (Json.run d.buf d.src endSrc)
      (d.src + (Json.run d.buf d.src endSrc).length)) with ⟨d', - | e⟩
    · exact rounds_eq endSrc fuel d'
    · rfl

/-- The decoder of the values says the same, where it has something to say. -/
theorem jsonStringDecode_eq (p : Parser) : jsonStringDecode p =
    match (stringDecode p).result with
    | .ok slice => .ok ((stringDecode p).parser, slice)
    | .error e => .error e := by
  unfold jsonStringDecode stringDecode
  cases p.trySkip (ch '"') with
  | none => rfl
  | some p =>
    dsimp only
    cases closingQuote p.data with
    | none => rfl
    | some n =>
      dsimp only
      have hrounds := InPlace.rounds_eq (p.ptr + n) (n + 1) ⟨p.buf, p.ptr, p.ptr, []⟩
      dsimp only at hrounds
      unfold Parser.advance
      split_ifs with hadvance
      · show Except.bind (decodeString (p.ptr + n) (n + 1) p.buf p.ptr p.ptr) _ = _
        rw [hrounds]
        rcases InPlace.rounds (p.ptr + n) (n + 1) ⟨p.buf, p.ptr, p.ptr, []⟩ with ⟨d, - | e⟩
        · dsimp only [Except.bind]
          split_ifs <;> rfl
        · rfl
      · rfl

/-! ### The content of a literal -/

inductive Content : Bytes → Prop
  | nil : Content []
  | plain {c : UInt8} {s : Bytes} (hquote : c ≠ ch '"') (hslash : c ≠ ch '\\') (h : Content s) :
    Content (c :: s)
  | escaped {c : UInt8} {s : Bytes} (h : Content s) : Content (ch '\\' :: c :: s)

theorem slash_ne_quote : ch '\\' ≠ ch '"' := by decide

theorem content_of_closingQuote : ∀ {s : Bytes} {n : ℕ}, closingQuote s = some n → Content (s.take n)
  | c :: s, n, h => by
    unfold closingQuote at h
    split_ifs at h with hquote hslash
    · obtain rfl := Option.some.inj h
      exact .nil
    · subst hslash
      rcases s with - | ⟨d, s⟩
      · cases h
      · obtain ⟨m, hm, hn⟩ := Option.bind_eq_some_iff.mp h
        obtain rfl := Option.some.inj hn
        exact .escaped (content_of_closingQuote hm)
    · obtain ⟨m, hm, hn⟩ := Option.bind_eq_some_iff.mp h
      obtain rfl := Option.some.inj hn
      exact .plain hquote hslash (content_of_closingQuote hm)

theorem Content.closingQuote {s : Bytes} (h : Content s) (post : Bytes) :
    closingQuote (s ++ ch '"' :: post) = some s.length := by
  induction h with
  | nil =>
    rw [List.nil_append, Json.closingQuote.eq_def]
    exact if_pos rfl
  | plain hquote hslash _ ih =>
    rw [List.cons_append, Json.closingQuote.eq_def]
    dsimp only
    rw [if_neg hquote, if_neg hslash, ih]
    rfl
  | escaped _ ih =>
    rw [List.cons_append, List.cons_append, Json.closingQuote.eq_def]
    dsimp only
    rw [if_neg slash_ne_quote, if_pos rfl, ih]
    rfl

/-- Behind bytes that are not backslashes the content goes on. -/
theorem Content.of_append {s : Bytes} : ∀ {bytes : Bytes}, (∀ b ∈ bytes, b ≠ ch '\\') →
    Content (bytes ++ s) → Content s
  | [], _, h => h
  | b :: bytes, hbytes, h => by
    obtain ⟨hb, hbytes⟩ := List.forall_mem_cons.mp hbytes
    rw [List.cons_append] at h
    generalize hs : bytes ++ s = rest at h
    cases h with
    | plain _ _ h => exact of_append hbytes (hs ▸ h)
    | escaped h => exact absurd rfl hb

theorem hexNumber_not_slash : ∀ {ds : Bytes} {num n : ℕ}, hexNumber num ds = some n →
    ∀ d ∈ ds, d ≠ ch '\\'
  | d :: ds, num, n, h => by
    unfold hexNumber at h
    split_ifs at h with hd
    refine List.forall_mem_cons.mpr ⟨?_, hexNumber_not_slash h⟩
    rintro rfl
    exact hd (by decide)
  | [], _, _, _ => List.forall_mem_nil _

/-- The escapes behind `\u` are whole, too. -/
theorem Content.of_code {s rest : Bytes} {num : ℕ} (h : Content s) (hcode : code s = some (num, rest)) :
    Content rest := by
  by_cases h4 : s.length < 4
  · rw [code, if_pos h4] at hcode
    cases hcode
  have hdrop : ∀ {t : Bytes} {num n : ℕ}, Content t → hexNumber num (t.take 4) = some n →
      Content (t.drop 4) := fun {t} _ _ ht hn =>
    Content.of_append (hexNumber_not_slash hn) (by rwa [List.take_append_drop])
  rw [code_eq (by omega)] at hcode
  obtain ⟨n, hn, hcode⟩ := Option.bind_eq_some_iff.mp hcode
  have hfirst := hdrop h hn
  split_ifs at hcode with hpair
  · obtain ⟨m, hm, hcode⟩ := Option.bind_eq_some_iff.mp hcode
    split_ifs at hcode
    · obtain ⟨-, rfl⟩ := Prod.mk.inj (Option.some.inj hcode)
      have hu : s.drop 4 = ch '\\' :: ch 'u' :: (s.drop 4).drop 2 := by
        conv_lhs => rw [← List.take_append_drop 2 (s.drop 4), hpair.2.2]
        rfl
      rw [hu] at hfirst
      cases hfirst with
      | plain _ hslash _ => exact absurd rfl hslash
      | escaped hsecond =>
        have hthird := hdrop hsecond hm
        rwa [List.drop_drop] at hthird
    · obtain ⟨-, rfl⟩ := Prod.mk.inj (Option.some.inj hcode)
      exact hfirst
  · obtain ⟨-, rfl⟩ := Prod.mk.inj (Option.some.inj hcode)
    exact hfirst

/-! ### The loop -/

/-- An error other than the one at the end of the content. -/
def Expected (stop : Stop) : Prop := ∃ text, stop = .error text ∧ text ≠ "Unexpected end of string"

theorem readHex_expected (buf : Bytes) : ∀ (n src num : ℕ) {stop : Stop},
    readHex buf src n num = .error stop → Expected stop
  | n + 1, src, num, stop, h => by
    unfold readHex at h
    dsimp only at h
    split_ifs at h with hd
    · cases h
      exact ⟨_, rfl, by decide⟩
    · exact readHex_expected buf n (src + 1) _ h

theorem readCode_expected {buf : Bytes} {src endSrc : ℕ} {stop : Stop}
    (h : readCode buf src endSrc = .error stop) : Expected stop := by
  unfold readCode at h
  simp only [bind, Except.bind, pure, Except.pure, throw, throwThe, MonadExceptOf.throw] at h
  split_ifs at h with hshort
  · cases h
    exact ⟨_, rfl, by decide⟩
  · cases hfirst : readHex buf src 4 0 with
    | error e =>
      rw [hfirst] at h
      cases h
      exact readHex_expected buf 4 src 0 hfirst
    | ok num =>
      rw [hfirst] at h
      dsimp only at h
      split_ifs at h
      cases hsecond : readHex buf (src + 4 + 2) 4 0 with
      | error e =>
        rw [hsecond] at h
        cases h
        exact readHex_expected buf 4 _ 0 hsecond
      | ok num' =>
        rw [hsecond] at h
        dsimp only at h
        split_ifs at h

namespace InPlace

/-- The loop stands before the rest `s` of the content: nothing before `pre` and behind the content has
changed, and no write went as far as the source was read. -/
structure Ready (pre post : Bytes) (endSrc : ℕ) (d : InPlace) (s : Bytes) : Prop where
  layout : ∃ out gap, At post (pre ++ out) gap s d.buf endSrc d.src d.dest
  content : Content s
  writes : ∀ w ∈ d.writes, pre.length ≤ w.dest ∧ w.dest + w.size ≤ w.src ∧ w.src ≤ endSrc

variable {pre post s x bytes : Bytes} {endSrc fuel : ℕ} {d : InPlace}

theorem Ready.src_add (h : Ready pre post endSrc d s) : d.src + s.length = endSrc := by
  obtain ⟨out, gap, hat⟩ := h.layout
  have hsrc := hat.src_eq
  have hend := hat.end_eq
  omega

/-- After `x` was read and no more bytes than these are written. -/
theorem Ready.put (h : Ready pre post endSrc d (x ++ s)) (hs : Content s) {src : ℕ}
    (hsrc : src = d.src + x.length) (hbytes : bytes.length ≤ x.length) :
    Ready pre post endSrc (d.put bytes src) s := by
  have hadd := h.src_add
  obtain ⟨out, gap, hat⟩ := h.layout
  have hread := hat.read x
  rw [← hsrc] at hread
  have hroom : bytes.length ≤ (gap ++ x).length := by
    rw [List.length_append]
    omega
  have hwrite := hread.write hroom
  have hdest := hat.dest_eq
  have hbefore := hat.src_eq
  rw [List.length_append] at hadd hdest hbefore
  refine ⟨⟨out ++ bytes, (gap ++ x).drop bytes.length, ?_⟩, hs, ?_⟩
  · rw [← List.append_assoc]
    exact hwrite
  · intro w hw
    rcases List.mem_append.mp hw with hw | hw
    · exact h.writes w hw
    · obtain rfl := List.mem_singleton.mp hw
      dsimp only
      omega

/-- What a round comes to: it takes something off the content, or stops there with an error. -/
def Goes (pre post : Bytes) (endSrc n : ℕ) (r : InPlace × Option Stop) : Prop :=
  ∃ s', Ready pre post endSrc r.1 s' ∧
    (r.2 = none ∧ s'.length < n ∨ ∃ stop, r.2 = some stop ∧ Expected stop)

theorem Ready.escape (h : Ready pre post endSrc d s) (hs : s = [] ∨ ∃ t, s = ch '\\' :: t) {n : ℕ}
    (hn : s.length ≤ n) (hpos : 0 < n) : Goes pre post endSrc n (d.escape endSrc) := by
  have hadd := h.src_add
  unfold InPlace.escape
  rcases hs with rfl | ⟨t, rfl⟩
  · rw [if_pos (by simpa using hadd)]
    exact ⟨[], h, Or.inl ⟨rfl, hpos⟩⟩
  obtain ⟨c, t, rfl, ht⟩ : ∃ c t', t = c :: t' ∧ Content t' := by
    cases h.content with
    | plain _ hslash _ => exact absurd rfl hslash
    | escaped ht => exact ⟨_, _, rfl, ht⟩
  rw [List.length_cons, List.length_cons] at hadd hn
  obtain ⟨out, gap, hat⟩ := h.layout
  have h1 : At post (pre ++ out) (gap ++ [ch '\\']) (c :: t) d.buf endSrc (d.src + 1) d.dest :=
    hat.read [ch '\\']
  have h2 : At post (pre ++ out) (gap ++ [ch '\\'] ++ [c]) t d.buf endSrc (d.src + 1 + 1) d.dest :=
    h1.read [c]
  rw [if_neg (by omega)]
  dsimp only
  rw [if_neg (by omega), h1.getD_eq]
  cases hshort : shortEscape c with
  | some b =>
    refine ⟨t, ?_, Or.inl ⟨rfl, by omega⟩⟩
    exact Ready.put (x := [ch '\\', c]) (d := d) h ht rfl (by simp)
  | none =>
    have hquote : c ≠ ch '"' := by
      rintro rfl
      simp [shortEscape] at hshort
    have hnext : Content (c :: t) := .plain hquote (shortEscape_backslash hshort) ht
    have hready : Ready pre post endSrc { d with src := d.src + 1 } (c :: t) :=
      ⟨⟨out, _, h1⟩, hnext, h.writes⟩
    dsimp only
    split_ifs with hu
    · have hcode := h2.readCode_eq
      cases hread : readCode d.buf (d.src + 1 + 1) endSrc with
      | error stop => exact ⟨c :: t, hready, Or.inr ⟨stop, rfl, readCode_expected hread⟩⟩
      | ok r =>
        obtain ⟨num, src⟩ := r
        rcases hc : code t with - | ⟨num', rest⟩
        · rw [hc, hread] at hcode
          obtain ⟨text, htext⟩ := hcode
          cases htext
        · rw [hc, hread] at hcode
          cases hcode
          obtain ⟨k, hk, hkt, rfl⟩ := length_le_of_code hc
          have hcb := length_codeBytes_le num
          refine ⟨t.drop k, ?_, Or.inl ⟨rfl, by rw [List.length_drop]; omega⟩⟩
          refine Ready.put (x := ch '\\' :: c :: t.take k) (d := d) ?_ (ht.of_code hc) ?_ ?_
          · rw [List.cons_append, List.cons_append, List.take_append_drop]
            exact h
          · rw [List.length_cons, List.length_cons, List.length_drop, List.length_take_of_le hkt]
            omega
          · rw [List.length_cons, List.length_cons, List.length_take_of_le hkt]
            omega
    · exact ⟨c :: t, hready, Or.inl ⟨rfl, by rw [List.length_cons]; omega⟩⟩

theorem Ready.round (h : Ready pre post endSrc d s) (hs : s ≠ []) :
    Goes pre post endSrc s.length (d.round endSrc) := by
  obtain ⟨out, gap, hat⟩ := h.layout
  obtain ⟨bytes, tail, hbytes, rfl, hmem, hhead⟩ := split_at_backslash s
  have hrun : Json.run d.buf d.src endSrc = bytes := hat.run_eq.trans hbytes
  unfold InPlace.round
  dsimp only
  rw [hrun]
  have hput : Ready pre post endSrc (d.put bytes (d.src + bytes.length)) tail :=
    h.put (h.content.of_append hmem) rfl (Nat.le_refl _)
  refine hput.escape hhead (by rw [List.length_append]; omega) ?_
  exact List.length_pos_of_ne_nil hs

/-- The loop ends in time, at the end of the content or with an error that is expected. -/
theorem Ready.rounds : ∀ (fuel : ℕ) {d : InPlace} {s : Bytes}, Ready pre post endSrc d s →
    s.length < fuel → ∃ s', Ready pre post endSrc (d.rounds endSrc fuel).1 s' ∧
      ((d.rounds endSrc fuel).2 = none ∨ ∃ stop, (d.rounds endSrc fuel).2 = some stop ∧ Expected stop)
  | fuel + 1, d, s, h, hlen => by
    have hadd := h.src_add
    rw [InPlace.rounds]
    by_cases hsrc : d.src = endSrc
    · rw [if_pos hsrc]
      exact ⟨s, h, Or.inl rfl⟩
    rw [if_neg hsrc]
    have hs : s ≠ [] := by
      rintro rfl
      exact hsrc (by simpa using hadd)
    obtain ⟨s', hready, ⟨hnone, hlt⟩ | ⟨stop, hstop, hexpected⟩⟩ := h.round hs
    · rcases hr : d.round endSrc with ⟨d', r⟩
      rw [hr] at hready hnone
      dsimp only at hready hnone
      subst hnone
      exact hready.rounds fuel (by omega)
    · rcases hr : d.round endSrc with ⟨d', r⟩
      rw [hr] at hready hstop
      dsimp only at hready hstop
      subst hstop
      exact ⟨s', hready, Or.inr ⟨stop, rfl, hexpected⟩⟩

end InPlace

end TdUtils.Json
