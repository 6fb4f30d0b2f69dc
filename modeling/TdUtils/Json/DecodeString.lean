import Mathlib.Data.List.TakeWhile
import TdUtils.Json.Grammar

/-!
# Json.DecodeString — the string scanners follow the grammar

While `decodeString` runs the buffer is `done ++ gap ++ s ++ post`: what was written so far ends at
`dest`, and the unread content `s` starts at `src` and ends at the closing quote.  A write takes its
room from the gap, since no element of a literal writes more bytes than it takes.
-/

namespace TdUtils.Json

open Lib Bytes

/-! ### Reading and writing the buffer -/

theorem getD_append_cons (front s : Bytes) (c : UInt8) :
    (front ++ c :: s).getD front.length 0 = c := by
  simp [List.getD_eq_getElem?_getD]

theorem write_append {gap bytes : Bytes} (done tail : Bytes) (h : bytes.length ≤ gap.length) :
    write (done ++ (gap ++ tail)) done.length bytes =
      done ++ bytes ++ (gap.drop bytes.length ++ tail) := by
  unfold write
  rw [List.take_left, ← List.drop_drop, List.drop_left, List.drop_append_of_le_length h]

theorem run_append (front s post : Bytes) :
    run (front ++ (s ++ post)) front.length (front.length + s.length) =
      s.takeWhile (· ≠ ch '\\') := by
  unfold run
  rw [← List.append_assoc, ← List.length_append, List.take_left, List.drop_left]

theorem readHex_append (post : Bytes) : ∀ (ds front : Bytes) (num : ℕ),
    readHex (front ++ (ds ++ post)) front.length ds.length num =
      match hexNumber num ds with
      | none => .error (.error "Invalid \\u -- not hex digit")
      | some n => .ok n
  | [], _, _ => rfl
  | d :: ds, front, num => by
    have ih := readHex_append post ds (front ++ [d]) (num * 16 + hexToInt d)
    rw [List.length_append, List.length_singleton, List.append_assoc] at ih
    rw [List.length_cons, readHex, List.cons_append, getD_append_cons, hexNumber]
    split_ifs with hd
    · rfl
    · exact ih

theorem readHex_four {s : Bytes} (front post : Bytes) (h : 4 ≤ s.length) :
    readHex (front ++ (s ++ post)) front.length 4 0 =
      match hexNumber 0 (s.take 4) with
      | none => .error (.error "Invalid \\u -- not hex digit")
      | some n => .ok n := by
  have hr := readHex_append (s.drop 4 ++ post) (s.take 4) front 0
  rw [← List.append_assoc (s.take 4), List.take_append_drop, List.length_take_of_le h] at hr
  exact hr

theorem length_codeBytes_le (num : ℕ) : (codeBytes num).length ≤ 4 := by
  unfold codeBytes
  split_ifs <;> simp

theorem code_eq {s : Bytes} (h : 4 ≤ s.length) : code s =
    (hexNumber 0 (s.take 4)).bind fun num =>
      if isSurrogate num ∧ 6 ≤ (s.drop 4).length ∧ (s.drop 4).take 2 = chs ['\\', 'u'] then
        (hexNumber 0 (((s.drop 4).drop 2).take 4)).bind fun newNum =>
          if isSurrogate newNum then
            some (((num &&& 0x3FF) <<< 10 ||| (newNum &&& 0x3FF)) + 0x10000, (s.drop 4).drop 6)
          else some (num, s.drop 4)
      else some (num, s.drop 4) := by
  unfold code
  rw [if_neg (by omega)]
  rfl

/-- The look ahead of the source, which reads two bytes of the buffer, on the list. -/
theorem lookahead_iff (front t post : Bytes) (h : 6 ≤ t.length) :
    ((front ++ (t ++ post)).getD front.length 0 = ch '\\' ∧
      (front ++ (t ++ post)).getD (front.length + 1) 0 = ch 'u') ↔
    t.take 2 = chs ['\\', 'u'] := by
  rcases t with - | ⟨c, - | ⟨d, t⟩⟩
  · simp at h
  · simp at h
  · have h1 := getD_append_cons (front ++ [c]) (t ++ post) d
    rw [List.append_assoc, List.singleton_append, List.length_append, List.length_singleton] at h1
    rw [List.cons_append, getD_append_cons, List.cons_append, h1]
    simp [chs]

/-- What `readCode` says against what the grammar says. -/
theorem readCode_append (front s post : Bytes) :
    match code s with
    | none => ∃ text, readCode (front ++ (s ++ post)) front.length (front.length + s.length) =
        .error (.error text)
    | some (num, rest) =>
      readCode (front ++ (s ++ post)) front.length (front.length + s.length) =
        .ok (num, front.length + (s.length - rest.length)) := by
  by_cases h4 : s.length < 4
  · simp only [code, h4, if_true]
    exact ⟨_, by rw [readCode, if_pos (by omega)]; rfl⟩
  rw [code_eq (by omega), readCode, if_neg (by omega), readHex_four front post (by omega)]
  rcases hexNumber 0 (s.take 4) with - | num
  · exact ⟨_, rfl⟩
  have hfront : (front ++ s.take 4).length = front.length + 4 := by
    rw [List.length_append, List.length_take_of_le (by omega)]
  have hbuf : front ++ (s ++ post) = front ++ s.take 4 ++ (s.drop 4 ++ post) := by
    rw [List.append_assoc, ← List.append_assoc (s.take 4), List.take_append_drop]
  have hlen : (s.drop 4).length = s.length - 4 := List.length_drop
  have hlook := lookahead_iff (front ++ s.take 4) (s.drop 4) post
  rw [hfront, ← hbuf] at hlook
  have hiff : (isSurrogate num ∧ front.length + 4 + 6 ≤ front.length + s.length ∧
        (front ++ (s ++ post)).getD (front.length + 4) 0 = ch '\\' ∧
        (front ++ (s ++ post)).getD (front.length + 4 + 1) 0 = ch 'u') ↔
      (isSurrogate num ∧ 6 ≤ (s.drop 4).length ∧ (s.drop 4).take 2 = chs ['\\', 'u']) := by
    constructor
    · rintro ⟨h1, h2, h3⟩
      exact ⟨h1, by omega, (hlook (by omega)).mp h3⟩
    · rintro ⟨h1, h2, h3⟩
      exact ⟨h1, by omega, (hlook h2).mpr h3⟩
  simp only [Option.bind_some, bind, Except.bind, pure, Except.pure]
  by_cases hc : isSurrogate num ∧ 6 ≤ (s.drop 4).length ∧ (s.drop 4).take 2 = chs ['\\', 'u']
  · rw [if_pos hc, if_pos (hiff.mpr hc)]
    have h6 : 6 ≤ (s.drop 4).length := hc.2.1
    have hr := readHex_four (front ++ s.take 4 ++ (s.drop 4).take 2) post
      (show 4 ≤ ((s.drop 4).drop 2).length by rw [List.length_drop]; omega)
    rw [List.append_assoc (front ++ s.take 4), ← List.append_assoc ((s.drop 4).take 2),
      List.take_append_drop, ← hbuf, List.length_append, hfront,
      List.length_take_of_le (show 2 ≤ (s.drop 4).length by omega)] at hr
    rw [hr]
    rcases hexNumber 0 (((s.drop 4).drop 2).take 4) with - | newNum
    · exact ⟨_, rfl⟩
    · simp only [Option.bind_some]
      split_ifs with hs
      · simp only [List.length_drop, Except.ok.injEq, Prod.mk.injEq, true_and]
        omega
      · simp only [List.length_drop, Except.ok.injEq, Prod.mk.injEq, true_and]
        omega
  · rw [if_neg hc, if_neg (fun h => hc (hiff.mp h))]
    simp only [List.length_drop, Except.ok.injEq, Prod.mk.injEq, true_and]
    omega

/-! ### The loops -/

/-- Bytes before the first backslash stand for themselves. -/
theorem items_append : ∀ (bytes s : Bytes), (∀ b ∈ bytes, b ≠ ch '\\') →
    items (bytes ++ s) = (items s).map (bytes.map Item.byte ++ ·)
  | [], s, _ => by simp
  | b :: bytes, s, h => by
    obtain ⟨hb, h⟩ := List.forall_mem_cons.mp h
    have hi : item (b :: bytes ++ s) = some (.byte b, bytes ++ s) := if_neg hb
    rw [items_of_item hi, items_append bytes s h]
    simp [Function.comp_def]

theorem bytesOf_map_byte : ∀ bytes : Bytes, bytesOf (bytes.map Item.byte) = bytes
  | [] => rfl
  | b :: bytes => by
    have ih := bytesOf_map_byte bytes
    unfold bytesOf at ih ⊢
    rw [List.map_cons, List.flatMap_cons, ih]
    rfl

/-- The state of the loop: the buffer is `done ++ gap ++ s ++ post`, `dest` is behind `done`, `src`
before `s` and `end_src` behind it. -/
structure At (post done gap s buf : Bytes) (endSrc src dest : ℕ) : Prop where
  buf_eq : buf = done ++ (gap ++ (s ++ post))
  dest_eq : dest = done.length
  src_eq : src = done.length + gap.length
  end_eq : endSrc = done.length + gap.length + s.length

section At

variable {post done gap s buf : Bytes} {endSrc src dest : ℕ}

/-- Bytes that were read belong to the gap. -/
theorem At.read (x : Bytes) (h : At post done gap (x ++ s) buf endSrc src dest) :
    At post done (gap ++ x) s buf endSrc (src + x.length) dest := by
  obtain ⟨hb, hd, hs, he⟩ := h
  rw [List.length_append] at he
  refine ⟨?_, hd, ?_, ?_⟩
  · rw [hb]
    simp only [List.append_assoc]
  · rw [List.length_append]
    omega
  · rw [List.length_append]
    omega

/-- A write into the gap. -/
theorem At.write {out : Bytes} (h : At post done gap s buf endSrc src dest)
    (hout : out.length ≤ gap.length) :
    At post (done ++ out) (gap.drop out.length) s (write buf dest out) endSrc src
      (dest + out.length) := by
  obtain ⟨hb, hd, hs, he⟩ := h
  refine ⟨?_, ?_, ?_, ?_⟩
  · rw [hb, hd, write_append done (s ++ post) hout]
  all_goals
    simp only [List.length_append, List.length_drop]
    omega

theorem At.run_eq (h : At post done gap s buf endSrc src dest) :
    run buf src endSrc = s.takeWhile (· ≠ ch '\\') := by
  obtain ⟨hb, hd, hs, he⟩ := h
  have hr := run_append (done ++ gap) s post
  rw [List.append_assoc, List.length_append] at hr
  rw [hb, hs, he, hr]

theorem At.getD_eq {c : UInt8} (h : At post done gap (c :: s) buf endSrc src dest) :
    buf.getD src 0 = c := by
  obtain ⟨hb, hd, hs, he⟩ := h
  have hg := getD_append_cons (done ++ gap) (s ++ post) c
  rw [List.append_assoc, List.length_append] at hg
  rw [hb, hs]
  exact hg

theorem At.readCode_eq (h : At post done gap s buf endSrc src dest) :
    match code s with
    | none => ∃ text, readCode buf src endSrc = .error (.error text)
    | some (num, rest) => readCode buf src endSrc = .ok (num, src + (s.length - rest.length)) := by
  obtain ⟨hb, hd, hs, he⟩ := h
  have hr := readCode_append (done ++ gap) s post
  have he' : done.length + gap.length + s.length = endSrc := he.symm
  rwa [List.append_assoc, List.length_append, ← hb, he', ← hs] at hr

end At

/-- The buffer and `dest` at the end of `decodeString`, or an error; `room` is how far `end_src`
is from `dest`. -/
def Decoded (done post : Bytes) (room : ℕ) (r : Except Stop (Bytes × ℕ)) :
    Option (List Item) → Prop
  | none => ∃ text, r = .error (.error text)
  | some is => ∃ junk : Bytes, (bytesOf is).length + junk.length = room ∧
      r = .ok (done ++ bytesOf is ++ (junk ++ post), (done ++ bytesOf is).length)

theorem Decoded.of_map {done post : Bytes} {endSrc dest : ℕ} {r : Except Stop (Bytes × ℕ)}
    {is : List Item} {tail : Option (List Item)} (hroom : dest + (bytesOf is).length ≤ endSrc)
    (h : Decoded (done ++ bytesOf is) post (endSrc - (dest + (bytesOf is).length)) r tail) :
    Decoded done post (endSrc - dest) r (tail.map (is ++ ·)) := by
  rcases tail with - | is'
  · exact h
  · obtain ⟨junk, hj, hr⟩ := h
    have hb : bytesOf (is ++ is') = bytesOf is ++ bytesOf is' := List.flatMap_append
    refine ⟨junk, ?_, ?_⟩
    · rw [hb, List.length_append]
      omega
    · rw [hr, hb]
      simp only [List.append_assoc]

theorem shortEscape_backslash {c : UInt8} (h : shortEscape c = none) : c ≠ ch '\\' := by
  rintro rfl
  simp [shortEscape] at h

/-- The elements behind a backslash. -/
theorem items_backslash (c : UInt8) (s : Bytes) : items (ch '\\' :: c :: s) =
    match shortEscape c with
    | some b => (items s).map ([Item.byte b] ++ ·)
    | none =>
      if c = ch 'u' then (code s).bind fun r => (items r.2).map ([Item.code r.1] ++ ·)
      else items (c :: s) := by
  have hitem : item (ch '\\' :: c :: s) = escape (c :: s) := by simp [item]
  unfold escape at hitem
  rcases hc : shortEscape c with - | b
  · simp only [hc] at hitem ⊢
    by_cases hu : c = ch 'u'
    · rw [if_pos hu] at hitem ⊢
      rcases hr : code s with - | ⟨num, rest⟩
      · rw [hr] at hitem
        exact items_of_none (by simp) hitem
      · rw [hr] at hitem
        exact items_of_item hitem
    · rw [if_neg hu] at hitem ⊢
      have hi : item (c :: s) = some (.byte c, s) := if_neg (shortEscape_backslash hc)
      rw [items_of_item hi, items_of_item hitem]
  · simp only [hc] at hitem ⊢
    exact items_of_item hitem

section Rounds

variable {post : Bytes} {fuel : ℕ}

/-- What the rounds that `fuel` allows do. -/
def Rounds (post : Bytes) (fuel : ℕ) : Prop :=
  ∀ ⦃s done gap buf : Bytes⦄ ⦃endSrc src dest : ℕ⦄, s.length < fuel →
    At post done gap s buf endSrc src dest →
    Decoded done post (endSrc - dest) (decodeString endSrc fuel buf src dest) (items s)

/-- The rounds after a write into the gap. -/
theorem Rounds.write (ih : Rounds post fuel) {s done gap buf : Bytes} {endSrc src dest : ℕ}
    (h : At post done gap s buf endSrc src dest) (hlen : s.length < fuel) (is : List Item)
    (hout : (bytesOf is).length ≤ gap.length) :
    Decoded done post (endSrc - dest)
      (decodeString endSrc fuel (write buf dest (bytesOf is)) src (dest + (bytesOf is).length))
      ((items s).map (is ++ ·)) := by
  have hend := h.end_eq
  have hdest := h.dest_eq
  exact Decoded.of_map (by omega) (ih hlen (h.write hout))

/-- The part of a round behind the `memmove`: nothing is left, or a backslash comes next. -/
theorem Rounds.escape (ih : Rounds post fuel) {s done gap buf : Bytes} {endSrc src dest : ℕ}
    (h : At post done gap s buf endSrc src dest) (hs : s = [] ∨ ∃ t, s = ch '\\' :: t)
    (hfuel : 0 < fuel) (hlen : s.length ≤ fuel) :
    Decoded done post (endSrc - dest)
      (decodeEscape endSrc (decodeString endSrc fuel) buf src dest) (items s) := by
  have hend := h.end_eq
  have hsrc := h.src_eq
  unfold decodeEscape
  rcases hs with rfl | ⟨t, rfl⟩
  · rw [if_pos (by simpa [hsrc] using hend.symm)]
    exact ih hfuel h
  rw [List.length_cons] at hlen hend
  rw [if_neg (by omega)]
  rcases t with - | ⟨c, t⟩
  · rw [List.length_nil] at hend
    rw [if_pos (by omega), items_of_none (by simp) (by simp [item, TdUtils.Json.escape])]
    exact ⟨_, rfl⟩
  rw [List.length_cons] at hlen hend
  have h1 : At post done (gap ++ [ch '\\']) (c :: t) buf endSrc (src + 1) dest := h.read [ch '\\']
  have h2 : At post done (gap ++ [ch '\\'] ++ [c]) t buf endSrc (src + 1 + 1) dest := h1.read [c]
  rw [if_neg (by omega), items_backslash]
  simp only [h1.getD_eq]
  rcases shortEscape c with - | b
  · simp only
    split_ifs with hu
    · have hcode := h2.readCode_eq
      rcases hc : code t with - | ⟨num, rest⟩
      · rw [hc] at hcode
        obtain ⟨text, hr⟩ := hcode
        exact ⟨text, by rw [hr]; rfl⟩
      · rw [hc] at hcode
        simp only at hcode
        obtain ⟨k, hk, hkt, rfl⟩ := length_le_of_code hc
        have h3 : At post done (gap ++ [ch '\\'] ++ [c] ++ t.take k) (t.drop k) buf endSrc
            (src + 1 + 1 + (t.take k).length) dest :=
          At.read (t.take k) (by rwa [List.take_append_drop])
        have hcb := length_codeBytes_le num
        have hb : bytesOf [.code num] = codeBytes num := List.append_nil _
        have hd := ih.write h3 (by rw [List.length_drop]; omega) [.code num] (by
          rw [hb, List.length_append, List.length_append, List.length_take_of_le hkt]
          omega)
        rw [hb] at hd
        rw [hcode, List.length_drop, show t.length - (t.length - k) = (t.take k).length by
          rw [List.length_take_of_le hkt]; omega]
        exact hd
    · exact ih (by rw [List.length_cons]; omega) h1
  · exact ih.write h2 (by omega) [.byte b] (by simp [bytesOf, Item.bytes])

end Rounds

theorem split_at_backslash (s : Bytes) : ∃ bytes tail, s.takeWhile (· ≠ ch '\\') = bytes ∧
    s = bytes ++ tail ∧ (∀ b ∈ bytes, b ≠ ch '\\') ∧ (tail = [] ∨ ∃ t, tail = ch '\\' :: t) := by
  refine ⟨_, s.dropWhile (· ≠ ch '\\'), rfl, List.takeWhile_append_dropWhile.symm, ?_, ?_⟩
  · exact fun b hb => by simpa using List.mem_takeWhile_imp hb
  · rcases hd : s.dropWhile (· ≠ ch '\\') with - | ⟨c, t⟩
    · exact Or.inl rfl
    · have hc := List.head?_dropWhile_not (· ≠ ch '\\') s
      rw [hd] at hc
      exact Or.inr ⟨t, by simpa using hc⟩

/-- `decodeString` writes the bytes that the content stands for over the content. -/
theorem decodeString_rounds (post : Bytes) : ∀ fuel : ℕ, Rounds post fuel
  | fuel + 1, s, done, gap, buf, endSrc, src, dest, hlen, h => by
    have hend := h.end_eq
    have hsrc := h.src_eq
    have hdest := h.dest_eq
    rw [decodeString]
    by_cases hs : src = endSrc
    · have hnil : s = [] := List.length_eq_zero_iff.mp (by omega)
      subst hnil
      rw [if_pos hs, items_nil]
      exact ⟨gap, by simp [bytesOf]; omega, by simp [bytesOf, h.buf_eq, hdest]⟩
    rw [if_neg hs]
    simp only [h.run_eq]
    obtain ⟨bytes, tail, hbytes, rfl, hmem, hhead⟩ := split_at_backslash s
    rw [hbytes]
    rw [List.length_append] at hend hlen
    have h1 : At post (done ++ bytes) ((gap ++ bytes).drop bytes.length) tail (write buf dest bytes)
        endSrc (src + bytes.length) (dest + bytes.length) := (h.read bytes).write (by simp)
    rw [items_append bytes tail hmem]
    have hb : bytesOf (bytes.map Item.byte) = bytes := bytesOf_map_byte bytes
    refine Decoded.of_map (by rw [hb]; omega) ?_
    rw [hb]
    exact (decodeString_rounds post fuel).escape h1 hhead (by omega) (by omega)

/-- An error where the content is wrong, and nothing else. -/
def Skipped (r : Except Stop Unit) : Option (List Item) → Prop
  | none => ∃ text, r = .error (.error text)
  | some _ => r = .ok ()

theorem Skipped.of_map {r : Except Stop Unit} {is : List Item} {tail : Option (List Item)}
    (h : Skipped r tail) : Skipped r (tail.map (is ++ ·)) := by
  cases tail <;> exact h

theorem skipEscape_skipped {post done gap s buf : Bytes} {endSrc src dest fuel : ℕ}
    (ih : ∀ ⦃s gap : Bytes⦄ ⦃src : ℕ⦄, s.length < fuel → At post done gap s buf endSrc src dest →
      Skipped (skipString endSrc buf fuel src) (items s))
    (h : At post done gap s buf endSrc src dest) (hs : s = [] ∨ ∃ t, s = ch '\\' :: t)
    (hfuel : 0 < fuel) (hlen : s.length ≤ fuel) :
    Skipped (skipEscape endSrc buf (skipString endSrc buf fuel) src) (items s) := by
  have hend := h.end_eq
  have hsrc := h.src_eq
  unfold skipEscape
  rcases hs with rfl | ⟨t, rfl⟩
  · rw [if_pos (by simpa [hsrc] using hend.symm)]
    exact ih hfuel h
  rw [List.length_cons] at hlen hend
  rw [if_neg (by omega)]
  rcases t with - | ⟨c, t⟩
  · rw [List.length_nil] at hend
    rw [if_pos (by omega), items_of_none (by simp) (by simp [item, TdUtils.Json.escape])]
    exact ⟨_, rfl⟩
  rw [List.length_cons] at hlen hend
  have h1 : At post done (gap ++ [ch '\\']) (c :: t) buf endSrc (src + 1) dest := h.read [ch '\\']
  have h2 : At post done (gap ++ [ch '\\'] ++ [c]) t buf endSrc (src + 1 + 1) dest := h1.read [c]
  rw [if_neg (by omega), items_backslash]
  simp only [h1.getD_eq]
  rcases shortEscape c with - | b
  · simp only
    split_ifs with hu
    · have hcode := h2.readCode_eq
      rcases hc : code t with - | ⟨num, rest⟩
      · rw [hc] at hcode
        obtain ⟨text, hr⟩ := hcode
        exact ⟨text, by rw [hr]; rfl⟩
      · rw [hc] at hcode
        simp only at hcode
        obtain ⟨k, hk, hkt, rfl⟩ := length_le_of_code hc
        have h3 : At post done (gap ++ [ch '\\'] ++ [c] ++ t.take k) (t.drop k) buf endSrc
            (src + 1 + 1 + (t.take k).length) dest :=
          At.read (t.take k) (by rwa [List.take_append_drop])
        rw [hcode, List.length_drop, show t.length - (t.length - k) = (t.take k).length by
          rw [List.length_take_of_le hkt]; omega]
        exact (ih (by rw [List.length_drop]; omega) h3).of_map
    · exact ih (by rw [List.length_cons]; omega) h1
  · exact (ih (by omega) h2).of_map

theorem skipString_skipped {post done buf : Bytes} {endSrc dest : ℕ} : ∀ (fuel : ℕ)
    ⦃s gap : Bytes⦄ ⦃src : ℕ⦄, s.length < fuel → At post done gap s buf endSrc src dest →
    Skipped (skipString endSrc buf fuel src) (items s)
  | fuel + 1, s, gap, src, hlen, h => by
    have hend := h.end_eq
    have hsrc := h.src_eq
    rw [skipString]
    by_cases hs : src = endSrc
    · have hnil : s = [] := List.length_eq_zero_iff.mp (by omega)
      subst hnil
      rw [if_pos hs, items_nil]
      rfl
    rw [if_neg hs, h.run_eq]
    obtain ⟨bytes, tail, hbytes, rfl, hmem, hhead⟩ := split_at_backslash s
    rw [hbytes]
    rw [List.length_append] at hend hlen
    rw [items_append bytes tail hmem]
    exact (skipEscape_skipped (skipString_skipped fuel) (h.read bytes) hhead (by omega)
      (by omega)).of_map

/-! ### The string functions -/

theorem closingQuote_lt : ∀ {s : Bytes} {n : ℕ}, closingQuote s = some n → n < s.length
  | c :: s, n, h => by
    unfold closingQuote at h
    split_ifs at h with h1 h2
    · obtain rfl := Option.some.inj h
      simp
    · rcases s with - | ⟨d, s⟩
      · simp at h
      · simp only [Option.bind_eq_bind, Option.bind_eq_some_iff] at h
        obtain ⟨m, hm, h⟩ := h
        have := closingQuote_lt hm
        simp only [Option.pure_def, Option.some.injEq] at h
        simp only [List.length_cons]
        omega
    · simp only [Option.bind_eq_bind, Option.bind_eq_some_iff] at h
      obtain ⟨m, hm, h⟩ := h
      have := closingQuote_lt hm
      simp only [Option.pure_def, Option.some.injEq] at h
      simp only [List.length_cons]
      omega

end TdUtils.Json
