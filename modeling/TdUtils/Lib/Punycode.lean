import Mathlib.Data.List.DropRight
import Mathlib.Data.Nat.Basic
import TdUtils.Lib.Bytes

/-!
# Lib.Punycode — code points written in letters, digits and hyphens

The basic code points of a text stand in front, and behind the last hyphen stands a list of numbers in
digits of base 36, each of which says where the next of the other code points goes.  `encode` takes these
code points in increasing order and counts the places it goes over, and `decode` puts them in.  The count
of the encoder and the position of the decoder together are always the place that the encoder looks at
(`Follows`), so a text is read back as it was.
-/

namespace TdUtils.Lib.Punycode

open Bytes

def hyphen : UInt8 := ch '-'

/-- The letter or digit of a value below 36. -/
def digit (d : ℕ) : UInt8 := UInt8.ofNat (if d < 26 then d + 97 else d - 26 + 48)

/-- The value of a letter or digit; the case of letters does not matter. -/
def digitValue (c : UInt8) : Option ℕ :=
  if 97 ≤ c.toNat ∧ c.toNat ≤ 122 then some (c.toNat - 97)
  else if 65 ≤ c.toNat ∧ c.toNat ≤ 90 then some (c.toNat - 65)
  else if 48 ≤ c.toNat ∧ c.toNat ≤ 57 then some (c.toNat - 48 + 26)
  else none

/-- A digit below the threshold is the last of its number. -/
def threshold (bias k : ℕ) : ℕ := if k ≤ bias then 1 else if bias + 26 ≤ k then 26 else k - bias

theorem threshold_bounds (bias k : ℕ) : 1 ≤ threshold bias k ∧ threshold bias k ≤ 26 := by
  unfold threshold
  split_ifs <;> omega

theorem varint_lt {bias k q : ℕ} (h : ¬ q < threshold bias k) :
    (q - threshold bias k) / (36 - threshold bias k) < q := by
  have ht := threshold_bounds bias k
  calc (q - threshold bias k) / (36 - threshold bias k) ≤ q - threshold bias k := Nat.div_le_self _ _
    _ < q := by omega

/-- The digits of `q`, the lowest first. -/
def varint (bias k q : ℕ) : List UInt8 :=
  let t := threshold bias k
  if q < t then [digit q]
  else digit (t + (q - t) % (36 - t)) :: varint bias (k + 36) ((q - t) / (36 - t))
termination_by q
decreasing_by exact varint_lt ‹_›

/-- `delta` divided until it is small, and how often that takes. -/
def scale (delta k : ℕ) : ℕ × ℕ := if 455 < delta then scale (delta / 35) (k + 36) else (delta, k)
termination_by delta
decreasing_by exact Nat.div_lt_self (by omega) (by omega)

/-- The bias behind a number. -/
def adapt (delta points : ℕ) (first : Bool) : ℕ :=
  let delta := if first then delta / 700 else delta / 2
  let (delta, k) := scale (delta + delta / points) 0
  k + 36 * delta / (delta + 38)

/-! ### The encoder -/

/-- What is written, the places since, the bias and the number of code points that are done. -/
structure Enc where
  out : List UInt8
  delta : ℕ
  bias : ℕ
  h : ℕ

/-- A code point of the text as the code points `m` are written; `b` of the text are basic. -/
def visit (b m : ℕ) (s : Enc) (c : ℕ) : Enc :=
  if c < m then { s with delta := s.delta + 1 }
  else if c = m then
    ⟨s.out ++ varint s.bias 36 s.delta, 0, adapt s.delta (s.h + 1) (s.h = b), s.h + 1⟩
  else s

/-- The least code point of the text that is not below `n`. -/
def minFrom (n : ℕ) (cs : List ℕ) : Option ℕ := (cs.filter fun c => n ≤ c).min?

theorem minFrom_eq_some_iff {n m : ℕ} {cs : List ℕ} :
    minFrom n cs = some m ↔ m ∈ cs ∧ n ≤ m ∧ ∀ c ∈ cs, n ≤ c → m ≤ c := by
  unfold minFrom
  rw [List.min?_eq_some_iff]
  simp only [List.mem_filter, decide_eq_true_eq, and_imp, and_assoc]

theorem minFrom_eq_none_iff {n : ℕ} {cs : List ℕ} : minFrom n cs = none ↔ ∀ c ∈ cs, c < n := by
  unfold minFrom
  rw [List.min?_eq_none_iff, List.filter_eq_nil_iff]
  simp only [decide_eq_true_eq, not_le]

/-- One pass writes the last of the least code points. -/
theorem filter_lt_of_minFrom {n m : ℕ} {cs : List ℕ} (h : minFrom n cs = some m) :
    (cs.filter fun c => m + 1 ≤ c).length < (cs.filter fun c => n ≤ c).length := by
  obtain ⟨hmem, hle, -⟩ := minFrom_eq_some_iff.mp h
  have hfilter : (cs.filter fun c => m + 1 ≤ c) = (cs.filter fun c => n ≤ c).filter fun c => m + 1 ≤ c := by
    rw [List.filter_filter]
    refine List.filter_congr fun c _ => ?_
    rw [← Bool.decide_and]
    exact decide_eq_decide.mpr (by omega)
  rw [hfilter]
  refine List.length_filter_lt_length_iff_exists.mpr ⟨m, ?_, ?_⟩
  · simp [hmem, hle]
  · simp

/-- The passes over the text, from the code point `n` on. -/
def encodeFrom (cs : List ℕ) (b n : ℕ) (s : Enc) : Enc :=
  match hmin : minFrom n cs with
  | none => s
  | some m =>
    let s := cs.foldl (visit b m) { s with delta := s.delta + (m - n) * (s.h + 1) }
    encodeFrom cs b (m + 1) { s with delta := s.delta + 1 }
termination_by (cs.filter fun c => n ≤ c).length
decreasing_by exact filter_lt_of_minFrom hmin

theorem encodeFrom_none {cs : List ℕ} {b n : ℕ} {s : Enc} (h : minFrom n cs = none) :
    encodeFrom cs b n s = s := by
  rw [encodeFrom]
  split
  · rfl
  · rename_i m hmin
    rw [h] at hmin
    cases hmin

theorem encodeFrom_some {cs : List ℕ} {b n m : ℕ} {s : Enc} (h : minFrom n cs = some m) :
    encodeFrom cs b n s = encodeFrom cs b (m + 1)
      { cs.foldl (visit b m) { s with delta := s.delta + (m - n) * (s.h + 1) } with
        delta := (cs.foldl (visit b m) { s with delta := s.delta + (m - n) * (s.h + 1) }).delta + 1 } := by
  rw [encodeFrom]
  split
  · rename_i hmin
    rw [h] at hmin
    cases hmin
  · rename_i m' hmin
    obtain rfl : m = m' := Option.some.inj (h.symm.trans hmin)
    rfl

/-- A pass that writes something counts from there. -/
theorem foldl_visit_delta {b m : ℕ} : ∀ {cs : List ℕ} {s : Enc} {k : ℕ}, m ∈ cs ∨ s.delta ≤ k →
    (cs.foldl (visit b m) s).delta ≤ k + cs.length
  | [], _, _, h => h.resolve_left List.not_mem_nil
  | c :: cs, s, k, h => by
    have hnext : m ∈ cs ∨ (visit b m s c).delta ≤ k + 1 := by
      unfold visit
      split_ifs with hlt heq
      · refine h.imp (fun hmem => (List.mem_cons.mp hmem).resolve_left (by omega)) fun hle => ?_
        exact Nat.succ_le_succ hle
      · exact .inr (Nat.zero_le _)
      · exact h.imp (fun hmem => (List.mem_cons.mp hmem).resolve_left (by omega)) Nat.le_succ_of_le
    have hfold := foldl_visit_delta (b := b) hnext
    rw [List.foldl_cons, List.length_cons]
    omega

def basic (cs : List ℕ) : List ℕ := cs.filter fun c => c < 128

def encode (cs : List ℕ) : List UInt8 :=
  let b := (basic cs).length
  (basic cs).map UInt8.ofNat ++ (if b = 0 then [] else [hyphen]) ++ (encodeFrom cs b 128 ⟨[], 0, 72, b⟩).out

/-! ### The decoder -/

/-- The code point and the place that are next, the bias and the text so far. -/
structure Dec where
  n : ℕ
  i : ℕ
  bias : ℕ
  out : List ℕ

/-- What a number does that leads from `d.i` to `i`. -/
def Dec.insert (d : Dec) (i : ℕ) : Dec :=
  let points := d.out.length + 1
  ⟨d.n + i / points, i % points + 1, adapt (i - d.i) points (d.i = 0),
    d.out.insertIdx (i % points) (d.n + i / points)⟩

/-- Reads digits from the `k`-th of a number on, which has the weight `w`; `i` is what was read of it. -/
def decodeFrom (d : Dec) (k w i : ℕ) : List UInt8 → Option (List ℕ)
  | [] => if k = 36 then some d.out else none
  | c :: rest =>
    match digitValue c with
    | none => none
    | some value =>
      if value < threshold d.bias k then
        let d := d.insert (i + value * w)
        decodeFrom d 36 1 d.i rest
      else decodeFrom d (k + 36) (w * (36 - threshold d.bias k)) (i + value * w) rest

/-- The decoder before the first number. -/
def Dec.start (out : List ℕ) : Dec := ⟨128, 0, 72, out⟩

def decode (s : List UInt8) : Option (List ℕ) :=
  let front := (s.rdropWhile fun c => c ≠ hyphen).dropLast  -- up to the last hyphen
  if front = [] then decodeFrom (.start []) 36 1 0 s
  else if front.all fun c => c < 0x80 then
    decodeFrom (.start (front.map UInt8.toNat)) 36 1 0 (s.rtakeWhile fun c => c ≠ hyphen)
  else none

/-! ### Numbers -/

/-- What is put in at a place. -/
theorem insertIdx_append_length (a : ℕ) (rest : List ℕ) : ∀ front : List ℕ,
    (front ++ rest).insertIdx front.length a = front ++ a :: rest
  | [] => rfl
  | x :: front => by
    rw [List.cons_append, List.length_cons, List.insertIdx_succ_cons, insertIdx_append_length a rest front,
      List.cons_append]

theorem digit_facts : ∀ d < 36, digitValue (digit d) = some d ∧ digit d ≠ hyphen := by
  decide

theorem digitValue_digit {d : ℕ} (h : d < 36) : digitValue (digit d) = some d := (digit_facts d h).1

/-- A number is read back, with whatever follows it. -/
theorem decodeFrom_varint (d : Dec) (rest : List UInt8) : ∀ (q k w i : ℕ),
    decodeFrom d k w i (varint d.bias k q ++ rest) =
      decodeFrom (d.insert (i + q * w)) 36 1 (d.insert (i + q * w)).i rest := by
  intro q
  induction q using Nat.strong_induction_on with
  | _ q ih =>
    intro k w i
    have ht := threshold_bounds d.bias k
    rw [varint]
    split_ifs with hlt
    · rw [List.singleton_append, decodeFrom, digitValue_digit (by omega)]
      dsimp only
      rw [if_pos hlt]
    · set t := threshold d.bias k with htdef
      have hmod : (q - t) % (36 - t) < 36 - t := Nat.mod_lt _ (by omega)
      have hsplit : (q - t) % (36 - t) + (q - t) / (36 - t) * (36 - t) = q - t := Nat.mod_add_div' _ _
      have hq : t + (q - t) % (36 - t) + (q - t) / (36 - t) * (36 - t) = q := by omega
      rw [List.cons_append, decodeFrom, digitValue_digit (by omega)]
      dsimp only
      rw [← htdef, if_neg (by omega), ih _ (varint_lt hlt)]
      have hvalue : i + (t + (q - t) % (36 - t)) * w + (q - t) / (36 - t) * (w * (36 - t)) = i + q * w := by
        calc i + (t + (q - t) % (36 - t)) * w + (q - t) / (36 - t) * (w * (36 - t))
            = i + (t + (q - t) % (36 - t) + (q - t) / (36 - t) * (36 - t)) * w := by
              rw [Nat.add_assoc, ← Nat.mul_assoc, Nat.mul_right_comm _ w, ← Nat.add_mul]
          _ = i + q * w := by rw [hq]
      rw [hvalue]

/-- The bytes of numbers. -/
def IsDigit (c : UInt8) : Prop := ∃ d < 36, c = digit d

theorem IsDigit.ne_hyphen {c : UInt8} : IsDigit c → c ≠ hyphen := by
  rintro ⟨d, hd, rfl⟩
  exact (digit_facts d hd).2

theorem varint_isDigit (bias : ℕ) : ∀ (q k : ℕ), ∀ c ∈ varint bias k q, IsDigit c := by
  intro q
  induction q using Nat.strong_induction_on with
  | _ q ih =>
    intro k c hc
    have ht := threshold_bounds bias k
    rw [varint] at hc
    split_ifs at hc with hlt
    · exact ⟨q, by omega, List.mem_singleton.mp hc⟩
    · have hmod := Nat.mod_lt (q - threshold bias k) (show 0 < 36 - threshold bias k by omega)
      rcases List.mem_cons.mp hc with rfl | hc
      · exact ⟨_, by omega, rfl⟩
      · exact ih _ (varint_lt hlt) _ c hc

theorem visit_isDigit {b m : ℕ} {s : Enc} (h : ∀ c ∈ s.out, IsDigit c) (x : ℕ) :
    ∀ c ∈ (visit b m s x).out, IsDigit c := by
  unfold visit
  split_ifs
  · exact h
  · intro c hc
    rcases List.mem_append.mp hc with hc | hc
    · exact h c hc
    · exact varint_isDigit _ _ _ c hc
  · exact h

theorem foldl_visit_isDigit {b m : ℕ} : ∀ {cs : List ℕ} {s : Enc}, (∀ c ∈ s.out, IsDigit c) →
    ∀ c ∈ (cs.foldl (visit b m) s).out, IsDigit c
  | [], _, h => h
  | x :: cs, _, h => by
    rw [List.foldl_cons]
    exact foldl_visit_isDigit (visit_isDigit h x)

/-- Behind the last hyphen there are letters and digits only. -/
theorem encodeFrom_isDigit {cs : List ℕ} {b n : ℕ} {s : Enc} (h : ∀ c ∈ s.out, IsDigit c) :
    ∀ c ∈ (encodeFrom cs b n s).out, IsDigit c := by
  induction hk : (cs.filter fun c => n ≤ c).length using Nat.strong_induction_on generalizing n s with
  | _ k ih =>
    cases hmin : minFrom n cs with
    | none =>
      rw [encodeFrom_none hmin]
      exact h
    | some m =>
      rw [encodeFrom_some hmin]
      exact ih _ (hk ▸ filter_lt_of_minFrom hmin) (foldl_visit_isDigit h) rfl

/-! ### What is written is read back -/

section RoundTrip

variable {b m : ℕ} {start : Dec} {pre post cs : List ℕ} {s : Enc} {d : Dec}

/-- `d` is the decoder behind what the encoder has written, as the pass that writes the code points `m` is
between `pre` and `post`. -/
structure Follows (b : ℕ) (start : Dec) (pre post : List ℕ) (m : ℕ) (s : Enc) (d : Dec) : Prop where
  out : d.out = (pre.filter fun c => c ≤ m) ++ post.filter fun c => c < m
  length : d.out.length = s.h
  bias : d.bias = s.bias
  basic : b ≤ s.h
  first : d.i = 0 ↔ s.h = b
  le : d.n ≤ m
  position : d.n * (s.h + 1) + d.i + s.delta = m * (s.h + 1) + (pre.filter fun c => c ≤ m).length
  reads : ∀ rest, decodeFrom start 36 1 start.i (s.out ++ rest) = decodeFrom d 36 1 d.i rest

/-- The number that is written next leads to the place that the encoder looks at. -/
theorem Follows.next (h : Follows b start pre post m s d) :
    d.n + (d.i + s.delta) / (s.h + 1) = m ∧ (d.i + s.delta) % (s.h + 1) = (pre.filter fun c => c ≤ m).length := by
  have hlen := h.length
  rw [h.out, List.length_append] at hlen
  have hplace : (pre.filter fun c => c ≤ m).length < s.h + 1 := by omega
  obtain ⟨e, rfl⟩ := Nat.exists_eq_add_of_le h.le
  have hsum : d.i + s.delta = (pre.filter fun c => c ≤ d.n + e).length + (s.h + 1) * e := by
    have hposition := h.position
    rw [Nat.add_mul, Nat.mul_comm e] at hposition
    omega
  rw [hsum]
  constructor
  · rw [Nat.add_mul_div_left _ _ (Nat.succ_pos _), Nat.div_eq_of_lt hplace, Nat.zero_add]
  · rw [Nat.add_mul_mod_self_left, Nat.mod_eq_of_lt hplace]

/-- One code point of a pass. -/
theorem Follows.visit {c : ℕ} (h : Follows b start pre (c :: post) m s d) :
    ∃ d, Follows b start (pre ++ [c]) post m (visit b m s c) d := by
  have hout := h.out
  have hlen := h.length
  have hfirst := h.first
  have hbasic := h.basic
  have hposition := h.position
  unfold Punycode.visit
  rcases lt_trichotomy c m with hlt | rfl | hgt
  · rw [if_pos hlt]
    have hfilter : ((pre ++ [c]).filter fun c => c ≤ m) = (pre.filter fun c => c ≤ m) ++ [c] := by
      rw [List.filter_append, List.filter_cons_of_pos (by simp [hlt.le]), List.filter_nil]
    refine ⟨d, ⟨?_, hlen, h.bias, hbasic, hfirst, h.le, ?_, h.reads⟩⟩
    · rw [hout, hfilter, List.filter_cons_of_pos (by simp [hlt]), List.append_assoc]
      rfl
    · rw [hfilter, List.length_append, List.length_singleton]
      change d.n * (s.h + 1) + d.i + (s.delta + 1) = m * (s.h + 1) + _
      omega
  · obtain ⟨hcode, hplace⟩ := h.next
    rw [if_neg (lt_irrefl c), if_pos rfl]
    have hfilter : ((pre ++ [c]).filter fun x => x ≤ c) = (pre.filter fun x => x ≤ c) ++ [c] := by
      rw [List.filter_append, List.filter_cons_of_pos (by simp), List.filter_nil]
    have hpoint : (c :: post).filter (fun x => x < c) = post.filter fun x => x < c :=
      List.filter_cons_of_neg (by simp)
    rw [hpoint] at hout
    have hinsert : d.insert (d.i + s.delta) = ⟨c, (pre.filter fun x => x ≤ c).length + 1,
        adapt s.delta (s.h + 1) (s.h = b), (pre.filter fun x => x ≤ c) ++ c :: post.filter fun x => x < c⟩ := by
      unfold Dec.insert
      dsimp only
      rw [hlen, hcode, hplace, hout, insertIdx_append_length, Nat.add_sub_cancel_left]
      simp only [hfirst]
    refine ⟨d.insert (d.i + s.delta), ?_⟩
    rw [hinsert]
    refine ⟨?_, ?_, rfl, ?_, ?_, le_rfl, ?_, ?_⟩
    · rw [hfilter, List.append_assoc]
      rfl
    · rw [hout, List.length_append] at hlen
      rw [List.length_append, List.length_cons]
      change _ = s.h + 1
      omega
    · change b ≤ s.h + 1
      omega
    · change _ + 1 = 0 ↔ s.h + 1 = b
      omega
    · rw [hfilter, List.length_append, List.length_singleton]
      change c * (s.h + 1 + 1) + ((pre.filter fun x => x ≤ c).length + 1) + 0 = c * (s.h + 1 + 1) + _
      omega
    · intro rest
      rw [List.append_assoc, h.reads, ← h.bias, decodeFrom_varint, Nat.mul_one, hinsert]
  · rw [if_neg (by omega), if_neg (by omega)]
    have hfilter : ((pre ++ [c]).filter fun c => c ≤ m) = pre.filter fun c => c ≤ m := by
      rw [List.filter_append, List.filter_cons_of_neg (by simp [hgt]), List.filter_nil, List.append_nil]
    refine ⟨d, ⟨?_, hlen, h.bias, hbasic, hfirst, h.le, ?_, h.reads⟩⟩
    · rw [hout, hfilter, List.filter_cons_of_neg (by simp [hgt.le])]
    · rw [hfilter]
      exact hposition

/-- One pass. -/
theorem Follows.pass : ∀ {post pre : List ℕ} {s : Enc} {d : Dec}, Follows b start pre post m s d →
    ∃ d, Follows b start (pre ++ post) [] m (post.foldl (Punycode.visit b m) s) d
  | [], pre, s, d, h => ⟨d, by rwa [List.append_nil]⟩
  | c :: post, pre, s, d, h => by
    obtain ⟨d', hvisit⟩ := h.visit
    obtain ⟨d'', hpass⟩ := hvisit.pass
    rw [List.append_assoc, List.singleton_append] at hpass
    exact ⟨d'', hpass⟩

/-- The count goes on over the code points that do not occur. -/
theorem Follows.skip {n : ℕ} (h : Follows b start [] cs n s d) (hnm : n ≤ m) (hleast : ∀ c ∈ cs, n ≤ c → m ≤ c) :
    Follows b start [] cs m { s with delta := s.delta + (m - n) * (s.h + 1) } d := by
  obtain ⟨e, rfl⟩ := Nat.exists_eq_add_of_le hnm
  have hfilter : (cs.filter fun c => c < n + e) = cs.filter fun c => c < n := by
    refine List.filter_congr fun c hc => decide_eq_decide.mpr ?_
    have := hleast c hc
    omega
  have hposition := h.position
  refine ⟨?_, h.length, h.bias, h.basic, h.first, h.le.trans hnm, ?_, h.reads⟩
  · rw [h.out, hfilter]
    rfl
  · rw [Nat.add_sub_cancel_left]
    change d.n * (s.h + 1) + d.i + (s.delta + e * (s.h + 1)) = (n + e) * (s.h + 1) + 0
    change d.n * (s.h + 1) + d.i + s.delta = n * (s.h + 1) + 0 at hposition
    rw [Nat.add_mul]
    omega

/-- Behind a pass the next one starts, with the next code point. -/
theorem Follows.advance (h : Follows b start cs [] m s d) :
    Follows b start [] cs (m + 1) { s with delta := s.delta + 1 } d := by
  have hout := h.out
  have hlen := h.length
  have hposition := h.position
  rw [List.filter_nil, List.append_nil] at hout
  refine ⟨?_, hlen, h.bias, h.basic, h.first, Nat.le_succ_of_le h.le, ?_, h.reads⟩
  · rw [hout, List.filter_nil, List.nil_append]
    exact List.filter_congr fun c _ => decide_eq_decide.mpr Nat.lt_succ_iff.symm
  · rw [hout] at hlen
    rw [hlen] at hposition
    change d.n * (s.h + 1) + d.i + (s.delta + 1) = (m + 1) * (s.h + 1) + 0
    rw [Nat.add_mul]
    omega

/-- All passes: the decoder has read the whole text. -/
theorem Follows.decodeFrom_eq {n : ℕ} (h : Follows b start [] cs n s d) :
    decodeFrom start 36 1 start.i (encodeFrom cs b n s).out = some cs := by
  induction hk : (cs.filter fun c => n ≤ c).length using Nat.strong_induction_on generalizing n s d with
  | _ k ih =>
    cases hmin : minFrom n cs with
    | none =>
      have hall := minFrom_eq_none_iff.mp hmin
      have hread := h.reads []
      rw [List.append_nil] at hread
      rw [encodeFrom_none hmin, hread, decodeFrom, if_pos rfl, h.out, List.filter_nil, List.nil_append]
      exact congrArg some (List.filter_eq_self.mpr fun c hc => decide_eq_true (hall c hc))
    | some m =>
      obtain ⟨-, hle, hleast⟩ := minFrom_eq_some_iff.mp hmin
      obtain ⟨d', hpass⟩ := (h.skip hle hleast).pass
      rw [encodeFrom_some hmin]
      exact ih _ (hk ▸ filter_lt_of_minFrom hmin) hpass.advance rfl

/-- Before the first pass. -/
theorem follows_start (cs : List ℕ) : Follows (basic cs).length (.start (basic cs)) [] cs 128
    ⟨[], 0, 72, (basic cs).length⟩ (.start (basic cs)) := by
  refine ⟨rfl, rfl, rfl, le_rfl, ⟨fun _ => rfl, fun _ => rfl⟩, le_rfl, ?_, fun rest => rfl⟩
  change 128 * ((basic cs).length + 1) + 0 + 0 = 128 * ((basic cs).length + 1) + 0
  rfl

/-- The last hyphen is found. -/
theorem split_hyphen {front rest : List UInt8} (h : ∀ c ∈ rest, c ≠ hyphen) :
    (front ++ hyphen :: rest).rdropWhile (fun c => c ≠ hyphen) = front ++ [hyphen] ∧
      (front ++ hyphen :: rest).rtakeWhile (fun c => c ≠ hyphen) = rest := by
  have hrest : ∀ c ∈ rest.reverse, decide (c ≠ hyphen) = true := fun c hc =>
    decide_eq_true (h c (List.mem_reverse.mp hc))
  have hreverse : (front ++ hyphen :: rest).reverse = rest.reverse ++ hyphen :: front.reverse := by
    rw [List.reverse_append, List.reverse_cons, List.append_assoc, List.singleton_append]
  have hstop : ¬ decide (hyphen ≠ hyphen) = true := by simp
  unfold List.rdropWhile List.rtakeWhile
  rw [hreverse, List.dropWhile_append_of_pos hrest, List.takeWhile_append_of_pos hrest,
    List.dropWhile_cons_of_neg (p := fun c => decide (c ≠ hyphen)) hstop,
    List.takeWhile_cons_of_neg (p := fun c => decide (c ≠ hyphen)) hstop, List.append_nil, List.reverse_reverse,
    List.reverse_cons, List.reverse_reverse]
  exact ⟨rfl, rfl⟩

theorem basic_map_toNat (cs : List ℕ) : ((basic cs).map UInt8.ofNat).map UInt8.toNat = basic cs := by
  rw [List.map_map]
  conv_rhs => rw [← List.map_id (basic cs)]
  refine List.map_congr_left fun c hc => ?_
  have hlt : c < 128 := by simpa using (List.mem_filter.mp hc).2
  rw [Function.comp_apply, UInt8.toNat_ofNat', Nat.mod_eq_of_lt (by omega)]
  rfl

theorem basic_all (cs : List ℕ) : ((basic cs).map UInt8.ofNat).all (fun c => c < 0x80) = true := by
  rw [List.all_eq_true]
  intro c hc
  obtain ⟨x, hx, rfl⟩ := List.mem_map.mp hc
  have hlt : x < 128 := by simpa using (List.mem_filter.mp hx).2
  rw [decide_eq_true_eq, UInt8.lt_iff_toNat_lt, UInt8.toNat_ofNat', Nat.mod_eq_of_lt (by omega)]
  exact hlt

/-- Every text is read back. -/
theorem decode_of_encode (cs : List ℕ) : decode (encode cs) = some cs := by
  have hread := (follows_start cs).decodeFrom_eq
  have hdigits : ∀ c ∈ (encodeFrom cs (basic cs).length 128 ⟨[], 0, 72, (basic cs).length⟩).out, c ≠ hyphen :=
    fun c hc => (encodeFrom_isDigit (fun c hc => absurd hc List.not_mem_nil) c hc).ne_hyphen
  unfold encode decode
  dsimp only
  generalize (encodeFrom cs (basic cs).length 128 ⟨[], 0, 72, (basic cs).length⟩).out = ext at hread hdigits ⊢
  by_cases hbasic : basic cs = []
  · rw [hbasic] at hread ⊢
    have hfront : ext.rdropWhile (fun c => c ≠ hyphen) = [] :=
      List.rdropWhile_eq_nil_iff.mpr fun c hc => decide_eq_true (hdigits c hc)
    rw [if_pos List.length_nil, List.map_nil, List.append_nil, List.nil_append, hfront, if_pos List.dropLast_nil]
    exact hread
  · have hlen : ¬ (basic cs).length = 0 := fun h => hbasic (List.length_eq_zero_iff.mp h)
    have hmap : ¬ (basic cs).map UInt8.ofNat = [] := fun h => hbasic (List.map_eq_nil_iff.mp h)
    obtain ⟨hfront, hrest⟩ := @split_hyphen ((basic cs).map UInt8.ofNat) ext hdigits
    rw [if_neg hlen, List.append_assoc, List.singleton_append, hfront, hrest, List.dropLast_concat, if_neg hmap,
      if_pos (basic_all cs), basic_map_toNat]
    exact hread

end RoundTrip

end TdUtils.Lib.Punycode
