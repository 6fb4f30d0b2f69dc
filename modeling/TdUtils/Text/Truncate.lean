import Mathlib.Algebra.BigOperators.Group.List.Basic
import TdUtils.Text.Utf8

/-!
# Text.Truncate — lengths of UTF-8 strings, and where they are cut

`utf8_length` and `utf8_utf16_length` count over the bytes, and so do the loops that truncate.  Over a valid
string each of them counts its characters, or the code units these take in UTF-16.  The counter of
`utf8_utf16_truncate` is unsigned: a surrogate pair takes two off it, also when it is at one.
-/

namespace TdUtils.Text

open Lib Utf8

def utf8Length (str : List UInt8) : ℕ :=
  str.foldl (fun result c => result + (isUtf8CharacterFirstCodeUnit c).toNat) 0

def utf8Utf16Length (str : List UInt8) : ℕ :=
  str.foldl (fun result c => result + ((isUtf8CharacterFirstCodeUnit c).toNat +
    (decide (c.toNat &&& 0xf8 = 0xf0)).toNat)) 0

/-- The loop of `utf8_truncate` from the byte at `i` on; the place where the string is cut. -/
def utf8TruncateLoop : List UInt8 → ℕ → ℕ → Option ℕ
  | [], _, _ => none
  | c :: str, i, length =>
    if isUtf8CharacterFirstCodeUnit c then
      if length = 0 then some i else utf8TruncateLoop str (i + 1) (length - 1)
    else utf8TruncateLoop str (i + 1) length

def utf8Truncate (str : List UInt8) (length : ℕ) : List UInt8 :=
  if str.length > length then
    match utf8TruncateLoop str 0 length with
    | some i => str.take i
    | none => str
  else str

/-- The loop of `utf8_utf16_truncate`. -/
def utf8Utf16TruncateLoop : List UInt8 → ℕ → UInt64 → Option ℕ
  | [], _, _ => none
  | c :: str, i, length =>
    if isUtf8CharacterFirstCodeUnit c then
      if length ≤ 0 then some i
      else
        let length := length - 1
        let length := if c.toNat ≥ 0xf0 then length - 1 else length
        utf8Utf16TruncateLoop str (i + 1) length
    else utf8Utf16TruncateLoop str (i + 1) length

def utf8Utf16Truncate (str : List UInt8) (length : UInt64) : List UInt8 :=
  match utf8Utf16TruncateLoop str 0 length with
  | some i => str.take i
  | none => str

/-- `utf8_substr(str, offset)`. -/
def utf8SubstrFrom (str : List UInt8) (offset : ℕ) : List UInt8 :=
  if offset = 0 then str else str.drop (utf8Truncate str offset).length

def utf8Substr (str : List UInt8) (offset length : ℕ) : List UInt8 :=
  utf8Truncate (utf8SubstrFrom str offset) length

/-! ### The bytes of a character -/

/-- The first byte of a character starts it, and the others do not. -/
theorem utf8_split {c : ℕ} (hc : Scalar c) : ∃ a conts, utf8 c = a :: conts ∧
    isUtf8CharacterFirstCodeUnit a = true ∧ (∀ b ∈ conts, isUtf8CharacterFirstCodeUnit b = false) ∧
    a.toNat < 0xf8 ∧ (0xf0 ≤ a.toNat ↔ 0x10000 ≤ c) := by
  have hlt : c < 0x110000 := by
    unfold Scalar at hc
    omega
  rcases hu : utf8 c with - | ⟨a, conts⟩
  · exact absurd hu (utf8_ne_nil c)
  have hhead := not_continues_head (show c < 0x200000 by omega) [] a (by simp [hu])
  have htail := continues_tail c
  rw [hu, List.tail_cons] at htail
  refine ⟨a, conts, rfl, (first_iff a).mpr hhead, fun b hb => ?_, ?_⟩
  · rw [Bool.eq_false_iff, Ne, first_iff, not_not]
    exact htail b hb
  · unfold utf8 at hu
    split_ifs at hu with h1 h2 h3 <;> obtain ⟨rfl, -⟩ := List.cons.inj hu <;>
      rw [toNat_ofNat (by omega)] <;> omega

theorem four_bytes_iff {a : UInt8} (ha : a.toNat < 0xf8) : a.toNat &&& 0xf8 = 0xf0 ↔ 0xf0 ≤ a.toNat := by
  have hmask : a.toNat &&& 0xf8 = a.toNat / 8 % 32 * 8 := Bits.and_mask a.toNat 3 5
  rw [hmask]
  omega

/-- A continuation byte is none of the bytes that are counted twice. -/
theorem not_four_of_continues {b : UInt8} (hb : isUtf8CharacterFirstCodeUnit b = false) :
    ¬ b.toNat &&& 0xf8 = 0xf0 := by
  have hmask : b.toNat &&& 0xf8 = b.toNat / 8 % 32 * 8 := Bits.and_mask b.toNat 3 5
  have hcont : Continues b := by
    by_contra h
    rw [(first_iff b).mpr h] at hb
    cases hb
  unfold Continues at hcont
  rw [hmask]
  omega

/-! ### The lengths -/

/-- The code units of a character in UTF-16. -/
def utf16Units (c : ℕ) : ℕ := if c < 0x10000 then 1 else 2

theorem foldl_add_eq (f : UInt8 → ℕ) (str : List UInt8) (k : ℕ) :
    str.foldl (fun result c => result + f c) k = k + (str.map f).sum := by
  induction str generalizing k with
  | nil => rfl
  | cons c str ih =>
    rw [List.foldl_cons, ih, List.map_cons, List.sum_cons]
    omega

/-- What is counted at the first bytes only is counted once for each character. -/
theorem sum_flatMap_utf8 {f : UInt8 → ℕ} {g : ℕ → ℕ}
    (hrest : ∀ b, isUtf8CharacterFirstCodeUnit b = false → f b = 0)
    (hfirst : ∀ c a conts, Scalar c → utf8 c = a :: conts → f a = g c) (cs : List ℕ)
    (hcs : ∀ c ∈ cs, Scalar c) : ((cs.flatMap utf8).map f).sum = (cs.map g).sum := by
  induction cs with
  | nil => rfl
  | cons c cs ih =>
    obtain ⟨hc, hcs⟩ := List.forall_mem_cons.mp hcs
    obtain ⟨a, conts, hu, -, hconts, -⟩ := utf8_split hc
    have hzero : (conts.map f).sum = 0 :=
      List.sum_eq_zero fun n hn => by
        obtain ⟨b, hb, rfl⟩ := List.mem_map.mp hn
        exact hrest b (hconts b hb)
    rw [List.flatMap_cons, List.map_append, List.sum_append, ih hcs, hu, List.map_cons, List.sum_cons,
      hzero, hfirst c a conts hc hu, List.map_cons, List.sum_cons, Nat.add_zero]

theorem utf8Length_eq {s : List UInt8} {cs : List ℕ} (h : Encodes s cs) : utf8Length s = cs.length := by
  obtain ⟨rfl, hcs⟩ := h
  unfold utf8Length
  rw [foldl_add_eq, Nat.zero_add, sum_flatMap_utf8 (g := fun _ => 1) _ _ cs hcs]
  · simp
  · exact fun b hb => by rw [hb]; rfl
  · intro c a conts hc hu
    obtain ⟨a', conts', hu', ha, -⟩ := utf8_split hc
    rw [hu, List.cons.injEq] at hu'
    rw [hu'.1, ha]
    rfl

theorem utf8Utf16Length_eq {s : List UInt8} {cs : List ℕ} (h : Encodes s cs) :
    utf8Utf16Length s = (cs.map utf16Units).sum := by
  obtain ⟨rfl, hcs⟩ := h
  unfold utf8Utf16Length
  rw [foldl_add_eq, Nat.zero_add, sum_flatMap_utf8 (g := utf16Units) _ _ cs hcs]
  · exact fun b hb => by rw [hb, decide_eq_false (not_four_of_continues hb)]; rfl
  · intro c a conts hc hu
    obtain ⟨a', conts', hu', ha, -, hlt, hfour⟩ := utf8_split hc
    obtain ⟨rfl, -⟩ := List.cons.inj (hu.symm.trans hu')
    unfold utf16Units
    by_cases hbig : 0x10000 ≤ c
    · rw [ha, decide_eq_true ((four_bytes_iff hlt).mpr (hfour.mpr hbig)), if_neg (by omega)]
      rfl
    · rw [ha, decide_eq_false fun h => hbig (hfour.mp ((four_bytes_iff hlt).mp h)), if_pos (by omega)]
      rfl

theorem utf16Units_le_length {c : ℕ} : utf16Units c ≤ (utf8 c).length := by
  unfold utf16Units utf8
  split_ifs <;> simp only [List.length_cons, List.length_nil] <;> omega

theorem sum_units_le_flatMap_utf8 (cs : List ℕ) : (cs.map utf16Units).sum ≤ (cs.flatMap utf8).length := by
  induction cs with
  | nil => rfl
  | cons c cs ih =>
    have hunits := @utf16Units_le_length c
    rw [List.flatMap_cons, List.map_cons, List.sum_cons, List.length_append]
    omega

/-! ### Where the loops stop -/

/-- The loop goes over the bytes that continue a character. -/
theorem utf8TruncateLoop_conts {conts : List UInt8}
    (h : ∀ b ∈ conts, isUtf8CharacterFirstCodeUnit b = false) (str : List UInt8) (i length : ℕ) :
    utf8TruncateLoop (conts ++ str) i length = utf8TruncateLoop str (i + conts.length) length := by
  induction conts generalizing i with
  | nil => rfl
  | cons b conts ih =>
    obtain ⟨hb, hconts⟩ := List.forall_mem_cons.mp h
    rw [List.cons_append, utf8TruncateLoop, hb, if_neg Bool.false_ne_true, ih hconts, List.length_cons]
    congr 1
    omega

theorem utf8Utf16TruncateLoop_conts {conts : List UInt8}
    (h : ∀ b ∈ conts, isUtf8CharacterFirstCodeUnit b = false) (str : List UInt8) (i : ℕ)
    (length : UInt64) :
    utf8Utf16TruncateLoop (conts ++ str) i length =
      utf8Utf16TruncateLoop str (i + conts.length) length := by
  induction conts generalizing i with
  | nil => rfl
  | cons b conts ih =>
    obtain ⟨hb, hconts⟩ := List.forall_mem_cons.mp h
    rw [List.cons_append, utf8Utf16TruncateLoop, hb, if_neg Bool.false_ne_true, ih hconts,
      List.length_cons]
    congr 1
    omega

theorem utf8TruncateLoop_eq (cs : List ℕ) (hcs : ∀ c ∈ cs, Scalar c) (i length : ℕ) :
    utf8TruncateLoop (cs.flatMap utf8) i length =
      if length < cs.length then some (i + ((cs.take length).flatMap utf8).length) else none := by
  induction cs generalizing i length with
  | nil => rfl
  | cons c cs ih =>
    obtain ⟨hc, hcs⟩ := List.forall_mem_cons.mp hcs
    obtain ⟨a, conts, hu, ha, hconts, -⟩ := utf8_split hc
    rw [List.flatMap_cons, hu, List.cons_append, utf8TruncateLoop, if_pos ha]
    rcases length with - | length
    · rw [if_pos rfl, if_pos (List.length_pos_of_ne_nil (List.cons_ne_nil c cs))]
      rfl
    · rw [if_neg (Nat.succ_ne_zero _), utf8TruncateLoop_conts hconts, ih hcs, List.take_succ_cons,
        List.flatMap_cons, hu, Nat.add_sub_cancel]
      simp only [List.length_cons, List.length_append, Nat.add_lt_add_iff_right]
      congr 2
      omega

/-- **Truncation by characters.** -/
theorem utf8Truncate_eq {s : List UInt8} {cs : List ℕ} (h : Encodes s cs) (length : ℕ) :
    utf8Truncate s length = (cs.take length).flatMap utf8 := by
  obtain ⟨rfl, hcs⟩ := h
  have hcount : cs.length ≤ (cs.flatMap utf8).length := length_le_flatMap_utf8 cs
  unfold utf8Truncate
  rw [utf8TruncateLoop_eq cs hcs]
  split_ifs with hsize hlt
  · dsimp only
    rw [Nat.zero_add, take_flatMap_utf8 (List.take_prefix _ _)]
  · dsimp only
    rw [List.take_of_length_le (by omega)]
  · rw [List.take_of_length_le (by omega)]

theorem utf8SubstrFrom_eq {s : List UInt8} {cs : List ℕ} (h : Encodes s cs) (offset : ℕ) :
    utf8SubstrFrom s offset = (cs.drop offset).flatMap utf8 := by
  unfold utf8SubstrFrom
  split_ifs with hzero
  · rw [hzero, List.drop_zero]
    exact h.1
  · have hsplit : s = (cs.take offset).flatMap utf8 ++ (cs.drop offset).flatMap utf8 := by
      rw [← List.flatMap_append, List.take_append_drop]
      exact h.1
    rw [utf8Truncate_eq h]
    nth_rewrite 1 [hsplit]
    rw [List.drop_left]

/-- **Truncation and substrings.**  For a valid string the first `n` characters are a valid prefix, what is left
from character `n` on is the suffix behind it, and a substring has the characters from `n` on, up to `m`. -/
theorem utf8Truncate_substr (s : List UInt8) (n m : ℕ) (hs : checkUtf8 s = true) :
    checkUtf8 (utf8Truncate s n) = true ∧ utf8Truncate s n <+: s ∧
      utf8Length (utf8Truncate s n) = min n (utf8Length s) ∧
      utf8Truncate s n ++ utf8SubstrFrom s n = s ∧
      ∃ cs, Encodes s cs ∧ Encodes (utf8Substr s n m) ((cs.drop n).take m) := by
  obtain ⟨cs, hcs⟩ := (checkUtf8_iff s).mp hs
  have hprefix := hcs.take n
  have hsuffix := hcs.drop n
  have hconcat : utf8Truncate s n ++ utf8SubstrFrom s n = s := by
    rw [utf8Truncate_eq hcs, utf8SubstrFrom_eq hcs, ← List.flatMap_append, List.take_append_drop]
    exact hcs.1.symm
  refine ⟨?_, ⟨_, hconcat⟩, ?_, hconcat, cs, hcs, ?_⟩
  · rw [utf8Truncate_eq hcs]
    exact (checkUtf8_iff _).mpr ⟨_, hprefix⟩
  · rw [utf8Truncate_eq hcs, utf8Length_eq hprefix, utf8Length_eq hcs, List.length_take]
  · rw [utf8Substr, utf8SubstrFrom_eq hcs, utf8Truncate_eq hsuffix]
    exact hsuffix.take m

theorem utf8Truncate_substr_two : checkUtf8 (utf8Truncate [0xd0, 0xbf, 0x61] 1) = true ∧
    utf8Truncate [0xd0, 0xbf, 0x61] 1 <+: [0xd0, 0xbf, 0x61] ∧
      utf8Length (utf8Truncate [0xd0, 0xbf, 0x61] 1) = min 1 (utf8Length [0xd0, 0xbf, 0x61]) ∧
      utf8Truncate [0xd0, 0xbf, 0x61] 1 ++ utf8SubstrFrom [0xd0, 0xbf, 0x61] 1 = [0xd0, 0xbf, 0x61] ∧
      ∃ cs, Encodes [0xd0, 0xbf, 0x61] cs ∧
        Encodes (utf8Substr [0xd0, 0xbf, 0x61] 1 1) ((cs.drop 1).take 1) :=
  utf8Truncate_substr [0xd0, 0xbf, 0x61] 1 1 (by decide)

/-! ### Truncation by the length in UTF-16 -/

/-- The characters that `utf8_utf16_truncate` keeps. -/
def utf16Kept : List ℕ → UInt64 → List ℕ
  | [], _ => []
  | c :: cs, length =>
    if length ≤ 0 then [] else c :: utf16Kept cs (length - UInt64.ofNat (utf16Units c))

theorem utf16Kept_starts (cs : List ℕ) (length : UInt64) : utf16Kept cs length <+: cs := by
  induction cs generalizing length with
  | nil => exact List.prefix_refl []
  | cons c cs ih =>
    rw [utf16Kept]
    split_ifs
    · exact List.nil_prefix
    · exact List.cons_prefix_cons.mpr ⟨rfl, ih _⟩

theorem utf8Utf16TruncateLoop_eq (cs : List ℕ) (hcs : ∀ c ∈ cs, Scalar c) (i : ℕ) (length : UInt64) :
    utf8Utf16TruncateLoop (cs.flatMap utf8) i length =
      if (utf16Kept cs length).length < cs.length then
        some (i + ((utf16Kept cs length).flatMap utf8).length)
      else none := by
  induction cs generalizing i length with
  | nil => rfl
  | cons c cs ih =>
    obtain ⟨hc, hcs⟩ := List.forall_mem_cons.mp hcs
    obtain ⟨a, conts, hu, ha, hconts, -, hfour⟩ := utf8_split hc
    rw [List.flatMap_cons, hu, List.cons_append, utf8Utf16TruncateLoop, if_pos ha, utf16Kept]
    by_cases hzero : length ≤ 0
    · have hlen : ([] : List ℕ).length < (c :: cs).length := Nat.succ_pos _
      rw [if_pos hzero, if_pos hzero, if_pos hlen]
      rfl
    · have hunits : (if a.toNat ≥ 0xf0 then length - 1 - 1 else length - 1) =
          length - UInt64.ofNat (utf16Units c) := by
        unfold utf16Units
        by_cases hbig : 0x10000 ≤ c
        · rw [if_pos (hfour.mpr hbig), if_neg (by omega)]
          exact UInt64.toBitVec_inj.mp (BitVec.sub_sub _ _ _)
        · rw [if_neg fun h => hbig (hfour.mp h), if_pos (by omega)]
          rfl
      rw [if_neg hzero, if_neg hzero]
      dsimp only
      rw [hunits, utf8Utf16TruncateLoop_conts hconts, ih hcs, List.flatMap_cons, hu]
      simp only [List.length_cons, List.length_append, Nat.add_lt_add_iff_right]
      congr 2
      omega

theorem utf8Utf16Truncate_eq {s : List UInt8} {cs : List ℕ} (h : Encodes s cs) (length : UInt64) :
    utf8Utf16Truncate s length = (utf16Kept cs length).flatMap utf8 := by
  obtain ⟨rfl, hcs⟩ := h
  have hkept := utf16Kept_starts cs length
  unfold utf8Utf16Truncate
  rw [utf8Utf16TruncateLoop_eq cs hcs]
  split_ifs with hlt
  · dsimp only
    rw [Nat.zero_add, take_flatMap_utf8 hkept]
  · dsimp only
    rw [hkept.eq_of_length_le (by omega)]

/-- No character that needs a surrogate pair begins where one code unit is left, but for the last one. -/
def NoneStraddles (cs : List ℕ) (length : ℕ) : Prop :=
  ∀ before c after, cs = before ++ c :: after → (before.map utf16Units).sum + 1 = length → 0x10000 ≤ c →
    after = []

theorem noneStraddles_cons {c : ℕ} {cs : List ℕ} {length : ℕ} (hlen : utf16Units c ≤ length) :
    NoneStraddles (c :: cs) length ↔ NoneStraddles cs (length - utf16Units c) := by
  constructor
  · intro h before d after hcs hsum
    refine h (c :: before) d after (by rw [hcs]; rfl) ?_
    rw [List.map_cons, List.sum_cons]
    omega
  · rintro h (- | ⟨b, before⟩) d after hcs hsum hbig
    · obtain ⟨rfl, rfl⟩ := List.cons.inj hcs
      rw [List.map_nil, List.sum_nil] at hsum
      rw [utf16Units, if_neg (by omega)] at hlen
      omega
    · obtain ⟨rfl, rfl⟩ := List.cons.inj hcs
      rw [List.map_cons, List.sum_cons] at hsum
      exact h before d after rfl (by omega) hbig

theorem noneStraddles_one {c : ℕ} {cs : List ℕ} (hbig : 0x10000 ≤ c) :
    NoneStraddles (c :: cs) 1 ↔ cs = [] := by
  constructor
  · exact fun h => h [] c cs rfl rfl hbig
  · rintro rfl (- | ⟨b, before⟩) d after hcs - -
    · exact (List.cons.inj hcs).2.symm
    · exact absurd (List.cons.inj hcs).2.symm (by simp)

theorem utf16Units_pos (c : ℕ) : 1 ≤ utf16Units c := by
  unfold utf16Units
  split_ifs <;> omega

theorem toNat_sub_units {c : ℕ} {length : UInt64} (h : utf16Units c ≤ length.toNat) :
    (length - UInt64.ofNat (utf16Units c)).toNat = length.toNat - utf16Units c := by
  have hlt := length.toNat_lt
  have hof : (UInt64.ofNat (utf16Units c)).toNat = utf16Units c := by
    rw [UInt64.toNat_ofNat']
    omega
  rw [UInt64.toNat_sub_of_le _ _ (by rw [UInt64.le_iff_toNat_le, hof]; exact h), hof]

/-- A counter that is large enough lets everything pass. -/
theorem utf16Kept_all (cs : List ℕ) (length : UInt64) (h : (cs.map utf16Units).sum ≤ length.toNat) :
    utf16Kept cs length = cs := by
  induction cs generalizing length with
  | nil => rfl
  | cons c cs ih =>
    have hpos := utf16Units_pos c
    rw [List.map_cons, List.sum_cons] at h
    have hsub := @toNat_sub_units c length (by omega)
    have hzero : ¬ length ≤ 0 := by
      rw [UInt64.le_iff_toNat_le]
      show ¬ length.toNat ≤ 0
      omega
    rw [utf16Kept, if_neg hzero, ih _ (by omega)]

/-- The code units that are kept exceed the length by one at most, unless the counter wraps around. -/
theorem utf16Kept_le_iff (cs : List ℕ) (length : UInt64) (hfew : (cs.map utf16Units).sum < 2 ^ 64) :
    ((utf16Kept cs length).map utf16Units).sum ≤ length.toNat + 1 ↔ NoneStraddles cs length.toNat := by
  induction cs generalizing length with
  | nil => exact ⟨fun _ before c after hcs => absurd hcs (by simp), fun _ => Nat.zero_le _⟩
  | cons c cs ih =>
    rw [List.map_cons, List.sum_cons] at hfew
    rw [utf16Kept]
    by_cases hzero : length ≤ 0
    · have h0 : length.toNat = 0 := by
        rw [UInt64.le_iff_toNat_le] at hzero
        exact Nat.le_zero.mp hzero
      rw [if_pos hzero, h0]
      exact ⟨fun _ before d after _ hsum => absurd hsum (Nat.succ_ne_zero _), fun _ => Nat.zero_le _⟩
    · have hpos : 0 < length.toNat := by
        rw [UInt64.le_iff_toNat_le] at hzero
        exact Nat.lt_of_not_le hzero
      rw [if_neg hzero, List.map_cons, List.sum_cons]
      by_cases hle : utf16Units c ≤ length.toNat
      · have hsub := toNat_sub_units hle
        rw [noneStraddles_cons hle, ← hsub, ← ih _ (by omega), hsub]
        omega
      · have hone : length.toNat = 1 ∧ utf16Units c = 2 ∧ 0x10000 ≤ c := by
          unfold utf16Units at hle ⊢
          split_ifs at hle ⊢ <;> omega
        have hwrap : (length - UInt64.ofNat (utf16Units c)).toNat = 2 ^ 64 - 1 := by
          rw [UInt64.toNat_sub, hone.1, hone.2.1]
          rfl
        rw [utf16Kept_all _ _ (by omega), hone.1, hone.2.1, noneStraddles_one hone.2.2]
        constructor
        · intro hsum
          rcases cs with - | ⟨d, cs⟩
          · rfl
          · have hd := utf16Units_pos d
            rw [List.map_cons, List.sum_cons] at hsum
            omega
        · rintro rfl
          exact Nat.le_refl 2

/-- What `utf8_utf16_truncate` is to return: whole characters, of at most one code unit too many, and everything
only if everything fits so. -/
def Utf16Truncated (str : List UInt8) (length : UInt64) (result : List UInt8) : Prop :=
  (∃ cs kept, Encodes str cs ∧ kept <+: cs ∧ Encodes result kept) ∧
    utf8Utf16Length result ≤ length.toNat + 1 ∧
    (result = str → utf8Utf16Length str ≤ length.toNat + 1)

/-- **Truncation by the length in UTF-16.**  `utf8_utf16_truncate` cuts a valid string where it is to be cut, unless
a character that needs a surrogate pair begins where one code unit is left and is not the last one. -/
theorem utf16Truncated_iff (str : List UInt8) (length : UInt64) (hstr : checkUtf8 str = true)
    (hsize : str.length < 2 ^ 64) :
    Utf16Truncated str length (utf8Utf16Truncate str length) ↔
      ∀ before c after, Encodes str (before ++ c :: after) →
        (before.map utf16Units).sum + 1 = length.toNat → 0x10000 ≤ c → after = [] := by
  obtain ⟨cs, hcs⟩ := (checkUtf8_iff str).mp hstr
  have hkept : Encodes (utf8Utf16Truncate str length) (utf16Kept cs length) :=
    ⟨utf8Utf16Truncate_eq hcs length, fun c hc => hcs.2 c ((utf16Kept_starts cs length).mem hc)⟩
  have hfew : (cs.map utf16Units).sum < 2 ^ 64 := by
    have hle := sum_units_le_flatMap_utf8 cs
    rw [← hcs.1] at hle
    omega
  have hiff := utf16Kept_le_iff cs length hfew
  have hlen := utf8Utf16Length_eq hkept
  rw [← hlen] at hiff
  constructor
  · rintro ⟨-, hle, -⟩ before c after hat
    exact hiff.mp hle before c after (hcs.inj hat)
  · intro h
    have hle := hiff.mpr fun before c after heq => h before c after (heq ▸ hcs)
    exact ⟨⟨cs, _, hcs, utf16Kept_starts cs length, hkept⟩, hle, fun heq => heq ▸ hle⟩

theorem utf16Truncated_iff_pair :
    Utf16Truncated [0x61, 0xf0, 0x9f, 0x98, 0x80] 2 (utf8Utf16Truncate [0x61, 0xf0, 0x9f, 0x98, 0x80] 2) ↔
      ∀ before c after, Encodes [0x61, 0xf0, 0x9f, 0x98, 0x80] (before ++ c :: after) →
        (before.map utf16Units).sum + 1 = (2 : UInt64).toNat → 0x10000 ≤ c → after = [] :=
  utf16Truncated_iff [0x61, 0xf0, 0x9f, 0x98, 0x80] 2 (by decide) (by decide)

/-- Of a surrogate pair and more, at the length 1, nothing is cut off. -/
theorem straddling_keeps_all : ¬ ∀ (str : List UInt8) (length : UInt64), checkUtf8 str = true →
    str.length < 2 ^ 64 → Utf16Truncated str length (utf8Utf16Truncate str length) := by
  intro h
  have hcut := (h [0xf0, 0x9f, 0x98, 0x80, 0x61] 1 (by decide) (by decide)).2.1
  exact absurd hcut (by decide)

end TdUtils.Text
