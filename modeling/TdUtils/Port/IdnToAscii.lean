import TdUtils.Port.Punycode

/-!
# Port.IdnToAscii — `idn_to_ascii` where punycode is the program's own

A host that is all ASCII is put in lower case, and a label that is not is encoded with its letters in lower case.
An ASCII label beside such a label is copied as it is, so what comes out is in lower case, and comes out of a
second call unchanged, if and only if the labels that are copied have no capital letters.
-/

namespace TdUtils.IpAddress

open Lib Bytes Utf8 Text

def isAsciiHostChar (c : UInt8) : Bool := c ≤ 127

def isAsciiHost (host : List UInt8) : Bool := host.all isAsciiHostChar

/-- The loop of `full_split`, with what is passed of the part up to the next delimiter. -/
def splitLoop (delimiter : UInt8) : List UInt8 → List UInt8 → List (List UInt8)
  | part, [] => [part]
  | part, c :: s =>
    if c = delimiter then part :: splitLoop delimiter [] s
    else splitLoop delimiter (part ++ [c]) s

def fullSplit (s : List UInt8) (delimiter : UInt8) : List (List UInt8) :=
  if s = [] then [] else splitLoop delimiter [] s

/-- The loop over the labels. -/
def appendParts : List (List UInt8) → Bool → List UInt8 → Option (List UInt8)
  | [], _, result => some result
  | part :: parts, isFirst, result => do
    let result := if isFirst then result else result ++ [ch '.']
    let result ←
      if isAsciiHost part then some (result ++ part)
      else punycode (result ++ chs ['x', 'n', '-', '-']) part
    appendParts parts false result

def maxDnsNameLength : ℕ := 255

/-- `idn_to_ascii`; none is an overflow. -/
def idnToAscii (host : List UInt8) : Option (Except String (List UInt8)) :=
  if isAsciiHost host then some (.ok (toLower host))
  else if ¬ checkUtf8 host then some (.error "Host name must be encoded in UTF-8")
  else if maxDnsNameLength * 4 ≤ host.length then some (.error "Host name is too long")
  else (appendParts (fullSplit host (ch '.')) true []).map .ok

/-! ### Lower case -/

def isUpper (c : UInt8) : Bool := ch 'A' ≤ c ∧ c ≤ ch 'Z'

/-- ASCII without capital letters. -/
def LowerAscii (s : List UInt8) : Prop := ∀ c ∈ s, c < 0x80 ∧ isUpper c = false

instance (s : List UInt8) : Decidable (LowerAscii s) := inferInstanceAs (Decidable (∀ c ∈ s, _))

variable {s t : List UInt8}

theorem lowerAscii_append : LowerAscii (s ++ t) ↔ LowerAscii s ∧ LowerAscii t := List.forall_mem_append

theorem isAsciiHost_iff : isAsciiHost s = true ↔ ∀ c ∈ s, c < 0x80 := by
  have hchar : ∀ c : UInt8, isAsciiHostChar c = true ↔ c < 0x80 := fun c => by
    rw [isAsciiHostChar, decide_eq_true_iff, UInt8.le_iff_toNat_le, UInt8.lt_iff_toNat_lt]
    exact Nat.lt_succ_iff.symm
  unfold isAsciiHost
  rw [List.all_eq_true]
  exact forall₂_congr fun c _ => hchar c

theorem LowerAscii.isAsciiHost (h : LowerAscii s) : isAsciiHost s = true :=
  isAsciiHost_iff.mpr fun c hc => (h c hc).1

theorem toLowerChar_eq_self (c : UInt8) (h : isUpper c = false) : toLowerChar c = c :=
  toLowerChar_of_not_capital (of_decide_eq_false h)

theorem isUpper_toLowerChar (c : UInt8) : isUpper (toLowerChar c) = false :=
  decide_eq_false (toLowerChar_not_capital c)

theorem LowerAscii.toLower_eq (h : LowerAscii s) : toLower s = s := by
  unfold toLower
  conv_rhs => rw [← List.map_id s]
  exact List.map_congr_left fun c hc => toLowerChar_eq_self c (h c hc).2

theorem lowerAscii_toLower (h : isAsciiHost s = true) : LowerAscii (toLower s) := by
  intro c hc
  obtain ⟨x, hx, rfl⟩ := List.mem_map.mp hc
  exact ⟨toLowerChar_lt x (isAsciiHost_iff.mp h x hx), isUpper_toLowerChar x⟩

/-- ASCII is a fixed point if and only if it is in lower case. -/
theorem idnToAscii_eq_self (h : LowerAscii s) : idnToAscii s = some (.ok s) := by
  unfold idnToAscii
  rw [if_pos h.isAsciiHost, h.toLower_eq]

theorem digit_lower : ∀ d < 36, Punycode.digit d < 0x80 ∧ isUpper (Punycode.digit d) = false := by decide

/-- An encoded label is in lower case. -/
theorem lowerAscii_encode (codes : List ℕ) : LowerAscii (Punycode.encode (codes.map lowerCode)) := by
  unfold Punycode.encode
  dsimp only
  rw [lowerAscii_append, lowerAscii_append]
  refine ⟨⟨?_, ?_⟩, ?_⟩
  · intro c hc
    obtain ⟨x, hx, rfl⟩ := List.mem_map.mp hc
    obtain ⟨hmem, hlt⟩ := List.mem_filter.mp hx
    obtain ⟨code, -, rfl⟩ := List.mem_map.mp hmem
    have hcode : code < 128 := by
      by_contra hge
      rw [lowerCode_of_ge (Nat.le_of_not_lt hge), decide_eq_true_eq] at hlt
      exact hge hlt
    have hbyte : UInt8.ofNat code < 0x80 := by
      rw [UInt8.lt_iff_toNat_lt, UInt8.toNat_ofNat', Nat.mod_eq_of_lt (by omega)]
      exact hcode
    rw [ofNat_lowerCode hcode]
    exact ⟨toLowerChar_lt _ hbyte, isUpper_toLowerChar _⟩
  · split_ifs
    · exact fun c hc => absurd hc List.not_mem_nil
    · decide
  · intro c hc
    obtain ⟨d, hd, rfl⟩ := Punycode.encodeFrom_isDigit (fun c hc => absurd hc List.not_mem_nil) c hc
    exact digit_lower d hd

/-! ### Labels -/

/-- A label that can be encoded. -/
def IsLabel (part : List UInt8) : Prop := Valid part ∧ part.length < 1020

/-- What is written for a label. -/
def labelText (part : List UInt8) : List UInt8 :=
  if isAsciiHost part then part else chs ['x', 'n', '-', '-'] ++ (punycode [] part).getD []

theorem punycode_of_isLabel (h : IsLabel s) (result : List UInt8) :
    punycode result s = some (result ++ (punycode [] s).getD []) ∧ LowerAscii ((punycode [] s).getD []) := by
  obtain ⟨⟨codes, hcodes⟩, hlen⟩ := h
  rw [(punycode_eq hcodes hlen result).1, (punycode_eq hcodes hlen []).1, Option.getD_some, List.nil_append]
  exact ⟨rfl, lowerAscii_encode codes⟩

/-- The text of a label is in lower case unless it is a copy of a label that is not. -/
theorem lowerAscii_labelText (h : IsLabel s) :
    LowerAscii (labelText s) ↔ isAsciiHost s = true → ∀ c ∈ s, isUpper c = false := by
  unfold labelText
  split_ifs with hascii
  · exact ⟨fun hlower _ c hc => (hlower c hc).2, fun hupper c hc => ⟨isAsciiHost_iff.mp hascii c hc, hupper hascii c hc⟩⟩
  · refine ⟨fun _ htrue => absurd htrue hascii, fun _ => ?_⟩
    exact lowerAscii_append.mpr ⟨by decide, (punycode_of_isLabel h []).2⟩

theorem labelText_ascii (h : IsLabel s) : ∀ c ∈ labelText s, c < 0x80 := by
  by_cases hascii : isAsciiHost s = true
  · unfold labelText
    rw [if_pos hascii]
    exact isAsciiHost_iff.mp hascii
  · exact fun c hc => ((lowerAscii_labelText h).mpr (fun htrue => absurd htrue hascii) c hc).1

/-- The loop over the labels writes their texts. -/
theorem appendParts_spec : ∀ {parts : List (List UInt8)} {isFirst : Bool} {result : List UInt8},
    (∀ part ∈ parts, IsLabel part) → (∀ c ∈ result, c < 0x80) →
    ∃ r, appendParts parts isFirst result = some r ∧ (∀ c ∈ r, c < 0x80) ∧
      (LowerAscii r ↔ LowerAscii result ∧ ∀ part ∈ parts, LowerAscii (labelText part))
  | [], isFirst, result, _, hresult =>
    ⟨result, rfl, hresult, ⟨fun h => ⟨h, fun _ hp => absurd hp List.not_mem_nil⟩, fun h => h.1⟩⟩
  | part :: parts, isFirst, result, hparts, hresult => by
    obtain ⟨hpart, hparts⟩ := List.forall_mem_cons.mp hparts
    have hdot : LowerAscii [ch '.'] := by decide
    obtain ⟨front, hfront, hascii, hlower⟩ : ∃ front, (if isFirst then result else result ++ [ch '.']) = front ∧
        (∀ c ∈ front, c < 0x80) ∧ (LowerAscii front ↔ LowerAscii result) := by
      refine ⟨_, rfl, ?_, ?_⟩
      · split_ifs
        · exact hresult
        · exact List.forall_mem_append.mpr ⟨hresult, fun c hc => (hdot c hc).1⟩
      · split_ifs
        · exact Iff.rfl
        · exact lowerAscii_append.trans (and_iff_left hdot)
    have hascii' : ∀ c ∈ front ++ labelText part, c < 0x80 :=
      List.forall_mem_append.mpr ⟨hascii, labelText_ascii hpart⟩
    obtain ⟨r, hrest, hr, hiff⟩ := @appendParts_spec _ false _ hparts hascii'
    refine ⟨r, ?_, hr, ?_⟩
    · unfold appendParts
      rw [hfront]
      simp only [Option.bind_eq_bind]
      unfold labelText at hrest
      split_ifs at hrest ⊢
      · exact hrest
      · rw [(punycode_of_isLabel hpart _).1, Option.bind_some, List.append_assoc]
        exact hrest
    · rw [hiff, lowerAscii_append, hlower, List.forall_mem_cons, and_assoc]

/-- The parts of a valid string are valid. -/
theorem splitLoop_valid : ∀ {s part : List UInt8}, Valid (part ++ s) →
    ∀ p ∈ splitLoop (ch '.') part s, Valid p ∧ p.length ≤ (part ++ s).length
  | [], part, h => by
    rw [List.append_nil] at h ⊢
    intro p hp
    rw [List.mem_singleton.mp hp]
    exact ⟨h, le_rfl⟩
  | c :: s, part, h => by
    unfold splitLoop
    split_ifs with hdot
    · subst hdot
      have hhead : ∀ b ∈ (ch '.' :: s).head?, ¬ Continues b := by
        rintro b hb
        obtain rfl := Option.some.inj hb
        unfold Continues
        decide
      obtain ⟨hpart, hrest⟩ := (valid_append hhead part).mp h
      have hfront : front (ch '.' :: s) = some (0x2e, s) := front_utf8 (c := 0x2e) (by decide) s
      have hs : Valid s := by
        rcases valid_iff_front.mp hrest with hnil | ⟨c, rest, hfront', hvalid⟩
        · cases hnil
        · rw [hfront] at hfront'
          obtain ⟨-, rfl⟩ := Prod.mk.inj (Option.some.inj hfront')
          exact hvalid
      intro p hp
      rw [List.length_append, List.length_cons]
      rcases List.mem_cons.mp hp with rfl | hp
      · exact ⟨hpart, Nat.le_add_right _ _⟩
      · obtain ⟨hvalid, hle⟩ := @splitLoop_valid _ [] hs p hp
        rw [List.nil_append] at hle
        exact ⟨hvalid, by omega⟩
    · have hmove : part ++ c :: s = part ++ [c] ++ s := by rw [List.append_assoc, List.singleton_append]
      rw [hmove] at h ⊢
      exact splitLoop_valid h

theorem fullSplit_isLabel (h : Valid s) (hlen : s.length < 1020) : ∀ part ∈ fullSplit s (ch '.'), IsLabel part := by
  intro part hpart
  unfold fullSplit at hpart
  split_ifs at hpart
  · cases hpart
  · obtain ⟨hvalid, hle⟩ := @splitLoop_valid _ [] h part hpart
    rw [List.nil_append] at hle
    exact ⟨hvalid, by omega⟩

/-- Nothing overflows, whatever the host is. -/
theorem idnToAscii_isSome (host : List UInt8) : ∃ answer, idnToAscii host = some answer := by
  unfold idnToAscii
  split_ifs with hascii hutf8 hlen
  · exact ⟨_, rfl⟩
  · exact ⟨_, rfl⟩
  · have hlabel := fullSplit_isLabel ((checkUtf8_iff host).mp hutf8) (Nat.lt_of_not_le hlen)
    obtain ⟨r, hparts, -⟩ := @appendParts_spec _ true _ hlabel (fun c hc => absurd hc List.not_mem_nil)
    exact ⟨.ok r, by rw [hparts, Option.map_some]⟩
  · exact ⟨_, rfl⟩

/-- What a host that is not ASCII becomes is ASCII, and in lower case if the labels that are copied are. -/
theorem idnToAscii_of_not_ascii {r : List UInt8} (hascii : ¬ isAsciiHost s = true)
    (h : idnToAscii s = some (.ok r)) :
    isAsciiHost r = true ∧ (LowerAscii r ↔ ∀ part ∈ fullSplit s (ch '.'), isAsciiHost part = true →
      ∀ c ∈ part, isUpper c = false) := by
  unfold idnToAscii at h
  rw [if_neg hascii] at h
  split_ifs at h with hutf8 hlen
  · cases h
  · have hlabel := fullSplit_isLabel ((checkUtf8_iff s).mp hutf8) (Nat.lt_of_not_le hlen)
    obtain ⟨r', hparts, hr, hiff⟩ := @appendParts_spec _ true _ hlabel
      (fun c hc => absurd hc List.not_mem_nil)
    rw [hparts] at h
    obtain rfl := Except.ok.inj (Option.some.inj h)
    refine ⟨isAsciiHost_iff.mpr hr, hiff.trans ?_⟩
    have hnil : LowerAscii [] := fun c hc => absurd hc List.not_mem_nil
    rw [and_iff_right hnil]
    exact forall₂_congr fun part hpart => lowerAscii_labelText (hlabel part hpart)
  · cases h

/-- The result is in lower case and a fixed point if and only if the host is all ASCII, or none of its labels that
are has a capital letter. -/
theorem idnToAscii_canonical_iff {host r : List UInt8} (h : idnToAscii host = some (.ok r)) :
    (LowerAscii r ∧ idnToAscii r = some (.ok r)) ↔
      (isAsciiHost host = true ∨ ∀ part ∈ fullSplit host (ch '.'), isAsciiHost part = true →
        ∀ c ∈ part, isUpper c = false) := by
  rw [and_iff_left_of_imp idnToAscii_eq_self]
  by_cases hascii : isAsciiHost host = true
  · have hr : toLower host = r := by
      unfold idnToAscii at h
      rw [if_pos hascii] at h
      exact Except.ok.inj (Option.some.inj h)
    rw [← hr]
    exact iff_of_true (lowerAscii_toLower hascii) (.inl hascii)
  · rw [(idnToAscii_of_not_ascii hascii h).2]
    exact (or_iff_right hascii).symm

/-- `bücher.tld`. -/
theorem idnToAscii_canonical_tld :
    (LowerAscii (chs ['x', 'n', '-', '-', 'b', 'c', 'h', 'e', 'r', '-', 'k', 'v', 'a', '.', 't', 'l', 'd']) ∧
      idnToAscii (chs ['x', 'n', '-', '-', 'b', 'c', 'h', 'e', 'r', '-', 'k', 'v', 'a', '.', 't', 'l', 'd']) =
        some (.ok (chs ['x', 'n', '-', '-', 'b', 'c', 'h', 'e', 'r', '-', 'k', 'v', 'a', '.', 't', 'l', 'd']))) ↔
    (isAsciiHost ([0x62, 0xc3, 0xbc] ++ chs ['c', 'h', 'e', 'r', '.', 't', 'l', 'd']) = true ∨
      ∀ part ∈ fullSplit ([0x62, 0xc3, 0xbc] ++ chs ['c', 'h', 'e', 'r', '.', 't', 'l', 'd']) (ch '.'),
        isAsciiHost part = true → ∀ c ∈ part, isUpper c = false) :=
  idnToAscii_canonical_iff (by decide +kernel)

/-- `ABC.ü` keeps its capital letters. -/
theorem capitals_kept : ∃ r, idnToAscii (chs ['A', 'B', 'C', '.'] ++ [0xc3, 0xbc]) = some (.ok r) ∧
    ¬ (LowerAscii r ∧ idnToAscii r = some (.ok r)) := by
  refine ⟨chs ['A', 'B', 'C', '.', 'x', 'n', '-', '-', 't', 'd', 'a'], by decide +kernel, ?_⟩
  rintro ⟨hlower, -⟩
  exact absurd hlower (by decide)

end TdUtils.IpAddress
