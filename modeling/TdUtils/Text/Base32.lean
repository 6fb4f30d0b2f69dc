import TdUtils.Lib.Bytes
import TdUtils.Lib.Digits
import TdUtils.Lib.Table
import TdUtils.Text.Misc

/-!
# Text.Base32 — base32, and what its decoder accepts

Both directions shift their input into an `uint32` that is never masked.  The bits that are lost were given out before.
The decoder looks at the value of the bits that are left over, and not at how many they are.
-/

namespace TdUtils.Base32

open Lib.Bytes (chs)
open Lib.Digits
open Text (toLower toLowerChar)

/-- `get_base32_characters`. -/
def characters (upperCase : Bool) : List UInt8 :=
  if upperCase then
    chs ['A', 'B', 'C', 'D', 'E', 'F', 'G', 'H', 'I', 'J', 'K', 'L', 'M', 'N', 'O', 'P', 'Q', 'R', 'S', 'T', 'U', 'V',
      'W', 'X', 'Y', 'Z', '2', '3', '4', '5', '6', '7']
  else
    chs ['a', 'b', 'c', 'd', 'e', 'f', 'g', 'h', 'i', 'j', 'k', 'l', 'm', 'n', 'o', 'p', 'q', 'r', 's', 't', 'u', 'v',
      'w', 'x', 'y', 'z', '2', '3', '4', '5', '6', '7']

def character (upperCase : Bool) (i : ℕ) : UInt8 := (characters upperCase).getD i 0

/-- The positions and values that are put into the table. -/
def entries : List (ℕ × ℕ) :=
  (List.range 32).flatMap fun i => [((character false i).toNat, i), ((character true i).toNat, i)]

/-- `get_base32_character_table`. -/
def characterTable : List ℕ := Lib.Table.fill (List.replicate 256 32) entries

/-- What was written, and the variables `c`, an `uint32`, and `length`. -/
structure Accumulator where
  written : List UInt8
  c : ℕ
  length : ℕ

/-! ### Encoding -/

/-- The inner loop. -/
def giveOut (upperCase : Bool) (c : ℕ) : List UInt8 → ℕ → List UInt8 × ℕ
  | base32, length + 5 => giveOut upperCase c (base32 ++ [character upperCase (c >>> length &&& 31)]) length
  | base32, length => (base32, length)

/-- One round of the loop. -/
def encodeByte (upperCase : Bool) (s : Accumulator) (byte : UInt8) : Accumulator :=
  let c := (s.c <<< 8) % 2 ^ 32 ||| byte.toNat
  let (base32, length) := giveOut upperCase c s.written (s.length + 8)
  ⟨base32, c, length⟩

def base32Encode (input : List UInt8) (upperCase : Bool) : List UInt8 :=
  let s := input.foldl (encodeByte upperCase) ⟨[], 0, 0⟩
  if s.length ≠ 0 then s.written ++ [character upperCase ((s.c <<< (5 - s.length)) % 2 ^ 32 &&& 31)]
  else s.written

/-! ### Decoding -/

/-- `table[x]`. -/
def value (x : UInt8) : ℕ := characterTable.getD x.toNat 0

def decodeLoop : List UInt8 → Accumulator → Except String Accumulator
  | [], s => .ok s
  | x :: base32, s =>
    if value x = 32 then .error "Wrong character in the string"
    else
      let c := (s.c <<< 5) % 2 ^ 32 ||| value x
      let length := s.length + 5
      if length ≥ 8 then
        let length := length - 8
        decodeLoop base32 ⟨s.written ++ [UInt8.ofNat (c >>> length &&& 255)], c, length⟩
      else decodeLoop base32 ⟨s.written, c, length⟩

def base32Decode (base32 : List UInt8) : Except String (List UInt8) := do
  let s ← decodeLoop base32 ⟨[], 0, 0⟩
  if s.c &&& (1 <<< s.length) - 1 ≠ 0 then throw "Nonzero padding" else return s.written

/-! ### The table -/

theorem toLowerChar_character : ∀ upperCase : Bool, ∀ i < 32,
    toLowerChar (character upperCase i) = character false i := by decide

theorem characters_nodup : (characters false).Nodup := by decide

theorem character_inj {u v : Bool} {d i : ℕ} (hd : d < 32) (hi : i < 32) (h : character u d = character v i) :
    d = i := by
  have hlen : (characters false).length = 32 := rfl
  have hlower := congrArg toLowerChar h
  rw [toLowerChar_character u d hd, toLowerChar_character v i hi] at hlower
  unfold character at hlower
  rw [List.getD_eq_getElem _ _ (by omega), List.getD_eq_getElem _ _ (by omega)] at hlower
  exact (characters_nodup.getElem_inj_iff).mp hlower

theorem mem_entries {e : ℕ × ℕ} : e ∈ entries ↔ ∃ i < 32, ∃ u, e = ((character u i).toNat, i) := by
  simp only [entries, List.mem_flatMap, List.mem_range, List.mem_cons, List.not_mem_nil, or_false,
    Bool.exists_bool]

theorem value_character (u : Bool) {d : ℕ} (hd : d < 32) : value (character u d) = d := by
  have hmem : ((character u d).toNat, d) ∈ entries := mem_entries.mpr ⟨d, hd, u, rfl⟩
  have hall : ∀ e ∈ entries, e.1 = (character u d).toNat → e.2 = d := by
    intro e he heq
    obtain ⟨i, hi, v, rfl⟩ := mem_entries.mp he
    exact character_inj hi hd (UInt8.toNat_inj.mp heq)
  have hlt : (character u d).toNat < (List.replicate 256 32).length := by
    rw [List.length_replicate]
    exact UInt8.toNat_lt _
  unfold value characterTable
  rw [List.getD_eq_getElem?_getD,
    Lib.Table.getElem?_fill_of_forall hall (List.mem_map.mpr ⟨_, hmem, rfl⟩) hlt]
  rfl

/-- A byte that has a value is its character, but for the case. -/
theorem character_value {x : UInt8} (hx : value x ≠ 32) :
    value x < 32 ∧ character false (value x) = toLowerChar x := by
  have hlt : x.toNat < characterTable.length := by
    unfold characterTable
    rw [Lib.Table.length_fill, List.length_replicate]
    exact x.toNat_lt
  have hget : characterTable[x.toNat]? = some (value x) := by
    unfold value
    rw [List.getD_eq_getElem?_getD, List.getElem?_eq_getElem hlt]
    rfl
  rcases Lib.Table.entry_of_fill hget with hentry | hempty
  · obtain ⟨i, hi, u, heq⟩ := mem_entries.mp hentry
    obtain ⟨hxu, hvalue⟩ := Prod.mk.inj heq
    rw [hvalue, UInt8.toNat_inj.mp hxu, toLowerChar_character u i hi]
    exact ⟨hi, rfl⟩
  · rw [List.getElem?_replicate, if_pos x.toNat_lt] at hempty
    exact absurd (Option.some.inj hempty).symm hx

/-! ### What the loops do -/

variable {u : Bool} {n left length : ℕ} {ds es vs : List ℕ} {s : Accumulator}

theorem giveOut_of_lt (u : Bool) (c : ℕ) (base32 : List UInt8) (h : length < 5) :
    giveOut u c base32 length = (base32, length) := by
  unfold giveOut
  split
  · omega
  · rfl

/-- The inner loop gives out digits as long as there are enough bits. -/
theorem giveOut_spec (h : Regroup 8 5 ds es length) (hlen : length ≤ 32) :
    ∃ es' left, giveOut u (number 8 ds % 2 ^ 32) (es.map (character u)) length = (es'.map (character u), left) ∧
      Regroup 8 5 ds es' left ∧ left < 5 := by
  induction length using Nat.strong_induction_on generalizing es with
  | _ length ih =>
    by_cases hlt : length < 5
    · exact ⟨es, length, giveOut_of_lt u _ _ hlt, h, hlt⟩
    · obtain ⟨rest, rfl⟩ := Nat.exists_eq_add_of_le' (Nat.le_of_not_lt hlt)
      have hpull := h.pull (Nat.le_add_left 5 rest)
      rw [Nat.add_sub_cancel] at hpull
      have hdigit : (number 8 ds % 2 ^ 32) >>> rest &&& 31 = number 8 ds / 2 ^ rest % 2 ^ 5 :=
        shift_out (by omega)
      obtain ⟨es', left, hrun, hes', hleft⟩ := ih rest (by omega) hpull (by omega)
      rw [List.map_append, List.map_singleton] at hrun
      exact ⟨es', left, by rw [giveOut, hdigit, hrun], hes', hleft⟩

/-- The bytes taken in so far, regrouped. -/
structure Encoding (u : Bool) (input : List UInt8) (s : Accumulator) (es : List ℕ) : Prop where
  written : s.written = es.map (character u)
  c : s.c = number 8 (input.map UInt8.toNat) % 2 ^ 32
  regroup : Regroup 8 5 (input.map UInt8.toNat) es s.length
  few : s.length < 5

theorem Encoding.step {input : List UInt8} (h : Encoding u input s es) (byte : UInt8) :
    ∃ es', Encoding u (input ++ [byte]) (encodeByte u s byte) es' := by
  have hc : (s.c <<< 8) % 2 ^ 32 ||| byte.toNat = number 8 ((input ++ [byte]).map UInt8.toNat) % 2 ^ 32 := by
    rw [h.c, shift_in (by omega) byte.toNat_lt, List.map_append, List.map_singleton, number_concat]
  have hpush : Regroup 8 5 ((input ++ [byte]).map UInt8.toNat) es (s.length + 8) := by
    rw [List.map_append, List.map_singleton]
    exact h.regroup.push byte.toNat_lt
  have hfew := h.few
  obtain ⟨es', left, hrun, hes', hleft⟩ := giveOut_spec (u := u) hpush (by omega)
  rw [← hc, ← h.written] at hrun
  unfold encodeByte
  dsimp only
  rw [hrun]
  exact ⟨es', rfl, hc, hes', hleft⟩

theorem encode_run (u : Bool) (input : List UInt8) :
    ∃ es, Encoding u input (input.foldl (encodeByte u) ⟨[], 0, 0⟩) es := by
  induction input using List.reverseRecOn with
  | nil => exact ⟨[], rfl, rfl, Regroup.nil 8 5, Nat.succ_pos 4⟩
  | append_singleton input byte ih =>
    obtain ⟨es, hes⟩ := ih
    rw [List.foldl_append]
    exact hes.step byte

/-- The text has the bits of the input, and less than a character of padding. -/
theorem base32Encode_eq (input : List UInt8) (u : Bool) : ∃ ds pad, base32Encode input u = ds.map (character u) ∧
    Padded 8 5 (input.map UInt8.toNat) ds pad ∧ pad < 5 ∧ ∀ d ∈ ds, d < 2 ^ 5 := by
  obtain ⟨es, h⟩ := encode_run u input
  have hfew := h.few
  have hfinish := h.regroup.finish hfew
  unfold base32Encode
  dsimp only
  by_cases hzero : (input.foldl (encodeByte u) ⟨[], 0, 0⟩).length = 0
  · rw [if_pos hzero, if_pos hzero] at hfinish
    rw [if_neg (not_not.mpr hzero)]
    exact ⟨es, 0, h.written, hfinish, by omega, h.regroup.lt⟩
  · rw [if_neg hzero, if_neg hzero] at hfinish
    rw [if_pos hzero]
    generalize input.foldl (encodeByte u) ⟨[], 0, 0⟩ = s at h hfew hfinish hzero ⊢
    have hdigit : (s.c <<< (5 - s.length)) % 2 ^ 32 &&& 31 =
        number 8 (input.map UInt8.toNat) * 2 ^ (5 - s.length) % 2 ^ 5 := by
      have hlow : (s.c <<< (5 - s.length)) % 2 ^ 32 &&& 31 = (s.c <<< (5 - s.length)) % 2 ^ 32 % 2 ^ 5 :=
        Lib.Bits.and_low _ 5
      rw [hlow, Nat.mod_mod_of_dvd _ (by decide), Nat.shiftLeft_eq, h.c, Nat.mul_mod,
        Nat.mod_mod_of_dvd _ (by decide), ← Nat.mul_mod]
    refine ⟨_, 5 - s.length, ?_, hfinish, by omega, ?_⟩
    · rw [List.map_append, List.map_singleton, ← h.written, hdigit]
    · exact List.forall_mem_append.mpr ⟨h.regroup.lt, List.forall_mem_singleton.mpr (Nat.mod_lt _ (by decide))⟩

/-- The values read so far, regrouped. -/
structure Decoding (vs : List ℕ) (s : Accumulator) : Prop where
  c : s.c = number 5 vs % 2 ^ 32
  regroup : Regroup 5 8 vs (s.written.map UInt8.toNat) s.length
  few : s.length < 8

theorem decodeLoop_spec (xs : List UInt8) (h : Decoding vs s) (hxs : ∀ x ∈ xs, value x ≠ 32) :
    ∃ s', decodeLoop xs s = .ok s' ∧ Decoding (vs ++ xs.map value) s' := by
  induction xs generalizing vs s with
  | nil => exact ⟨s, rfl, by rwa [List.map_nil, List.append_nil]⟩
  | cons x xs ih =>
    obtain ⟨hx, hxs⟩ := List.forall_mem_cons.mp hxs
    have hlt : value x < 2 ^ 5 := (character_value hx).1
    have hc : (s.c <<< 5) % 2 ^ 32 ||| value x = number 5 (vs ++ [value x]) % 2 ^ 32 := by
      rw [h.c, shift_in (by omega) hlt, number_concat]
    have hpush := h.regroup.push hlt
    have hfew := h.few
    rw [List.map_cons, List.append_cons]
    unfold decodeLoop
    dsimp only
    rw [if_neg hx]
    by_cases hge : s.length + 5 ≥ 8
    · have hpull := hpush.pull hge
      have hbyte : (UInt8.ofNat (((s.c <<< 5) % 2 ^ 32 ||| value x) >>> (s.length + 5 - 8) &&& 255)).toNat =
          number 5 (vs ++ [value x]) / 2 ^ (s.length + 5 - 8) % 2 ^ 8 := by
        have hout : (number 5 (vs ++ [value x]) % 2 ^ 32) >>> (s.length + 5 - 8) &&& 255 =
            number 5 (vs ++ [value x]) / 2 ^ (s.length + 5 - 8) % 2 ^ 8 :=
          shift_out (b := 8) (W := 32) (by omega)
        rw [hc, hout, UInt8.toNat_ofNat']
        omega
      rw [if_pos hge]
      refine ih ⟨hc, ?_, ?_⟩ hxs
      · rw [List.map_append, List.map_singleton, hbyte]
        exact hpull
      · show s.length + 5 - 8 < 8
        omega
    · rw [if_neg hge]
      exact ih ⟨hc, hpush, Nat.lt_of_not_le hge⟩ hxs

theorem decodeLoop_values {xs : List UInt8} {s' : Accumulator} (h : decodeLoop xs s = .ok s') :
    ∀ x ∈ xs, value x ≠ 32 := by
  induction xs generalizing s with
  | nil => exact List.forall_mem_nil _
  | cons x xs ih =>
    unfold decodeLoop at h
    dsimp only at h
    by_cases hx : value x = 32
    · rw [if_pos hx] at h
      cases h
    · rw [if_neg hx] at h
      refine List.forall_mem_cons.mpr ⟨hx, ?_⟩
      split_ifs at h
      · exact ih h
      · exact ih h

/-- What is accepted are characters whose bits that are left over are zero. -/
theorem base32Decode_ok_iff {t bytes : List UInt8} : base32Decode t = .ok bytes ↔
    (∀ x ∈ t, value x ≠ 32) ∧ ∃ left < 8, Regroup 5 8 (t.map value) (bytes.map UInt8.toNat) left ∧
      number 5 (t.map value) % 2 ^ left = 0 := by
  have hstart : Decoding [] ⟨[], 0, 0⟩ := ⟨rfl, Regroup.nil 5 8, Nat.succ_pos 7⟩
  by_cases hvalues : ∀ x ∈ t, value x ≠ 32
  · obtain ⟨s, hrun, hs⟩ := decodeLoop_spec t hstart hvalues
    have hfew := hs.few
    have hover : s.c &&& (1 <<< s.length) - 1 = number 5 (t.map value) % 2 ^ s.length := by
      rw [Nat.one_shiftLeft, Lib.Bits.and_low, hs.c, List.nil_append,
        Nat.mod_mod_of_dvd _ (Nat.pow_dvd_pow 2 (by omega))]
    have hgroup := hs.regroup
    rw [List.nil_append] at hgroup
    unfold base32Decode
    rw [hrun]
    simp only [bind, Except.bind, hover]
    constructor
    · intro h
      split_ifs at h with hzero
      obtain rfl := Except.ok.inj h
      exact ⟨hvalues, s.length, hs.few, hgroup, not_not.mp hzero⟩
    · rintro ⟨-, left, hleft, hbytes, hzero⟩
      have hread := hbytes.padded hzero
      have hlt : ∀ b ∈ bytes.map UInt8.toNat, b < 2 ^ 8 := hbytes.lt
      obtain ⟨heq, hzero⟩ := hread.read hgroup hleft hs.few hlt
      rw [if_neg (not_not.mpr hzero), List.map_injective_iff.mpr (fun _ _ => UInt8.toNat_inj.mp) heq]
      rfl
  · refine ⟨fun h => ?_, fun h => absurd h.1 hvalues⟩
    unfold base32Decode at h
    rcases hrun : decodeLoop t ⟨[], 0, 0⟩ with message | s
    · rw [hrun] at h
      cases h
    · exact absurd (decodeLoop_values hrun) hvalues

theorem map_value_character {ds : List ℕ} (hds : ∀ d ∈ ds, d < 32) : (ds.map (character u)).map value = ds := by
  rw [List.map_map]
  conv_rhs => rw [← List.map_id ds]
  exact List.map_congr_left fun d hd => value_character u (hds d hd)

/-- **Encoding and decoding.**  The bits that the accumulators lose are not needed. -/
theorem base32Decode_base32Encode (s : List UInt8) (upperCase : Bool) :
    base32Decode (base32Encode s upperCase) = .ok s := by
  obtain ⟨ds, pad, hencode, hpadded, hpad, hds⟩ := base32Encode_eq s upperCase
  have hvalues : ∀ x ∈ ds.map (character upperCase), value x ≠ 32 := by
    intro x hx
    obtain ⟨d, hd, rfl⟩ := List.mem_map.mp hx
    rw [value_character upperCase (hds d hd)]
    exact (hds d hd).ne
  have hbytes : ∀ b ∈ s.map UInt8.toNat, b < 2 ^ 8 := by
    intro b hb
    obtain ⟨byte, -, rfl⟩ := List.mem_map.mp hb
    exact byte.toNat_lt
  rw [hencode, base32Decode_ok_iff, map_value_character hds]
  exact ⟨hvalues, pad, by omega, ⟨hpadded.bits, hpadded.div_eq, hbytes⟩, hpadded.mod_eq⟩

/-! ### Canonical texts -/

/-- The bits that are left over are less than a character: the length is one that the encoder makes. -/
def LegalLength (t : List UInt8) : Prop := t.length % 8 ∈ [0, 2, 4, 5, 7]

instance (t : List UInt8) : Decidable (LegalLength t) := inferInstanceAs (Decidable (_ ∈ _))

theorem map_character_value {t : List UInt8} (ht : ∀ x ∈ t, value x ≠ 32) :
    (t.map value).map (character false) = toLower t := by
  rw [List.map_map]
  exact List.map_congr_left fun x hx => (character_value (ht x hx)).2

/-- What is accepted is canonical when its length is legal. -/
theorem reencodes_iff {t bytes : List UInt8} (h : base32Decode t = .ok bytes) :
    base32Encode bytes false = toLower t ↔ LegalLength t := by
  obtain ⟨ht, left, hleft, hgroup, hzero⟩ := base32Decode_ok_iff.mp h
  obtain ⟨ds, pad, hencode, hpadded, hpad, hds⟩ := base32Encode_eq bytes false
  have hvalues : ∀ v ∈ t.map value, v < 2 ^ 5 := by
    intro v hv
    obtain ⟨x, hx, rfl⟩ := List.mem_map.mp hv
    exact (character_value (ht x hx)).1
  have hread := hgroup.padded hzero
  have hbits := hread.bits
  have hbits' := hpadded.bits
  rw [List.length_map] at hbits
  rw [hencode, ← map_character_value ht]
  constructor
  · intro heq
    have hlen := congrArg List.length heq
    rw [List.length_map, List.length_map, List.length_map] at hlen
    simp only [LegalLength, List.mem_cons, List.not_mem_nil, or_false]
    omega
  · intro hlegal
    simp only [LegalLength, List.mem_cons, List.not_mem_nil, or_false] at hlegal
    rw [hpadded.unique hread hpad (by omega) hds hvalues]

/-- **What the decoder accepts.**  Of texts that are accepted the encoder makes the same, in lower case, and texts that
decode to the same bytes differ in case only, exactly when their lengths are ones that the encoder makes. -/
theorem canonical_iff {t t' bytes bytes' : List UInt8} (h : base32Decode t = .ok bytes)
    (h' : base32Decode t' = .ok bytes') :
    (base32Encode bytes false = toLower t ∧ base32Encode bytes' false = toLower t' ∧
      (bytes = bytes' → toLower t = toLower t')) ↔ LegalLength t ∧ LegalLength t' := by
  have hiff := reencodes_iff h
  have hiff' := reencodes_iff h'
  constructor
  · rintro ⟨hcanonical, hcanonical', -⟩
    exact ⟨hiff.mp hcanonical, hiff'.mp hcanonical'⟩
  · rintro ⟨hlegal, hlegal'⟩
    refine ⟨hiff.mpr hlegal, hiff'.mpr hlegal', ?_⟩
    rintro rfl
    exact (hiff.mpr hlegal).symm.trans (hiff'.mpr hlegal')

theorem canonical_iff_two :
    (base32Encode [0x61] false = toLower (chs ['m', 'E']) ∧ base32Encode [0x61] false = toLower (chs ['M', 'e']) ∧
      ([(0x61 : UInt8)] = [0x61] → toLower (chs ['m', 'E']) = toLower (chs ['M', 'e']))) ↔
        LegalLength (chs ['m', 'E']) ∧ LegalLength (chs ['M', 'e']) :=
  canonical_iff (by decide +kernel) (by decide +kernel)

/-- One character with the value zero is accepted, as no bytes. -/
theorem one_character_accepted : ¬ ∀ t bytes : List UInt8, base32Decode t = .ok bytes →
    base32Encode bytes false = toLower t := by
  intro hall
  exact absurd (hall (chs ['a']) [] (by decide +kernel)) (by decide)

end TdUtils.Base32
