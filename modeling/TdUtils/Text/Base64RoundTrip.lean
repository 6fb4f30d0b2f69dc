import TdUtils.Lib.Bits
import TdUtils.Lib.Sextets
import TdUtils.Text.Base64

/-!
# Text.Base64RoundTrip — what is decoded is what was encoded

The characters stand for numbers of six bits, and a group of them for the bytes of `octets`.
-/

namespace TdUtils.Base64

open Lib.Bits (and_low or_eq_add)
open Lib.Bytes (ch)
open Lib.Sextets

variable {isUrl : Bool} {d d₀ d₁ d₂ d₃ : ℕ} {ds : List ℕ} {x : UInt8} {xs s t : List UInt8}

/-! ### The table -/

/-- Capital letters, small letters, digits, and two more. -/
theorem map_characters : ∀ isUrl : Bool, (characters isUrl).map UInt8.toNat =
    List.range' 65 26 ++ (List.range' 97 26 ++ (List.range' 48 10 ++ if isUrl then [45, 95] else [43, 47])) := by decide

theorem characters_nodup (isUrl : Bool) : ((characters isUrl).map UInt8.toNat).Nodup := by
  rw [map_characters]
  refine List.nodup_append.mpr ⟨List.nodup_range', List.nodup_append.mpr ⟨List.nodup_range',
    List.nodup_append.mpr ⟨List.nodup_range', by cases isUrl <;> decide, ?_⟩, ?_⟩, ?_⟩
  all_goals cases isUrl <;> simp <;> omega

theorem length_characters : ∀ isUrl : Bool, (characters isUrl).length = 64 := by decide

theorem mem_characters : ∀ isUrl : Bool, ∀ c ∈ characters isUrl, c ≠ ch '=' ∧ c.toNat < 128 := by decide

theorem entries_keys (isUrl : Bool) : (entries isUrl).map Prod.fst = (characters isUrl).map UInt8.toNat := by
  unfold entries
  rw [List.map_map]
  show List.map (UInt8.toNat ∘ Prod.fst) (characters isUrl).zipIdx = _
  rw [← List.map_map, List.zipIdx_map_fst]

theorem getElem?_character (hd : d < 64) : (characters isUrl)[d]? = some (character isUrl d) := by
  unfold character
  rw [List.getD_eq_getElem?_getD, List.getElem?_eq_getElem (by rw [length_characters]; exact hd)]
  rfl

theorem character_ne (hd : d < 64) : character isUrl d ≠ ch '=' ∧ (character isUrl d).toNat < 128 :=
  mem_characters isUrl _ (List.mem_of_getElem? (getElem?_character hd))

theorem table_character (hd : d < 64) : (characterTable isUrl)[(character isUrl d).toNat]? = some d := by
  refine Lib.Table.getElem?_fill_of_mem ?_ ?_ ?_
  · rw [entries_keys]
    exact characters_nodup isUrl
  · refine List.mem_map.mpr ⟨(character isUrl d, d), ?_, rfl⟩
    exact List.mem_zipIdx_iff_getElem?.mpr (getElem?_character hd)
  · rw [List.length_replicate]
    exact UInt8.toNat_lt _

theorem value_character (hd : d < 64) : (characterTable isUrl).getD (character isUrl d).toNat 0 = d := by
  rw [List.getD_eq_getElem?_getD, table_character hd]
  rfl

/-- A byte that has a value is its character. -/
theorem exists_of_value (hx : (characterTable isUrl).getD x.toNat 0 ≠ 64) : ∃ d, d < 64 ∧ character isUrl d = x := by
  have hlt : x.toNat < (characterTable isUrl).length := by
    unfold characterTable
    rw [Lib.Table.length_fill, List.length_replicate]
    exact x.toNat_lt
  rw [List.getD_eq_getElem?_getD, List.getElem?_eq_getElem hlt] at hx
  rcases Lib.Table.entry_of_fill (List.getElem?_eq_getElem hlt) with hentry | hempty
  · obtain ⟨⟨c, d⟩, hmem, heq⟩ := List.mem_map.mp hentry
    have hc := List.mem_zipIdx_iff_getElem?.mp hmem
    have hd : d < 64 := by
      rw [← length_characters isUrl]
      exact (List.getElem?_eq_some_iff.mp hc).1
    refine ⟨d, hd, ?_⟩
    have hchar : some c = some (character isUrl d) := hc.symm.trans (getElem?_character hd)
    rw [← Option.some.inj hchar]
    exact UInt8.toNat_inj.mp (congrArg Prod.fst heq)
  · rw [List.getElem?_replicate, if_pos x.toNat_lt] at hempty
    exact absurd (Option.some.inj hempty).symm hx

theorem exists_codes (h : ∀ x ∈ xs, (characterTable isUrl).getD x.toNat 0 ≠ 64) :
    ∃ ds : List ℕ, (∀ d ∈ ds, d < 64) ∧ xs = ds.map (character isUrl) := by
  induction xs with
  | nil => exact ⟨[], List.forall_mem_nil _, rfl⟩
  | cons x xs ih =>
    obtain ⟨d, hd, rfl⟩ := exists_of_value (h x List.mem_cons_self)
    obtain ⟨ds, hds, rfl⟩ := ih fun y hy => h y (List.mem_cons_of_mem _ hy)
    exact ⟨d :: ds, List.forall_mem_cons.mpr ⟨hd, hds⟩, rfl⟩

/-! ### Encoding -/

theorem encodeGroup_three (isUrl : Bool) (a b c : UInt8) :
    encodeGroup isUrl 3 a b c = (sextets [a, b, c]).map (character isUrl) := by
  have ha := a.toNat_lt
  have hb := b.toNat_lt
  have hc := c.toNat_lt
  have h₁ : a.toNat * 2 ^ 16 ||| b.toNat * 2 ^ 8 = a.toNat * 65536 + b.toNat * 256 :=
    or_eq_add 16 (by omega) (by omega)
  have h₂ : a.toNat * 65536 + b.toNat * 256 ||| c.toNat = a.toNat * 65536 + b.toNat * 256 + c.toNat :=
    or_eq_add 8 (by omega) (by omega)
  have hmask : ∀ n : ℕ, n &&& 63 = n % 64 := fun n => and_low n 6
  unfold encodeGroup
  simp only [if_true, ne_eq, OfNat.ofNat_ne_one, not_false_eq_true, h₁, h₂, hmask, Nat.shiftRight_eq_div_pow,
    Nat.shiftLeft_eq]
  simp only [sextets, List.map_cons, List.map_nil, List.cons_append, List.nil_append, List.cons.injEq, and_true]
  refine ⟨congrArg _ (by omega), congrArg _ (by omega), congrArg _ (by omega), congrArg _ (by omega)⟩

theorem encodeGroup_two (isUrl : Bool) (a b : UInt8) : encodeGroup isUrl 2 a b 0 =
    (sextets [a, b]).map (character isUrl) ++ if isUrl then [] else [ch '='] := by
  have ha := a.toNat_lt
  have hb := b.toNat_lt
  have h₁ : a.toNat * 2 ^ 16 ||| b.toNat * 2 ^ 8 = a.toNat * 65536 + b.toNat * 256 :=
    or_eq_add 16 (by omega) (by omega)
  have hmask : ∀ n : ℕ, n &&& 63 = n % 64 := fun n => and_low n 6
  unfold encodeGroup
  simp only [OfNat.ofNat_ne_one, ne_eq, not_false_eq_true, if_true, Nat.reduceEqDiff, if_false, h₁, hmask,
    Nat.shiftRight_eq_div_pow, Nat.shiftLeft_eq]
  simp only [sextets, List.map_cons, List.map_nil, List.cons_append, List.nil_append, List.cons.injEq, and_true]
  refine ⟨congrArg _ (by omega), congrArg _ (by omega), congrArg _ (by omega)⟩

theorem encodeGroup_one (isUrl : Bool) (a : UInt8) : encodeGroup isUrl 1 a 0 0 =
    (sextets [a]).map (character isUrl) ++ if isUrl then [] else [ch '=', ch '='] := by
  have ha := a.toNat_lt
  have hmask : ∀ n : ℕ, n &&& 63 = n % 64 := fun n => and_low n 6
  unfold encodeGroup
  simp only [ne_eq, not_true_eq_false, if_false, OfNat.one_ne_ofNat, hmask, Nat.shiftRight_eq_div_pow,
    Nat.shiftLeft_eq]
  have h₀ : a.toNat * 2 ^ 16 / 2 ^ 18 = a.toNat / 4 := by omega
  have h₁ : a.toNat * 2 ^ 16 / 2 ^ 12 % 64 = a.toNat % 4 * 16 := by omega
  rw [h₀, h₁]
  cases isUrl <;> rfl

/-- How many characters of padding are needed. -/
def padding (s : List UInt8) : ℕ := (3 - s.length % 3) % 3

theorem encode_eq (isUrl : Bool) (s : List UInt8) : base64EncodeImpl isUrl s =
    (sextets s).map (character isUrl) ++ if isUrl then [] else List.replicate (padding s) (ch '=') := by
  induction s using sextets.induct with
  | case1 => cases isUrl <;> rfl
  | case2 a => exact encodeGroup_one isUrl a
  | case3 a b => exact encodeGroup_two isUrl a b
  | case4 a b c rest ih =>
    have hpadding : padding (a :: b :: c :: rest) = padding rest := by
      unfold padding
      rw [List.length_cons, List.length_cons, List.length_cons]
      omega
    rw [base64EncodeImpl, encodeGroup_three, ih, hpadding]
    rfl

example : base64EncodeImpl true (Lib.Bytes.chs ['a', 'b', '>', '<']) = Lib.Bytes.chs ['Y', 'W', 'I', '-', 'P', 'A'] := by
  decide

/-! ### Decoding -/

theorem groupBits_of_codes (isUrl : Bool) (ds : List ℕ) (hlt : ∀ d ∈ ds, d < 64) (n c : ℕ) :
    groupBits (characterTable isUrl) n (ds.map (character isUrl)) c =
      some ((ds.zipIdx n).foldl (fun c e => c ||| e.1 <<< ((3 - e.2) * 6)) c) := by
  induction ds generalizing n c with
  | nil => rfl
  | cons d ds ih =>
    obtain ⟨hd, hlt⟩ := List.forall_mem_cons.mp hlt
    rw [List.map_cons, groupBits]
    rw [value_character hd, if_neg (Nat.ne_of_lt hd)]
    exact ih hlt (n + 1) _

theorem codes_of_groupBits {n c c' : ℕ} (h : groupBits (characterTable isUrl) n xs c = some c') :
    ∀ x ∈ xs, (characterTable isUrl).getD x.toNat 0 ≠ 64 := by
  induction xs generalizing n c with
  | nil => exact List.forall_mem_nil _
  | cons x xs ih =>
    unfold groupBits at h
    dsimp only at h
    split at h
    · cases h
    · rename_i hx
      exact List.forall_mem_cons.mpr ⟨hx, ih h⟩

theorem ofNat_eq {a b : ℕ} (h : a % 256 = b % 256) : UInt8.ofNat a = UInt8.ofNat b := by
  apply UInt8.toNat_inj.mp
  rw [UInt8.toNat_ofNat', UInt8.toNat_ofNat']
  exact h

/-- The bits of a group of two. -/
theorem bits_two (h₁ : d₁ < 64) : 0 ||| d₀ <<< 18 ||| d₁ <<< 12 = d₀ * 262144 + d₁ * 4096 := by
  rw [Nat.zero_or, Nat.shiftLeft_eq, Nat.shiftLeft_eq]
  exact or_eq_add 18 (by omega) (by omega)

theorem bits_three (h₁ : d₁ < 64) (h₂ : d₂ < 64) :
    0 ||| d₀ <<< 18 ||| d₁ <<< 12 ||| d₂ <<< 6 = d₀ * 262144 + d₁ * 4096 + d₂ * 64 := by
  rw [bits_two h₁, Nat.shiftLeft_eq]
  exact or_eq_add 12 (by omega) (by omega)

theorem bits_four (h₁ : d₁ < 64) (h₂ : d₂ < 64) (h₃ : d₃ < 64) :
    0 ||| d₀ <<< 18 ||| d₁ <<< 12 ||| d₂ <<< 6 ||| d₃ <<< 0 = d₀ * 262144 + d₁ * 4096 + d₂ * 64 + d₃ := by
  rw [bits_three h₁ h₂, Nat.shiftLeft_zero]
  exact or_eq_add 6 (by omega) (by omega)

theorem decodeGroup_two (isUrl : Bool) (h₀ : d₀ < 64) (h₁ : d₁ < 64) :
    decodeGroup (characterTable isUrl) [character isUrl d₀, character isUrl d₁] =
      ⟨[first d₀ d₁], if d₁ % 16 = 0 then .ok () else .error wrongPadding⟩ := by
  have hbits := groupBits_of_codes isUrl [d₀, d₁]
    (List.forall_mem_cons.mpr ⟨h₀, List.forall_mem_cons.mpr ⟨h₁, List.forall_mem_nil _⟩⟩) 0 0
  have hbits : groupBits (characterTable isUrl) 0 [character isUrl d₀, character isUrl d₁] 0 =
    some (0 ||| d₀ <<< 18 ||| d₁ <<< 12) := hbits
  rw [bits_two h₁] at hbits
  have hmask : (d₀ * 262144 + d₁ * 4096) &&& (1 <<< 16) - 1 = d₁ % 16 * 4096 := by
    rw [show (1 <<< 16 : ℕ) - 1 = 2 ^ 16 - 1 from rfl, and_low]
    omega
  unfold decodeGroup
  rw [hbits]
  dsimp only
  rw [hmask, Nat.shiftRight_eq_div_pow]
  rw [if_pos (show [character isUrl d₀, character isUrl d₁].length = 2 from rfl),
    ofNat_eq (show (d₀ * 262144 + d₁ * 4096) / 2 ^ 16 % 256 = (d₀ * 4 + d₁ / 16) % 256 by omega)]
  refine congrArg (Decoded.mk [first d₀ d₁]) ?_
  by_cases hover : d₁ % 16 = 0
  · rw [if_pos hover, if_neg (by omega)]
  · rw [if_neg hover, if_pos (by omega)]

theorem decodeGroup_three (isUrl : Bool) (h₀ : d₀ < 64) (h₁ : d₁ < 64) (h₂ : d₂ < 64) :
    decodeGroup (characterTable isUrl) [character isUrl d₀, character isUrl d₁, character isUrl d₂] =
      ⟨[first d₀ d₁, second d₁ d₂], if d₂ % 4 = 0 then .ok () else .error wrongPadding⟩ := by
  have hbits := groupBits_of_codes isUrl [d₀, d₁, d₂]
    (List.forall_mem_cons.mpr ⟨h₀, List.forall_mem_cons.mpr ⟨h₁, List.forall_mem_cons.mpr ⟨h₂, List.forall_mem_nil _⟩⟩⟩)
    0 0
  have hbits : groupBits (characterTable isUrl) 0 [character isUrl d₀, character isUrl d₁, character isUrl d₂] 0 =
    some (0 ||| d₀ <<< 18 ||| d₁ <<< 12 ||| d₂ <<< 6) := hbits
  rw [bits_three h₁ h₂] at hbits
  have hmask : (d₀ * 262144 + d₁ * 4096 + d₂ * 64) &&& (1 <<< 8) - 1 = d₂ % 4 * 64 := by
    rw [show (1 <<< 8 : ℕ) - 1 = 2 ^ 8 - 1 from rfl, and_low]
    omega
  unfold decodeGroup
  rw [hbits]
  dsimp only
  rw [hmask, Nat.shiftRight_eq_div_pow, Nat.shiftRight_eq_div_pow]
  rw [if_neg (by simp), if_pos (show [character isUrl d₀, character isUrl d₁, character isUrl d₂].length = 3 from rfl),
    ofNat_eq (show (d₀ * 262144 + d₁ * 4096 + d₂ * 64) / 2 ^ 16 % 256 = (d₀ * 4 + d₁ / 16) % 256 by omega),
    ofNat_eq (show (d₀ * 262144 + d₁ * 4096 + d₂ * 64) / 2 ^ 8 % 256 = (d₁ % 16 * 16 + d₂ / 4) % 256 by omega)]
  refine congrArg (Decoded.mk [first d₀ d₁, second d₁ d₂]) ?_
  by_cases hover : d₂ % 4 = 0
  · rw [if_pos hover, if_neg (by omega)]
  · rw [if_neg hover, if_pos (by omega)]

theorem decodeGroup_four (isUrl : Bool) (h₀ : d₀ < 64) (h₁ : d₁ < 64) (h₂ : d₂ < 64) (h₃ : d₃ < 64) :
    decodeGroup (characterTable isUrl)
        [character isUrl d₀, character isUrl d₁, character isUrl d₂, character isUrl d₃] =
      ⟨[first d₀ d₁, second d₁ d₂, third d₂ d₃], .ok ()⟩ := by
  have hbits := groupBits_of_codes isUrl [d₀, d₁, d₂, d₃]
    (List.forall_mem_cons.mpr ⟨h₀, List.forall_mem_cons.mpr ⟨h₁, List.forall_mem_cons.mpr ⟨h₂,
      List.forall_mem_cons.mpr ⟨h₃, List.forall_mem_nil _⟩⟩⟩⟩) 0 0
  have hbits : groupBits (characterTable isUrl) 0
      [character isUrl d₀, character isUrl d₁, character isUrl d₂, character isUrl d₃] 0 =
    some (0 ||| d₀ <<< 18 ||| d₁ <<< 12 ||| d₂ <<< 6 ||| d₃ <<< 0) := hbits
  rw [bits_four h₁ h₂ h₃] at hbits
  unfold decodeGroup
  rw [hbits]
  dsimp only
  rw [Nat.shiftRight_eq_div_pow, Nat.shiftRight_eq_div_pow]
  rw [if_neg (by simp), if_neg (by simp),
    ofNat_eq (show (d₀ * 262144 + d₁ * 4096 + d₂ * 64 + d₃) / 2 ^ 16 % 256 = (d₀ * 4 + d₁ / 16) % 256 by omega),
    ofNat_eq (show (d₀ * 262144 + d₁ * 4096 + d₂ * 64 + d₃) / 2 ^ 8 % 256 = (d₁ % 16 * 16 + d₂ / 4) % 256 by omega),
    ofNat_eq (show (d₀ * 262144 + d₁ * 4096 + d₂ * 64 + d₃) % 256 = (d₂ % 4 * 64 + d₃) % 256 by omega)]
  rfl

theorem doDecode_of_octets (hlt : ∀ d ∈ ds, d < 64) (h : octets ds = some s) :
    doBase64DecodeImpl (characterTable isUrl) (ds.map (character isUrl)) = ⟨s, .ok ()⟩ := by
  induction ds using octets.induct generalizing s with
  | case1 =>
    cases h
    rfl
  | case2 d => cases h
  | case3 d₀ d₁ hover =>
    simp only [List.forall_mem_cons] at hlt
    rw [octets, if_pos hover] at h
    cases h
    exact (decodeGroup_two isUrl hlt.1 hlt.2.1).trans (congrArg _ (if_pos hover))
  | case4 d₀ d₁ hover =>
    rw [octets, if_neg hover] at h
    cases h
  | case5 d₀ d₁ d₂ hover =>
    simp only [List.forall_mem_cons] at hlt
    rw [octets, if_pos hover] at h
    cases h
    exact (decodeGroup_three isUrl hlt.1 hlt.2.1 hlt.2.2.1).trans (congrArg _ (if_pos hover))
  | case6 d₀ d₁ d₂ hover =>
    rw [octets, if_neg hover] at h
    cases h
  | case7 d₀ d₁ d₂ d₃ rest ih =>
    simp only [List.forall_mem_cons] at hlt
    obtain ⟨h₀, h₁, h₂, h₃, hrest⟩ := hlt
    obtain ⟨bytes, hbytes, rfl⟩ := Option.map_eq_some_iff.mp h
    simp only [List.map_cons]
    rw [doBase64DecodeImpl, decodeGroup_four isUrl h₀ h₁ h₂ h₃, ih hrest hbytes]
    rfl

/-- What is decoded in the end has a value everywhere. -/
theorem value_of_decodeGroup (h : (decodeGroup (characterTable isUrl) xs).status = .ok ()) :
    ∀ x ∈ xs, (characterTable isUrl).getD x.toNat 0 ≠ 64 := by
  unfold decodeGroup at h
  dsimp only at h
  split at h
  · cases h
  · rename_i c hbits
    exact codes_of_groupBits hbits

theorem Decoded.next_ok {d rest : Decoded} (h : (d.next rest).status = .ok ()) :
    d.status = .ok () ∧ rest.status = .ok () := by
  unfold Decoded.next at h
  cases hd : d.status with
  | error message =>
    rw [hd] at h
    dsimp only at h
    rw [hd] at h
    cases h
  | ok u =>
    rw [hd] at h
    exact ⟨rfl, h⟩

theorem value_of_doDecode (h : (doBase64DecodeImpl (characterTable isUrl) xs).status = .ok ()) :
    ∀ x ∈ xs, (characterTable isUrl).getD x.toNat 0 ≠ 64 := by
  induction xs using doBase64DecodeImpl.induct with
  | case1 => exact List.forall_mem_nil _
  | case2 x₀ => exact value_of_decodeGroup h
  | case3 x₀ x₁ => exact value_of_decodeGroup h
  | case4 x₀ x₁ x₂ => exact value_of_decodeGroup h
  | case5 x₀ x₁ x₂ x₃ rest ih =>
    obtain ⟨hgroup, hrest⟩ := Decoded.next_ok h
    intro x hx
    rcases List.mem_append.mp (show x ∈ [x₀, x₁, x₂, x₃] ++ rest from hx) with hx | hx
    · exact value_of_decodeGroup hgroup x hx
    · exact ih hrest x hx

/-- The decoder returns an error when the numbers do not stand for bytes. -/
theorem octets_of_doDecode (hlt : ∀ d ∈ ds, d < 64) (hlen : ds.length % 4 ≠ 1)
    (h : (doBase64DecodeImpl (characterTable isUrl) (ds.map (character isUrl))).status = .ok ()) :
    ∃ s, octets ds = some s := by
  induction ds using octets.induct with
  | case1 => exact ⟨[], rfl⟩
  | case2 d => exact absurd rfl hlen
  | case3 d₀ d₁ hover => exact ⟨_, if_pos hover⟩
  | case4 d₀ d₁ hover =>
    simp only [List.forall_mem_cons] at hlt
    have hstatus := congrArg Decoded.status (decodeGroup_two isUrl hlt.1 hlt.2.1)
    rw [if_neg hover] at hstatus
    cases hstatus.symm.trans h
  | case5 d₀ d₁ d₂ hover => exact ⟨_, if_pos hover⟩
  | case6 d₀ d₁ d₂ hover =>
    simp only [List.forall_mem_cons] at hlt
    have hstatus := congrArg Decoded.status (decodeGroup_three isUrl hlt.1 hlt.2.1 hlt.2.2.1)
    rw [if_neg hover] at hstatus
    cases hstatus.symm.trans h
  | case7 d₀ d₁ d₂ d₃ rest ih =>
    simp only [List.forall_mem_cons] at hlt
    rw [List.length_cons, List.length_cons, List.length_cons, List.length_cons] at hlen
    simp only [List.map_cons] at h
    obtain ⟨s, hs⟩ := ih hlt.2.2.2.2 (by omega) (Decoded.next_ok h).2
    exact ⟨_, by rw [octets, hs]; rfl⟩

theorem decodeGroup_le (table : List ℕ) (xs : List UInt8) : (decodeGroup table xs).written.length ≤ 3 ∧
    (xs.length = 2 → (decodeGroup table xs).written.length ≤ 1) ∧
    (xs.length = 3 → (decodeGroup table xs).written.length ≤ 2) := by
  unfold decodeGroup
  dsimp only
  split
  · exact ⟨Nat.zero_le _, fun _ => Nat.zero_le _, fun _ => Nat.zero_le _⟩
  · split_ifs <;> simp_all

/-- The decoder writes no more than the result has room for. -/
theorem doDecode_le (table : List ℕ) (hlen : xs.length % 4 ≠ 1) :
    (doBase64DecodeImpl table xs).written.length ≤ xs.length / 4 * 3 + (xs.length % 4 + 1) / 2 := by
  induction xs using doBase64DecodeImpl.induct with
  | case1 => exact Nat.zero_le _
  | case2 x₀ => exact absurd rfl hlen
  | case3 x₀ x₁ =>
    simp only [List.length_cons, List.length_nil]
    exact (decodeGroup_le table [x₀, x₁]).2.1 rfl
  | case4 x₀ x₁ x₂ =>
    simp only [List.length_cons, List.length_nil]
    exact (decodeGroup_le table [x₀, x₁, x₂]).2.2 rfl
  | case5 x₀ x₁ x₂ x₃ rest ih =>
    rw [List.length_cons, List.length_cons, List.length_cons, List.length_cons] at hlen ⊢
    have hgroup := (decodeGroup_le table [x₀, x₁, x₂, x₃]).1
    have hrest := ih (by omega)
    have hnext : ((decodeGroup table [x₀, x₁, x₂, x₃]).next (doBase64DecodeImpl table rest)).written.length ≤
        (decodeGroup table [x₀, x₁, x₂, x₃]).written.length + (doBase64DecodeImpl table rest).written.length := by
      unfold Decoded.next
      split
      · exact Nat.le_add_right _ _
      · exact Nat.le_of_eq List.length_append
    rw [doBase64DecodeImpl]
    omega

/-! ### Padding -/

theorem and_three (n : ℕ) : n &&& 3 = n % 4 := and_low n 2

/-- The length and the padding are right. -/
def Padded (isUrl : Bool) (t : List UInt8) : Prop :=
  paddingLength t < 3 ∧ (isUrl = false ∨ 0 < paddingLength t → ((withoutPadding t).length + paddingLength t) % 4 = 0) ∧
    (isUrl = true → (withoutPadding t).length % 4 ≠ 1)

theorem Padded.length (h : Padded isUrl t) : (withoutPadding t).length % 4 ≠ 1 := by
  obtain ⟨hlt, hlen, hurl⟩ := h
  cases isUrl with
  | true => exact hurl rfl
  | false =>
    have hlen := hlen (.inl rfl)
    omega

theorem padded_checks (isUrl : Bool) (t : List UInt8) {α : Type} (a b c d : α) :
    Padded isUrl t ∧ (if 3 ≤ paddingLength t then a
      else if (!isUrl || 0 < paddingLength t) && (withoutPadding t).length + paddingLength t &&& 3 ≠ 0 then b
      else if isUrl && (withoutPadding t).length &&& 3 = 1 then c else d) = d ∨
    ¬Padded isUrl t ∧ ∃ e ∈ [a, b, c], (if 3 ≤ paddingLength t then a
      else if (!isUrl || 0 < paddingLength t) && (withoutPadding t).length + paddingLength t &&& 3 ≠ 0 then b
      else if isUrl && (withoutPadding t).length &&& 3 = 1 then c else d) = e := by
  rw [and_three, and_three]
  by_cases h₁ : 3 ≤ paddingLength t
  · right
    rw [if_pos h₁]
    exact ⟨fun h => absurd h.1 (Nat.not_lt.mpr h₁), a, by simp, rfl⟩
  · rw [if_neg h₁]
    by_cases h₂ : (!isUrl || decide (0 < paddingLength t)) &&
        decide (((withoutPadding t).length + paddingLength t) % 4 ≠ 0)
    · right
      rw [if_pos h₂]
      refine ⟨fun h => ?_, b, by simp, rfl⟩
      rw [Bool.and_eq_true, Bool.or_eq_true, Bool.not_eq_true', decide_eq_true_eq, decide_eq_true_eq] at h₂
      exact h₂.2 (h.2.1 h₂.1)
    · rw [if_neg h₂]
      rw [Bool.and_eq_true, Bool.or_eq_true, Bool.not_eq_true', decide_eq_true_eq, decide_eq_true_eq] at h₂
      by_cases h₃ : isUrl && decide ((withoutPadding t).length % 4 = 1)
      · right
        rw [if_pos h₃]
        refine ⟨fun h => ?_, c, by simp, rfl⟩
        rw [Bool.and_eq_true, decide_eq_true_eq] at h₃
        exact h.2.2 h₃.1 h₃.2
      · left
        rw [if_neg h₃]
        rw [Bool.and_eq_true, decide_eq_true_eq] at h₃
        refine ⟨⟨Nat.lt_of_not_le h₁, fun h => ?_, fun hurl h => h₃ ⟨hurl, h⟩⟩, rfl⟩
        by_contra hne
        exact h₂ ⟨h, hne⟩

theorem append_padding (t : List UInt8) : t = withoutPadding t ++ List.replicate (paddingLength t) (ch '=') := by
  have htake : t.rtakeWhile (· = ch '=') = List.replicate (paddingLength t) (ch '=') :=
    List.eq_replicate_iff.mpr ⟨rfl, fun c hc => by
      have hp := List.mem_rtakeWhile_imp hc
      exact of_decide_eq_true hp⟩
  calc t = withoutPadding t ++ t.rtakeWhile (· = ch '=') := (List.rdropWhile_append_rtakeWhile).symm
    _ = _ := by rw [htake]

theorem withoutPadding_append (hne : ∀ c ∈ xs, c ≠ ch '=') (n : ℕ) :
    withoutPadding (xs ++ List.replicate n (ch '=')) = xs ∧ paddingLength (xs ++ List.replicate n (ch '=')) = n := by
  have hdrop : withoutPadding (xs ++ List.replicate n (ch '=')) = xs := by
    induction n with
    | zero =>
      rw [List.replicate_zero, List.append_nil]
      refine List.rdropWhile_eq_self_iff.mpr fun hxs => ?_
      rw [decide_eq_true_eq]
      exact hne _ (List.getLast_mem hxs)
    | succ n ih =>
      rw [List.replicate_succ', ← List.append_assoc]
      exact (List.rdropWhile_concat_pos (· = ch '=') _ _ (decide_eq_true rfl)).trans ih
  refine ⟨hdrop, ?_⟩
  have hlen := congrArg List.length (append_padding (xs ++ List.replicate n (ch '=')))
  rw [List.length_append, List.length_append, List.length_replicate, List.length_replicate, hdrop] at hlen
  omega

/-! ### Decoding and checking whole strings -/

theorem dropPadding_ok (h : Padded isUrl t) : base64DropPadding isUrl t = .ok (withoutPadding t) := by
  rcases padded_checks isUrl t (Except.error "Wrong string padding") (Except.error "Wrong padding length")
    (Except.error "Wrong string length") (Except.ok (withoutPadding t)) with ⟨-, heq⟩ | ⟨hnot, -⟩
  · exact heq
  · exact absurd h hnot

theorem dropPadding_error (h : ¬Padded isUrl t) : ∃ message, base64DropPadding isUrl t = .error message := by
  rcases padded_checks isUrl t (Except.error "Wrong string padding") (Except.error "Wrong padding length")
    (Except.error "Wrong string length") (Except.ok (withoutPadding t)) with ⟨hpadded, -⟩ | ⟨-, e, he, heq⟩
  · exact absurd hpadded h
  · simp only [List.mem_cons, List.not_mem_nil, or_false] at he
    rcases he with rfl | rfl | rfl <;> exact ⟨_, heq⟩

theorem padded_of_dropPadding (h : base64DropPadding isUrl t = .ok xs) : Padded isUrl t ∧ xs = withoutPadding t := by
  by_cases hpadded : Padded isUrl t
  · rw [dropPadding_ok hpadded] at h
    exact ⟨hpadded, (Except.ok.inj h).symm⟩
  · obtain ⟨message, herror⟩ := dropPadding_error hpadded
    cases herror.symm.trans h

theorem resultSize_eq (xs : List UInt8) : resultSize xs = xs.length / 4 * 3 + (xs.length % 4 + 1) / 2 := by
  unfold resultSize
  rw [and_three]

/-- The bytes that the characters stand for, or an error. -/
theorem decode_of_octets (hpadded : Padded isUrl t) (hlt : ∀ d ∈ ds, d < 64)
    (hds : withoutPadding t = ds.map (character isUrl)) (h : octets ds = some s) :
    base64DecodeImpl isUrl t = some (.ok s) ∧
      (doBase64DecodeImpl (characterTable isUrl) (withoutPadding t)).written.length = resultSize (withoutPadding t) := by
  have hsize : s.length = resultSize (withoutPadding t) := by
    rw [resultSize_eq, hds, List.length_map]
    exact length_octets ds h
  have hdecode : doBase64DecodeImpl (characterTable isUrl) (withoutPadding t) = ⟨s, .ok ()⟩ := by
    rw [hds]
    exact doDecode_of_octets hlt h
  refine ⟨?_, by rw [hdecode]; exact hsize⟩
  unfold base64DecodeImpl fillResult
  rw [dropPadding_ok hpadded]
  dsimp only
  rw [hdecode, ← hsize, if_pos (Nat.le_refl _), Nat.sub_self, List.replicate_zero, List.append_nil]
  rfl

theorem decode_error (hpadded : Padded isUrl t)
    (h : (doBase64DecodeImpl (characterTable isUrl) (withoutPadding t)).status ≠ .ok ()) :
    ∃ message, base64DecodeImpl isUrl t = some (.error message) := by
  have hle := doDecode_le (characterTable isUrl) hpadded.length
  rw [← resultSize_eq] at hle
  cases hstatus : (doBase64DecodeImpl (characterTable isUrl) (withoutPadding t)).status with
  | ok u => exact absurd hstatus h
  | error message =>
    refine ⟨message, ?_⟩
    unfold base64DecodeImpl fillResult
    rw [dropPadding_ok hpadded]
    dsimp only
    rw [if_pos hle, hstatus]
    rfl

theorem isBase64_not_padded (h : ¬Padded isUrl t) : isBase64Impl isUrl t = some false := by
  unfold isBase64Impl
  dsimp only
  rcases padded_checks isUrl t (some false) (some false) (some false) _ with ⟨hpadded, -⟩ | ⟨-, e, he, heq⟩
  · exact absurd hpadded h
  · simp only [List.mem_cons, List.not_mem_nil, or_false, or_self] at he
    rw [he] at heq
    exact heq

/-- The checks of the characters. -/
theorem isBase64_padded (h : Padded isUrl t) : isBase64Impl isUrl t =
    if (withoutPadding t).any fun c => (characterTable isUrl).getD c.toNat 0 = 64 then some false
    else if (withoutPadding t).length &&& 3 = 2 then
      (backValue (characterTable isUrl) (withoutPadding t)).map fun value => value &&& 15 = 0
    else if (withoutPadding t).length &&& 3 = 3 then
      (backValue (characterTable isUrl) (withoutPadding t)).map fun value => value &&& 3 = 0
    else some true := by
  unfold isBase64Impl
  dsimp only
  rcases padded_checks isUrl t (some false) (some false) (some false) _ with ⟨-, heq⟩ | ⟨hnot, -⟩
  · exact heq
  · exact absurd h hnot

theorem backValue_of_codes (hlt : ∀ d ∈ ds, d < 64) (hds : xs = ds.map (character isUrl)) :
    backValue (characterTable isUrl) xs = ds.getLast? := by
  unfold backValue
  rw [hds, List.getLast?_map]
  cases hlast : ds.getLast? with
  | none => rfl
  | some d =>
    have hd := hlt d (List.mem_of_getLast? hlast)
    show (if (character isUrl d).toNat < 128 then _ else _) = _
    rw [if_pos (character_ne hd).2]
    exact table_character hd

theorem isBase64_of_codes (hpadded : Padded isUrl t) (hlt : ∀ d ∈ ds, d < 64)
    (hds : withoutPadding t = ds.map (character isUrl)) : isBase64Impl isUrl t = some (octets ds).isSome := by
  have hlen : (withoutPadding t).length = ds.length := by rw [hds, List.length_map]
  have hmod := hpadded.length
  have hany : ((withoutPadding t).any fun c => (characterTable isUrl).getD c.toNat 0 = 64) = false := by
    rw [List.any_eq_false, hds]
    intro c hc
    obtain ⟨d, hd, rfl⟩ := List.mem_map.mp hc
    rw [value_character (hlt d hd), decide_eq_true_eq]
    exact Nat.ne_of_lt (hlt d hd)
  rw [isBase64_padded hpadded, hany, backValue_of_codes hlt hds, and_three, hlen]
  rw [hlen] at hmod
  have hsome := octets_isSome_iff ds
  rw [if_neg Bool.false_ne_true]
  have hmask : ∀ d : ℕ, d &&& 15 = d % 16 := fun d => and_low d 4
  by_cases h₂ : ds.length % 4 = 2
  · rw [if_pos h₂]
    cases hlast : ds.getLast? with
    | none =>
      rw [List.getLast?_eq_none_iff.mp hlast] at h₂
      cases h₂
    | some d =>
      rw [Option.map_some, hmask]
      congr 1
      rw [Bool.eq_iff_iff, decide_eq_true_eq, hsome, hlast]
      constructor
      · intro hd
        exact ⟨hmod, fun _ d' heq => by cases heq; exact hd, fun h₃ => absurd (h₂.symm.trans h₃) (by decide)⟩
      · intro h
        exact h.2.1 h₂ d rfl
  · rw [if_neg h₂]
    by_cases h₃ : ds.length % 4 = 3
    · rw [if_pos h₃]
      cases hlast : ds.getLast? with
      | none =>
        rw [List.getLast?_eq_none_iff.mp hlast] at h₃
        cases h₃
      | some d =>
        rw [Option.map_some, and_three]
        congr 1
        rw [Bool.eq_iff_iff, decide_eq_true_eq, hsome, hlast]
        constructor
        · intro hd
          exact ⟨hmod, fun h => absurd h h₂, fun _ d' heq => by cases heq; exact hd⟩
        · intro h
          exact h.2.2 h₃ d rfl
    · rw [if_neg h₃]
      congr 1
      symm
      exact hsome.mpr ⟨hmod, fun h => absurd h h₂, fun h => absurd h h₃⟩

theorem isBase64_of_not_codes (hpadded : Padded isUrl t) (hx : x ∈ withoutPadding t)
    (hvalue : (characterTable isUrl).getD x.toNat 0 = 64) : isBase64Impl isUrl t = some false := by
  rw [isBase64_padded hpadded, if_pos]
  exact List.any_eq_true.mpr ⟨x, hx, decide_eq_true hvalue⟩

/-- What is accepted, and what it stands for. -/
def Accepted (isUrl : Bool) (t : List UInt8) (s : List UInt8) : Prop :=
  Padded isUrl t ∧ withoutPadding t = (sextets s).map (character isUrl)

/-- A string stands for bytes and is accepted by the decoder and the check, or is rejected by both. -/
theorem accepted_or (isUrl : Bool) (t : List UInt8) :
    (∃ s, Accepted isUrl t s ∧ base64DecodeImpl isUrl t = some (.ok s) ∧ isBase64Impl isUrl t = some true ∧
      (doBase64DecodeImpl (characterTable isUrl) (withoutPadding t)).written.length = resultSize (withoutPadding t)) ∨
    ∃ message, base64DecodeImpl isUrl t = some (.error message) ∧ isBase64Impl isUrl t = some false := by
  by_cases hpadded : Padded isUrl t
  · by_cases hcodes : ∀ x ∈ withoutPadding t, (characterTable isUrl).getD x.toNat 0 ≠ 64
    · obtain ⟨ds, hlt, hds⟩ := exists_codes hcodes
      have hcheck := isBase64_of_codes hpadded hlt hds
      cases hoctets : octets ds with
      | some s =>
        left
        obtain ⟨hdecode, hsize⟩ := decode_of_octets hpadded hlt hds hoctets
        rw [hoctets] at hcheck
        refine ⟨s, ⟨hpadded, ?_⟩, hdecode, hcheck, hsize⟩
        rw [sextets_octets ds hlt hoctets]
        exact hds
      | none =>
        right
        have hlen := hpadded.length
        rw [hds, List.length_map] at hlen
        obtain ⟨message, herror⟩ := decode_error hpadded fun hok => by
          rw [hds] at hok
          obtain ⟨s, hs⟩ := octets_of_doDecode hlt hlen hok
          cases hoctets.symm.trans hs
        rw [hoctets] at hcheck
        exact ⟨message, herror, hcheck⟩
    · right
      push Not at hcodes
      obtain ⟨x, hx, hvalue⟩ := hcodes
      obtain ⟨message, herror⟩ := decode_error hpadded fun hok => value_of_doDecode hok x hx hvalue
      exact ⟨message, herror, isBase64_of_not_codes hpadded hx hvalue⟩
  · right
    obtain ⟨message, herror⟩ := dropPadding_error hpadded
    refine ⟨message, ?_, isBase64_not_padded hpadded⟩
    unfold base64DecodeImpl
    rw [herror]

/-- Four characters for three bytes or what is left of them. -/
theorem length_encoded (s : List UInt8) : (sextets s).length + padding s = (s.length + 2) / 3 * 4 := by
  have hmod := Nat.mod_lt s.length (show 3 > 0 by decide)
  rw [length_sextets]
  unfold padding
  rcases (show s.length % 3 = 0 ∨ s.length % 3 = 1 ∨ s.length % 3 = 2 by omega) with h | h | h <;> rw [h] <;> omega

/-- What is encoded is accepted as the bytes. -/
theorem accepted_encode (isUrl : Bool) (s : List UInt8) : Accepted isUrl (base64EncodeImpl isUrl s) s := by
  have hne : ∀ c ∈ (sextets s).map (character isUrl), c ≠ ch '=' := by
    intro c hc
    obtain ⟨d, hd, rfl⟩ := List.mem_map.mp hc
    exact (character_ne (sextets_lt s d hd)).1
  have hlen : ((sextets s).map (character isUrl)).length = s.length / 3 * 4 + (s.length % 3 * 4 + 2) / 3 := by
    rw [List.length_map]
    exact length_sextets s
  have hpadding : padding s < 3 := Nat.mod_lt _ (by decide)
  have hencoded := length_encoded s
  rw [encode_eq]
  cases isUrl with
  | true =>
    obtain ⟨hwithout, hzero⟩ := withoutPadding_append hne 0
    rw [List.replicate_zero] at hwithout hzero
    refine ⟨⟨?_, ?_, ?_⟩, hwithout⟩
    · exact lt_of_eq_of_lt hzero (by decide)
    · rintro (h | h)
      · cases h
      · exact absurd h (by rw [if_pos rfl, hzero]; decide)
    · intro _
      rw [if_pos rfl, hwithout, hlen]
      omega
  | false =>
    obtain ⟨hwithout, hlength⟩ := withoutPadding_append hne (padding s)
    refine ⟨⟨?_, ?_, fun h => by cases h⟩, hwithout⟩
    · exact lt_of_eq_of_lt hlength hpadding
    · intro _
      rw [if_neg Bool.false_ne_true, hwithout, hlength, List.length_map, hencoded, Nat.mul_mod_left]

/-- An accepted string is what its bytes are encoded to, but for the padding of base64url. -/
theorem Accepted.encode (h : Accepted isUrl t s) :
    base64EncodeImpl isUrl s = if isUrl then withoutPadding t else t := by
  obtain ⟨hpadded, hcodes⟩ := h
  rw [encode_eq, ← hcodes]
  cases isUrl with
  | true => exact List.append_nil _
  | false =>
    obtain ⟨hlt, hlength, -⟩ := hpadded
    have hmod := hlength (.inl rfl)
    have hlen : (withoutPadding t).length = (sextets s).length := by rw [hcodes, List.length_map]
    have hencoded := length_encoded s
    have hpadding : padding s < 3 := Nat.mod_lt _ (by decide)
    have hpadding : padding s = paddingLength t := by omega
    rw [if_neg Bool.false_ne_true, hpadding]
    exact (append_padding t).symm

/-- For both alphabets: what is encoded is decoded again; a string is decoded if and only if it passes the check, and
then encodes to itself, or for base64url to itself without its padding; and the result is filled exactly when a string
is accepted, and never written after its end. -/
theorem base64_exact (isUrl : Bool) :
    (∀ s, base64DecodeImpl isUrl (base64EncodeImpl isUrl s) = some (.ok s)) ∧
    (∀ t, ∃ result, base64DecodeImpl isUrl t = some result ∧ isBase64Impl isUrl t = some result.isOk ∧
      ∀ s, result = .ok s → base64EncodeImpl isUrl s = if isUrl then t.rdropWhile (· = ch '=') else t) ∧
    ∀ t xs, base64DropPadding isUrl t = .ok xs →
      (doBase64DecodeImpl (characterTable isUrl) xs).written.length ≤ resultSize xs ∧
      (isBase64Impl isUrl t = some true →
        (doBase64DecodeImpl (characterTable isUrl) xs).written.length = resultSize xs) := by
  refine ⟨fun s => ?_, fun t => ?_, fun t xs hxs => ?_⟩
  · obtain ⟨hpadded, hcodes⟩ := accepted_encode isUrl s
    exact (decode_of_octets hpadded (sextets_lt s) hcodes (octets_sextets s)).1
  · rcases accepted_or isUrl t with ⟨s, haccepted, hdecode, hcheck, -⟩ | ⟨message, herror, hcheck⟩
    · refine ⟨_, hdecode, hcheck, fun s' heq => ?_⟩
      cases heq
      exact haccepted.encode
    · exact ⟨_, herror, hcheck, fun s heq => by cases heq⟩
  · obtain ⟨hpadded, rfl⟩ := padded_of_dropPadding hxs
    refine ⟨?_, fun htrue => ?_⟩
    · rw [resultSize_eq]
      exact doDecode_le (characterTable isUrl) hpadded.length
    · rcases accepted_or isUrl t with ⟨s, -, -, -, hsize⟩ | ⟨message, -, hfalse⟩
      · exact hsize
      · cases hfalse.symm.trans htrue

end TdUtils.Base64
