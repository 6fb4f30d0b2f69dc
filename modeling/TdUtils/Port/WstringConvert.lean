import TdUtils.Lib.Utf16
import TdUtils.Lib.Word
import TdUtils.Text.Truncate

/-!
# Port.WstringConvert — strings of Windows

A `wchar_t` has 16 bits.  Both directions count first what they will write, and write it in a second pass.  An array of
`wchar_t` lies in a memory that goes on behind it; what `from_wstring` reads there is recorded.
-/

namespace TdUtils.Port.WstringConvert

open Lib Utf8 Text

inductive Fault
  | check
  | outside
deriving DecidableEq

/-- What is in `result` after it was written from its start on. -/
def fill {α : Type} (result written : List α) : Except Fault (List α) :=
  if written.length ≤ result.length then .ok (written ++ result.drop written.length) else .error .outside

def wrongEncoding : String := "Wrong encoding"

/-! ### `to_wstring` -/

/-- What the loop of `to_wstring` writes. -/
def writeUnits : List UInt8 → Except Fault (List UInt16)
  | [] => .ok []
  | a :: slice =>
    let a := a.toNat
    if a ≥ 0x80 then
      match slice with
      | [] => .error .outside
      | b :: slice =>
        let b := b.toNat
        if a ≥ 0xe0 then
          match slice with
          | [] => .error .outside
          | c :: slice =>
            let c := c.toNat
            if a ≥ 0xf0 then
              match slice with
              | [] => .error .outside
              | d :: slice =>
                let d := d.toNat
                let val := Word.sub 32
                  ((a &&& 0x07) <<< 18 + (b &&& 0x3f) <<< 12 + (c &&& 0x3f) <<< 6 + (d &&& 0x3f)) 0x10000
                (writeUnits slice).map fun rest =>
                  UInt16.ofNat (0xD800 + val >>> 10) :: UInt16.ofNat (0xDC00 + (val &&& 0x3ff)) :: rest
            else
              (writeUnits slice).map fun rest =>
                UInt16.ofNat ((a &&& 0x0f) <<< 12 + (b &&& 0x3f) <<< 6 + (c &&& 0x3f)) :: rest
        else (writeUnits slice).map fun rest => UInt16.ofNat ((a &&& 0x1f) <<< 6 + (b &&& 0x3f)) :: rest
    else (writeUnits slice).map fun rest => UInt16.ofNat a :: rest

/-- `to_wstring`; the inner error is the text of the status. -/
def toWstring (slice : List UInt8) : Except Fault (Except String (List UInt16)) :=
  if checkUtf8 slice then
    let wstringLen := utf8Utf16Length slice
    let result := List.replicate wstringLen 0
    if wstringLen = 0 then .ok (.ok result)
    else do
      let written ← writeUnits slice
      let result ← fill result written
      if written.length = wstringLen then return .ok result else throw .check
  else .ok (.error wrongEncoding)

/-! ### `from_wstring` -/

/-- The first pass from `i` on: the places that are read, and `result_len`. -/
def countBytes (begin_ : ℕ → UInt16) (size i resultLen : ℕ) : List ℕ × Except String ℕ :=
  if i < size then
    let cur := (begin_ i).toNat
    if cur &&& 0xF800 = 0xD800 then
      if i < size then
        let next := (begin_ (i + 1)).toNat
        if next &&& 0xFC00 = 0xDC00 ∧ cur &&& 0x400 = 0 then
          let (reads, result) := countBytes begin_ size (i + 2) (resultLen + 4)
          (i :: (i + 1) :: reads, result)
        else ([i, i + 1], .error wrongEncoding)
      else ([i], .error wrongEncoding)
    else
      let (reads, result) := countBytes begin_ size (i + 1)
        (resultLen + (1 + (decide (cur ≥ 0x80)).toNat + (decide (cur ≥ 0x800)).toNat))
      (i :: reads, result)
  else ([], .ok resultLen)
termination_by size - i

/-- The second pass from `i` on: the places that are read, and the bytes that are written. -/
def writeBytes (begin_ : ℕ → UInt16) (size i : ℕ) : List ℕ × List UInt8 :=
  if i < size then
    let cur := (begin_ i).toNat
    if cur ≤ 0x7f then
      let (reads, written) := writeBytes begin_ size (i + 1)
      (i :: reads, UInt8.ofNat cur :: written)
    else if cur ≤ 0x7ff then
      let (reads, written) := writeBytes begin_ size (i + 1)
      (i :: reads, UInt8.ofNat (0xc0 ||| cur >>> 6) :: UInt8.ofNat (0x80 ||| (cur &&& 0x3f)) :: written)
    else if cur &&& 0xF800 ≠ 0xD800 then
      let (reads, written) := writeBytes begin_ size (i + 1)
      (i :: reads, UInt8.ofNat (0xe0 ||| cur >>> 12) :: UInt8.ofNat (0x80 ||| (cur >>> 6 &&& 0x3f)) ::
        UInt8.ofNat (0x80 ||| (cur &&& 0x3f)) :: written)
    else
      let next := (begin_ (i + 1)).toNat
      let val := Word.add 32 (Word.sub 32 (Word.add 32 ((cur - 0xD800) <<< 10) next) 0xDC00) 0x10000
      let (reads, written) := writeBytes begin_ size (i + 2)
      (i :: (i + 1) :: reads, UInt8.ofNat (0xf0 ||| val >>> 18) :: UInt8.ofNat (0x80 ||| (val >>> 12 &&& 0x3f)) ::
        UInt8.ofNat (0x80 ||| (val >>> 6 &&& 0x3f)) :: UInt8.ofNat (0x80 ||| (val &&& 0x3f)) :: written)
  else ([], [])
termination_by size - i

/-- `from_wstring(begin, size)`: the places that are read, and the result. -/
def fromWstring (begin_ : ℕ → UInt16) (size : ℕ) : List ℕ × Except Fault (Except String (List UInt8)) :=
  match countBytes begin_ size 0 0 with
  | (reads, .error e) => (reads, .ok (.error e))
  | (reads, .ok resultLen) =>
    let result := List.replicate resultLen 0
    if resultLen = 0 then (reads, .ok (.ok result))
    else
      let (reads', written) := writeBytes begin_ size 0
      (reads ++ reads', (fill result written).map .ok)

/-- `from_wstring(const std::wstring &)`; there is a zero behind the data of the string. -/
def fromWstringStr (str : List UInt16) : Except Fault (Except String (List UInt8)) :=
  (fromWstring (fun i => str.getD i 0) str.length).2

/-! ### The masks -/

section Masks

open Utf16

variable {a : UInt16}

theorem surrogate_iff : a.toNat &&& 0xF800 = 0xD800 ↔ Leads a ∨ Trails a := by
  have hlt := a.toNat_lt
  have hmask : a.toNat &&& 0xF800 = a.toNat / 2048 % 32 * 2048 := Bits.and_mask a.toNat 11 5
  rw [hmask]
  unfold Leads Trails
  omega

theorem trails_iff : a.toNat &&& 0xFC00 = 0xDC00 ↔ Trails a := by
  have hlt := a.toNat_lt
  have hmask : a.toNat &&& 0xFC00 = a.toNat / 1024 % 64 * 1024 := Bits.and_mask a.toNat 10 6
  rw [hmask]
  unfold Trails
  omega

theorem leads_iff (h : Leads a ∨ Trails a) : a.toNat &&& 0x400 = 0 ↔ Leads a := by
  have hmask : a.toNat &&& 0x400 = a.toNat / 1024 % 2 * 1024 := Bits.and_mask a.toNat 10 1
  rw [hmask]
  unfold Leads Trails at *
  omega

end Masks

/-! ### One character of an array -/

section Steps

open Utf16

variable {begin_ : ℕ → UInt16} {size i : ℕ}

/-- The units of the array from `i` on. -/
def units (begin_ : ℕ → UInt16) (size i : ℕ) : List UInt16 := (List.range' i (size - i)).map begin_

theorem units_of_lt (h : i < size) : units begin_ size i = begin_ i :: units begin_ size (i + 1) := by
  unfold units
  rw [show size - i = size - (i + 1) + 1 by omega, List.range'_succ, List.map_cons]

theorem units_of_ge (h : size ≤ i) : units begin_ size i = [] := by
  unfold units
  rw [show size - i = 0 by omega]
  rfl

theorem units_eq_cons {a : UInt16} {u : List UInt16} (h : units begin_ size i = a :: u) :
    i < size ∧ begin_ i = a ∧ units begin_ size (i + 1) = u := by
  by_cases hi : i < size
  · rw [units_of_lt hi] at h
    obtain ⟨ha, hu⟩ := List.cons.inj h
    exact ⟨hi, ha, hu⟩
  · rw [units_of_ge (by omega)] at h
    cases h

/-- The first character of the units, in the array. -/
theorem units_eq_utf16 {c : ℕ} {u : List UInt16} (hc : Scalar c) (h : units begin_ size i = utf16 c ++ u) :
    (i < size ∧ ¬Leads (begin_ i) ∧ ¬Trails (begin_ i) ∧ c = (begin_ i).toNat ∧ units begin_ size (i + 1) = u) ∨
      (i + 1 < size ∧ Leads (begin_ i) ∧ Trails (begin_ (i + 1)) ∧ c = pairCode (begin_ i) (begin_ (i + 1)) ∧
        units begin_ size (i + 2) = u) := by
  rcases utf16_cases hc with ⟨a, hl, ht, hcode⟩ | ⟨a, b, hl, ht, hcode⟩
  · rw [hcode, utf16_toNat] at h
    obtain ⟨hi, rfl, hu⟩ := units_eq_cons h
    exact .inl ⟨hi, hl, ht, hcode, hu⟩
  · rw [hcode, utf16_pairCode hl ht] at h
    obtain ⟨-, rfl, htail⟩ := units_eq_cons h
    obtain ⟨hi, rfl, hu⟩ := units_eq_cons htail
    exact .inr ⟨hi, hl, ht, hcode, hu⟩

theorem countBytes_end (h : size ≤ i) (resultLen : ℕ) : countBytes begin_ size i resultLen = ([], .ok resultLen) := by
  rw [countBytes, if_neg (by omega)]

theorem writeBytes_end (h : size ≤ i) : writeBytes begin_ size i = ([], []) := by
  rw [writeBytes, if_neg (by omega)]

theorem countBytes_unit (h : i < size) (hl : ¬Leads (begin_ i)) (ht : ¬Trails (begin_ i)) (resultLen : ℕ) :
    countBytes begin_ size i resultLen =
      (i :: (countBytes begin_ size (i + 1) (resultLen + (utf8 (begin_ i).toNat).length)).1,
        (countBytes begin_ size (i + 1) (resultLen + (utf8 (begin_ i).toNat).length)).2) := by
  have hsur : ¬((begin_ i).toNat &&& 0xF800 = 0xD800) := fun hs => (surrogate_iff.mp hs).elim hl ht
  have hlt := (begin_ i).toNat_lt
  have hlen : (utf8 (begin_ i).toNat).length =
      1 + (decide ((begin_ i).toNat ≥ 0x80)).toNat + (decide ((begin_ i).toNat ≥ 0x800)).toNat := by
    unfold utf8
    rcases Nat.lt_or_ge (begin_ i).toNat 0x80 with h1 | h1
    · simp [h1, show ¬0x80 ≤ (begin_ i).toNat by omega, show ¬0x800 ≤ (begin_ i).toNat by omega]
    · rcases Nat.lt_or_ge (begin_ i).toNat 0x800 with h2 | h2
      · simp [h1, h2, show ¬(begin_ i).toNat < 0x80 by omega, show ¬0x800 ≤ (begin_ i).toNat by omega]
      · simp [h1, h2, hlt, show ¬(begin_ i).toNat < 0x80 by omega, show ¬(begin_ i).toNat < 0x800 by omega]
  rw [countBytes, if_pos h]
  simp only [if_neg hsur, hlen]

theorem countBytes_pair (h : i < size) (hl : Leads (begin_ i)) (ht : Trails (begin_ (i + 1))) (resultLen : ℕ) :
    countBytes begin_ size i resultLen =
      (i :: (i + 1) :: (countBytes begin_ size (i + 2) (resultLen + 4)).1,
        (countBytes begin_ size (i + 2) (resultLen + 4)).2) := by
  have hsur := Or.inl (b := Trails (begin_ i)) hl
  rw [countBytes, if_pos h]
  simp only [surrogate_iff.mpr hsur, trails_iff.mpr ht, (leads_iff hsur).mpr hl, h, if_true, and_self]

/-- A surrogate that starts no pair is read with the unit behind it. -/
theorem countBytes_surrogate (h : i < size) (hsur : Leads (begin_ i) ∨ Trails (begin_ i))
    (hpair : ¬(Leads (begin_ i) ∧ Trails (begin_ (i + 1)))) (resultLen : ℕ) :
    countBytes begin_ size i resultLen = ([i, i + 1], .error wrongEncoding) := by
  have hcond : ¬((begin_ (i + 1)).toNat &&& 0xFC00 = 0xDC00 ∧ (begin_ i).toNat &&& 0x400 = 0) :=
    fun hc => hpair ⟨(leads_iff hsur).mp hc.2, trails_iff.mp hc.1⟩
  rw [countBytes, if_pos h]
  simp only [surrogate_iff.mpr hsur, h, if_true, if_neg hcond]

theorem writeBytes_unit (h : i < size) (hl : ¬Leads (begin_ i)) (ht : ¬Trails (begin_ i)) :
    writeBytes begin_ size i =
      (i :: (writeBytes begin_ size (i + 1)).1, utf8 (begin_ i).toNat ++ (writeBytes begin_ size (i + 1)).2) := by
  have hsur : (begin_ i).toNat &&& 0xF800 ≠ 0xD800 := fun hs => (surrogate_iff.mp hs).elim hl ht
  have hlt := (begin_ i).toNat_lt
  rw [writeBytes, if_pos h, ← List.nil_append (utf8 _), ← appendUtf8Character_eq (by omega)]
  unfold appendUtf8Character
  simp only [if_pos hsur]
  split_ifs <;> first | rfl | omega

/-- The code that the second pass computes from a pair. -/
theorem pair_val {a b : UInt16} (ha : Leads a) (hb : Trails b) :
    Word.add 32 (Word.sub 32 (Word.add 32 ((a.toNat - 0xD800) <<< 10) b.toNat) 0xDC00) 0x10000 = pairCode a b := by
  unfold Leads at ha
  unfold Trails at hb
  rw [Nat.shiftLeft_eq, Word.add_of_lt (a := (a.toNat - 0xD800) * 2 ^ 10) (by omega),
    Word.sub_of_le (by omega) (by omega), Word.add_of_lt (by omega)]
  unfold pairCode
  omega

theorem writeBytes_pair (h : i < size) (hl : Leads (begin_ i)) (ht : Trails (begin_ (i + 1))) :
    writeBytes begin_ size i =
      (i :: (i + 1) :: (writeBytes begin_ size (i + 2)).1,
        utf8 (pairCode (begin_ i) (begin_ (i + 1))) ++ (writeBytes begin_ size (i + 2)).2) := by
  have hsur := surrogate_iff.mpr (Or.inl (b := Trails (begin_ i)) hl)
  have hcode := pairCode_bounds hl ht
  have hval := pair_val hl ht
  unfold Leads at hl
  rw [writeBytes, if_pos h, ← List.nil_append (utf8 _), ← appendUtf8Character_eq (by omega)]
  have h1 : ¬(begin_ i).toNat ≤ 0x7f := by omega
  have h2 : ¬(begin_ i).toNat ≤ 0x7ff := by omega
  have h3 : ¬pairCode (begin_ i) (begin_ (i + 1)) ≤ 0x7f := by omega
  have h4 : ¬pairCode (begin_ i) (begin_ (i + 1)) ≤ 0x7ff := by omega
  have h5 : ¬pairCode (begin_ i) (begin_ (i + 1)) ≤ 0xffff := by omega
  unfold appendUtf8Character
  simp only [if_neg h1, if_neg h2, if_neg h3, if_neg h4, if_neg h5, if_neg (not_not.mpr hsur), hval,
    List.nil_append, List.cons_append]

end Steps

/-! ### An array -/

section Arrays

open Utf16

variable {begin_ : ℕ → UInt16} {size : ℕ}

/-- The last unit is a surrogate, and in front of it the units are well formed. -/
def EndsInSurrogate (u : List UInt16) : Prop :=
  ∃ front last, u = front ++ [last] ∧ WellFormed front ∧ (Leads last ∨ Trails last)

theorem EndsInSurrogate.cons {c : ℕ} {u : List UInt16} (hc : Scalar c) (h : EndsInSurrogate u) :
    EndsInSurrogate (utf16 c ++ u) := by
  obtain ⟨front, last, rfl, hfront, hlast⟩ := h
  exact ⟨utf16 c ++ front, last, (List.append_assoc _ _ _).symm, hfront.cons hc, hlast⟩

/-- The first pass over well-formed units reads each of them, and counts the bytes of their characters. -/
theorem countBytes_wellFormed : ∀ {cs : List ℕ} {i : ℕ}, Encodes (units begin_ size i) cs → ∀ resultLen,
    countBytes begin_ size i resultLen =
      (List.range' i (size - i), .ok (resultLen + (cs.flatMap utf8).length))
  | [], i, ⟨h, _⟩, resultLen => by
    have hi : size ≤ i := by
      by_contra hi
      rw [units_of_lt (by omega)] at h
      cases h
    rw [countBytes_end hi, show size - i = 0 by omega]
    rfl
  | c :: cs, i, ⟨h, hcs⟩, resultLen => by
    have hrest : ∀ d ∈ cs, Scalar d := fun d hd => hcs d (List.mem_cons_of_mem c hd)
    rw [List.flatMap_cons] at h
    rcases units_eq_utf16 (hcs c List.mem_cons_self) h with ⟨hi, hl, ht, hc, hu⟩ | ⟨hi, hl, ht, hc, hu⟩
    · rw [countBytes_unit hi hl ht, countBytes_wellFormed ⟨hu, hrest⟩, show size - i = size - (i + 1) + 1 by omega,
        List.range'_succ, List.flatMap_cons, List.length_append, hc, Nat.add_assoc]
    · have hlen : (utf8 (pairCode (begin_ i) (begin_ (i + 1)))).length = 4 := by
        have hcode := pairCode_bounds hl ht
        unfold utf8
        rw [if_neg (by omega), if_neg (by omega), if_neg (by omega)]
        rfl
      rw [countBytes_pair (by omega) hl ht, countBytes_wellFormed ⟨hu, hrest⟩,
        show size - i = size - (i + 2) + 1 + 1 by omega, List.range'_succ, List.range'_succ, List.flatMap_cons,
        List.length_append, hc, hlen, Nat.add_assoc]

theorem writeBytes_wellFormed : ∀ {cs : List ℕ} {i : ℕ}, Encodes (units begin_ size i) cs →
    writeBytes begin_ size i = (List.range' i (size - i), cs.flatMap utf8)
  | [], i, ⟨h, _⟩ => by
    have hi : size ≤ i := by
      by_contra hi
      rw [units_of_lt (by omega)] at h
      cases h
    rw [writeBytes_end hi, show size - i = 0 by omega]
    rfl
  | c :: cs, i, ⟨h, hcs⟩ => by
    have hrest : ∀ d ∈ cs, Scalar d := fun d hd => hcs d (List.mem_cons_of_mem c hd)
    rw [List.flatMap_cons] at h
    rcases units_eq_utf16 (hcs c List.mem_cons_self) h with ⟨hi, hl, ht, hc, hu⟩ | ⟨hi, hl, ht, hc, hu⟩
    · rw [writeBytes_unit hi hl ht, writeBytes_wellFormed ⟨hu, hrest⟩, show size - i = size - (i + 1) + 1 by omega,
        List.range'_succ, List.flatMap_cons, hc]
    · rw [writeBytes_pair (by omega) hl ht, writeBytes_wellFormed ⟨hu, hrest⟩,
        show size - i = size - (i + 2) + 1 + 1 by omega, List.range'_succ, List.range'_succ, List.flatMap_cons, hc]

/-- Units that are not well formed are refused inside the array, if they do not end in a surrogate too early. -/
theorem countBytes_malformed (i resultLen : ℕ) (h : ¬WellFormed (units begin_ size i))
    (hend : ¬EndsInSurrogate (units begin_ size i)) :
    (∀ r ∈ (countBytes begin_ size i resultLen).1, r < size) ∧
      (countBytes begin_ size i resultLen).2 = .error wrongEncoding := by
  induction hn : size - i using Nat.strong_induction_on generalizing i resultLen with
  | _ n ih =>
    by_cases hi : i < size
    swap
    · rw [units_of_ge (by omega)] at h
      exact absurd wellFormed_nil h
    rw [units_of_lt hi] at h hend
    by_cases hsur : Leads (begin_ i) ∨ Trails (begin_ i)
    · have hi' : i + 1 < size := by
        by_contra hi'
        rw [units_of_ge (by omega)] at hend
        exact hend ⟨[], begin_ i, rfl, wellFormed_nil, hsur⟩
      by_cases hpair : Leads (begin_ i) ∧ Trails (begin_ (i + 1))
      · obtain ⟨hl, ht⟩ := hpair
        rw [units_of_lt hi'] at h hend
        rw [wellFormed_pair hl ht] at h
        have hcons := EndsInSurrogate.cons (u := units begin_ size (i + 1 + 1)) (scalar_pairCode hl ht)
        rw [utf16_pairCode hl ht] at hcons
        obtain ⟨hreads, herror⟩ := ih _ (by omega) (i + 2) (resultLen + 4) h (fun he => hend (hcons he)) rfl
        rw [countBytes_pair hi hl ht]
        exact ⟨by simpa [hi, hi'] using hreads, herror⟩
      · rw [countBytes_surrogate hi hsur hpair]
        exact ⟨by simp [hi, hi'], rfl⟩
    · obtain ⟨hl, ht⟩ := not_or.mp hsur
      rw [wellFormed_unit hl ht] at h
      have hcons := EndsInSurrogate.cons (u := units begin_ size (i + 1)) (scalar_toNat hl ht)
      rw [utf16_toNat] at hcons
      rw [countBytes_unit hi hl ht]
      obtain ⟨hreads, herror⟩ := ih _ (by omega) (i + 1) _ h (fun he => hend (hcons he)) rfl
      exact ⟨by simpa [hi] using hreads, herror⟩

/-- A surrogate at the end is read with the unit behind the array. -/
theorem countBytes_endsInSurrogate {last : UInt16} (hlast : Leads last ∨ Trails last) : ∀ {cs : List ℕ} {i : ℕ},
    units begin_ size i = cs.flatMap utf16 ++ [last] → (∀ c ∈ cs, Scalar c) → ∀ resultLen,
      size ∈ (countBytes begin_ size i resultLen).1
  | [], i, h, _, resultLen => by
    obtain ⟨hi, rfl, hu⟩ := units_eq_cons h
    have hsize : size = i + 1 := by
      by_contra hne
      rw [units_of_lt (by omega)] at hu
      cases hu
    by_cases hpair : Leads (begin_ i) ∧ Trails (begin_ (i + 1))
    · rw [countBytes_pair hi hpair.1 hpair.2]
      simp [hsize]
    · rw [countBytes_surrogate hi hlast hpair]
      simp [hsize]
  | c :: cs, i, h, hcs, resultLen => by
    have hrest : ∀ d ∈ cs, Scalar d := fun d hd => hcs d (List.mem_cons_of_mem c hd)
    rw [List.flatMap_cons, List.append_assoc] at h
    rcases units_eq_utf16 (hcs c List.mem_cons_self) h with ⟨hi, hl, ht, hc, hu⟩ | ⟨hi, hl, ht, hc, hu⟩
    · rw [countBytes_unit hi hl ht]
      exact List.mem_cons_of_mem _ (countBytes_endsInSurrogate hlast hu hrest _)
    · rw [countBytes_pair (by omega) hl ht]
      exact List.mem_cons_of_mem _ (List.mem_cons_of_mem _ (countBytes_endsInSurrogate hlast hu hrest _))

theorem fill_eq {α : Type} {result written : List α} (h : written.length = result.length) :
    fill result written = .ok written := by
  unfold fill
  rw [if_pos h.le, h, List.drop_length, List.append_nil]

/-- Well-formed units are turned into the UTF-8 form of the same characters. -/
theorem fromWstring_wellFormed {cs : List ℕ} (h : Encodes (units begin_ size 0) cs) :
    (∀ i ∈ (fromWstring begin_ size).1, i < size) ∧ (fromWstring begin_ size).2 = .ok (.ok (cs.flatMap utf8)) := by
  have hcount := countBytes_wellFormed h 0
  have hwrite := writeBytes_wellFormed h
  have hinside : ∀ i ∈ List.range' 0 (size - 0), i < size := fun i hi => by
    obtain ⟨-, hlt⟩ := List.mem_range'_1.mp hi
    omega
  unfold fromWstring
  rw [hcount, Nat.zero_add]
  by_cases hnil : (cs.flatMap utf8).length = 0
  · simp only [if_pos hnil]
    rw [hnil, List.eq_nil_of_length_eq_zero hnil]
    exact ⟨hinside, rfl⟩
  · simp only [if_neg hnil, hwrite]
    refine ⟨?_, by rw [fill_eq List.length_replicate.symm]; rfl⟩
    intro i hi
    exact (List.mem_append.mp hi).elim (hinside i) (hinside i)

/-- What is asked of a conversion: it reads inside the array, accepts what is well formed, and writes as many bytes as
it has counted. -/
structure Converts (begin_ : ℕ → UInt16) (size : ℕ) : Prop where
  inside : ∀ i ∈ (fromWstring begin_ size).1, i < size
  accepts : (∃ bytes, (fromWstring begin_ size).2 = .ok (.ok bytes)) ↔ WellFormed (units begin_ size 0)
  writes : ∀ bytes, (fromWstring begin_ size).2 = .ok (.ok bytes) →
    (countBytes begin_ size 0 0).2 = .ok (writeBytes begin_ size 0).2.length ∧ bytes = (writeBytes begin_ size 0).2

/-- **`from_wstring` on an array.**  It reads inside the array, accepts what is well formed and writes what it counted,
whatever lies behind the array, just when the array does not end in a surrogate behind well-formed units. -/
theorem fromWstring_converts_iff (begin_ : ℕ → UInt16) (size : ℕ) :
    Converts begin_ size ↔ ¬EndsInSurrogate (units begin_ size 0) := by
  constructor
  · rintro h ⟨_, last, hu, ⟨cs, rfl, hcs⟩, hlast⟩
    have hread := countBytes_endsInSurrogate hlast hu hcs 0
    have hmem : size ∈ (fromWstring begin_ size).1 := by
      unfold fromWstring
      rcases hc : countBytes begin_ size 0 0 with ⟨reads, e | n⟩
      · rwa [hc] at hread
      · rw [hc] at hread
        dsimp only at hread ⊢
        split_ifs
        · exact hread
        · exact List.mem_append_left _ hread
    exact Nat.lt_irrefl size (h.inside size hmem)
  · intro hend
    by_cases hwf : WellFormed (units begin_ size 0)
    · obtain ⟨cs, hcs⟩ := hwf
      obtain ⟨hinside, hresult⟩ := fromWstring_wellFormed hcs
      have hwrite := writeBytes_wellFormed hcs
      refine ⟨hinside, ⟨fun _ => ⟨cs, hcs⟩, fun _ => ⟨_, hresult⟩⟩, fun bytes hbytes => ?_⟩
      rw [hresult] at hbytes
      obtain rfl := Except.ok.inj (Except.ok.inj hbytes)
      rw [countBytes_wellFormed hcs, hwrite, Nat.zero_add]
      exact ⟨rfl, rfl⟩
    · obtain ⟨hinside, herror⟩ := countBytes_malformed 0 0 hwf hend
      have hresult : fromWstring begin_ size = ((countBytes begin_ size 0 0).1, .ok (.error wrongEncoding)) := by
        unfold fromWstring
        rcases hc : countBytes begin_ size 0 0 with ⟨reads, e | n⟩
        · rw [hc] at herror
          obtain rfl := Except.error.inj herror
          rfl
        · rw [hc] at herror
          cases herror
      have hnone : ∀ bytes, (fromWstring begin_ size).2 ≠ .ok (.ok bytes) := fun bytes hb => by
        rw [hresult] at hb
        cases hb
      exact ⟨by rwa [hresult], ⟨fun ⟨bytes, hb⟩ => absurd hb (hnone bytes), fun hw => absurd hw hwf⟩,
        fun bytes hb => absurd hb (hnone bytes)⟩

/-- A lead surrogate at the end is accepted when a trail surrogate happens to lie behind the array. -/
theorem lone_surrogate_accepted :
    fromWstring (fun i => if i = 0 then 0xD800 else 0xDC00) 1 =
        ([0, 1, 0, 1], .ok (.ok [0xf0, 0x90, 0x80, 0x80])) ∧
      ¬∀ (begin_ : ℕ → UInt16) (size : ℕ), Converts begin_ size := by
  have hrun : fromWstring (fun i => if i = 0 then 0xD800 else 0xDC00) 1 =
      ([0, 1, 0, 1], .ok (.ok [0xf0, 0x90, 0x80, 0x80])) := by
    simp [fromWstring, countBytes, writeBytes, fill, Word.add, Word.sub, Except.map]
  refine ⟨hrun, fun h => ?_⟩
  have hinside := (h (fun i => if i = 0 then 0xD800 else 0xDC00) 1).inside
  rw [hrun] at hinside
  exact absurd (hinside 1 (by simp)) (Nat.lt_irrefl 1)

end Arrays

/-! ### There and back -/

section RoundTrip

open Utf16

variable {s rest : List UInt8} {c : ℕ}

theorem code_sum_two (a b : ℕ) : (a &&& 0x1f) <<< 6 + (b &&& 0x3f) = a % 32 * 64 + b % 64 := by
  rw [and_1f, and_3f, Nat.shiftLeft_eq]

theorem code_sum_three (a b c : ℕ) :
    (a &&& 0x0f) <<< 12 + (b &&& 0x3f) <<< 6 + (c &&& 0x3f) = a % 16 * 4096 + b % 64 * 64 + c % 64 := by
  rw [and_0f, and_3f, and_3f, Nat.shiftLeft_eq, Nat.shiftLeft_eq]

theorem code_sum_four (a b c d : ℕ) :
    (a &&& 0x07) <<< 18 + (b &&& 0x3f) <<< 12 + (c &&& 0x3f) <<< 6 + (d &&& 0x3f) =
      a % 8 * 262144 + b % 64 * 4096 + c % 64 * 64 + d % 64 := by
  rw [and_07, and_3f, and_3f, and_3f, Nat.shiftLeft_eq, Nat.shiftLeft_eq, Nat.shiftLeft_eq]

/-- The loop turns the first character into its units. -/
theorem writeUnits_of_front (h : front s = some (c, rest)) :
    writeUnits s = (writeUnits rest).map fun units => utf16 c ++ units := by
  rcases s with - | ⟨a, s⟩
  · cases h
  have hlt := a.toNat_lt
  unfold front at h
  rw [writeUnits.eq_def]
  dsimp only at h ⊢
  split_ifs at h with h1 h2 h3 h4
  · obtain ⟨rfl, rfl⟩ := Prod.mk.inj (Option.some.inj h)
    rw [if_neg (by omega), show utf16 a.toNat = [UInt16.ofNat a.toNat] from if_pos (by omega)]
    rfl
  · rcases s with - | ⟨b, s⟩
    · cases h
    dsimp only at h ⊢
    split_ifs at h with hb
    obtain ⟨rfl, rfl⟩ := Prod.mk.inj (Option.some.inj h)
    rw [if_pos (by omega), if_neg (by omega), code_sum_two, show utf16 (a.toNat % 32 * 64 + b.toNat % 64) =
      [UInt16.ofNat (a.toNat % 32 * 64 + b.toNat % 64)] from if_pos (by omega)]
    rfl
  · rcases s with - | ⟨b, - | ⟨c, s⟩⟩
    · cases h
    · cases h
    dsimp only at h ⊢
    split_ifs at h with hbc
    obtain ⟨rfl, rfl⟩ := Prod.mk.inj (Option.some.inj h)
    rw [if_pos (by omega), if_pos (by omega), if_neg (by omega), code_sum_three,
      show utf16 (a.toNat % 16 * 4096 + b.toNat % 64 * 64 + c.toNat % 64) =
        [UInt16.ofNat (a.toNat % 16 * 4096 + b.toNat % 64 * 64 + c.toNat % 64)] from if_pos (by omega)]
    rfl
  · rcases s with - | ⟨b, - | ⟨c, - | ⟨d, s⟩⟩⟩
    · cases h
    · cases h
    · cases h
    dsimp only at h ⊢
    split_ifs at h with hbcd
    obtain ⟨hcode, rfl⟩ := Prod.mk.inj (Option.some.inj h)
    have hlow : ∀ n : ℕ, n &&& 0x3ff = n % 1024 := fun n => Bits.and_low n 10
    rw [if_pos (by omega), if_pos (by omega), if_pos (by omega), code_sum_four, hcode,
      Word.sub_of_le (by omega) (by omega), Nat.shiftRight_eq_div_pow, hlow]
    unfold utf16
    rw [if_neg (by omega)]
    rfl

theorem writeUnits_encodes : ∀ {cs : List ℕ}, (∀ c ∈ cs, Scalar c) →
    writeUnits (cs.flatMap utf8) = .ok (cs.flatMap utf16)
  | [], _ => rfl
  | c :: cs, hcs => by
    have hfront := front_utf8 (hcs c List.mem_cons_self) (cs.flatMap utf8)
    have ih := writeUnits_encodes fun d hd => hcs d (List.mem_cons_of_mem c hd)
    rw [List.flatMap_cons, writeUnits_of_front hfront, ih]
    rfl

theorem length_flatMap_utf16 (cs : List ℕ) : (cs.flatMap utf16).length = (cs.map utf16Units).sum := by
  induction cs with
  | nil => rfl
  | cons c cs ih =>
    have hlen : (utf16 c).length = utf16Units c := by
      unfold utf16 utf16Units
      split_ifs <;> rfl
    rw [List.flatMap_cons, List.length_append, List.map_cons, List.sum_cons, hlen, ih]

/-- A valid string is turned into the UTF-16 form of its characters, in as many units as were counted. -/
theorem toWstring_encodes {cs : List ℕ} (h : Utf8.Encodes s cs) : toWstring s = .ok (.ok (cs.flatMap utf16)) := by
  have hcount := utf8Utf16Length_eq h
  obtain ⟨hs, hcs⟩ := h
  have hcheck : checkUtf8 s = true := (checkUtf8_iff s).mpr ⟨cs, hs, hcs⟩
  have hwrite : writeUnits s = .ok (cs.flatMap utf16) := by rw [hs, writeUnits_encodes hcs]
  have hlen := length_flatMap_utf16 cs
  unfold toWstring
  rw [if_pos hcheck, hcount, ← hlen]
  dsimp only
  split_ifs with hnil
  · rw [hnil, List.eq_nil_of_length_eq_zero hnil]
    rfl
  · rw [hwrite]
    change (fill _ _ >>= _) = _
    rw [fill_eq List.length_replicate.symm]
    exact if_pos rfl

theorem units_getD (u : List UInt16) : units (fun i => u.getD i 0) u.length 0 = u := by
  unfold units
  apply List.ext_getElem
  · simp
  · intro i h1 h2
    simp [h2]

/-- **To UTF-16 and back.**  A valid UTF-8 string is converted, its `CHECK` holds, and what was converted is converted
back into the string. -/
theorem fromWstring_toWstring (s : List UInt8) (h : Valid s) :
    ∃ str, toWstring s = .ok (.ok str) ∧ fromWstringStr str = .ok (.ok s) := by
  obtain ⟨cs, hs, hcs⟩ := h
  refine ⟨cs.flatMap utf16, toWstring_encodes ⟨hs, hcs⟩, ?_⟩
  have hunits : Utf16.Encodes (units (fun i => (cs.flatMap utf16).getD i 0) (cs.flatMap utf16).length 0) cs :=
    ⟨units_getD _, hcs⟩
  rw [hs]
  exact (fromWstring_wellFormed hunits).2

/-- One character of one byte, and one of four. -/
theorem fromWstring_toWstring_two : ∃ str, toWstring [0x41, 0xf0, 0x9f, 0x8f, 0x9f] = .ok (.ok str) ∧
    fromWstringStr str = .ok (.ok [0x41, 0xf0, 0x9f, 0x8f, 0x9f]) :=
  fromWstring_toWstring _ ⟨[0x41, 0x1F3DF], by decide, by decide⟩

end RoundTrip

end TdUtils.Port.WstringConvert
