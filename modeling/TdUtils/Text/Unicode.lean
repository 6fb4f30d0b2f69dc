import Mathlib.Data.Int.Notation
import TdUtils.Lib.Utf8

/-!
# Text.Unicode — the character tables and their binary search

The tables of `unicode.cpp` are generated data.  A `CharTable` is any data of their form: a table for
the codes below `TABLE_SIZE` and ranges for the others, both with scalar values for scalar values.
The search needs no more than a sorted table; an array of `int32` has less than `2 ^ 62` elements, so
that `l + r + 2` does not wrap.
-/

namespace TdUtils.Text

open Lib Utf8

def tableSize : ℕ := 1280

/-! ### Ranges -/

/-- The start of a range, and what is said about its codes. -/
def start (ranges : List ℤ) (i : ℕ) : ℤ := ranges.getD (2 * i) 0

def said (ranges : List ℤ) (i : ℕ) : ℤ := ranges.getD (2 * i + 1) 0

/-- The loop of `binary_search_ranges`; none is an index outside the ranges, or too little fuel. -/
def searchLoop (ranges : List ℤ) (codeInt : ℤ) : ℕ → ℕ → ℕ → Option ℕ
  | 0, _, _ => none
  | fuel + 1, l, r =>
    if l < r then
      let m := ((l + r + 2) >>> 2) <<< 1
      match ranges[m]? with
      | none => none
      | some x =>
        if x ≤ codeInt then searchLoop ranges codeInt fuel m r
        else searchLoop ranges codeInt fuel l (m - 2)
    else some l

/-- The code that a range gives for a code in it; none is `LOG(FATAL)`. -/
def rangeValue (begin_ t : ℤ) (code : ℕ) : Option ℕ :=
  if t < 0 then some ((code - begin_ + (-t - 1)) % 2 ^ 32).toNat
  else if t ≤ 0x10ffff then some t.toNat
  else match t - 0x200000 with
    | 0 => some (code &&& 0xFFFFFFFE)
    | 1 => some (code ||| 1)
    | 2 => some ((code + 0xFFFFFFFF) % 2 ^ 32 ||| 1)
    | _ => none

def binarySearchRanges (ranges : List ℤ) (code : ℕ) : Option ℕ :=
  if code > 0x10ffff then some 0
  else do
    let l ← searchLoop ranges code (ranges.length + 1) 0 ranges.length
    let begin_ ← ranges[l]?
    let t ← ranges[l + 1]?
    rangeValue begin_ t code

/-- Pairs with increasing starts, the last one behind all codes. -/
structure Ranges (ranges : List ℤ) (n : ℕ) : Prop where
  length_eq : ranges.length = 2 * n
  two_le : 2 ≤ n
  start_lt : ∀ i j, i < j → j < n → start ranges i < start ranges j
  last : 0x10ffff < start ranges (n - 1)

/-- The range of a code: the last one that does not start behind it. -/
def RangeOf (ranges : List ℤ) (n : ℕ) (code : ℤ) (i : ℕ) : Prop :=
  i < n ∧ start ranges i ≤ code ∧ ∀ j, i < j → j < n → code < start ranges j

section Search

variable {ranges : List ℤ} {n : ℕ} {code : ℤ}

theorem getElem?_start (hlen : ranges.length = 2 * n) {i : ℕ} (hi : i < n) :
    ranges[2 * i]? = some (start ranges i) := by
  have hlt : 2 * i < ranges.length := by omega
  rw [start, List.getD_eq_getElem?_getD, List.getElem?_eq_getElem hlt, Option.getD_some]

theorem getElem?_said (hlen : ranges.length = 2 * n) {i : ℕ} (hi : i < n) :
    ranges[2 * i + 1]? = some (said ranges i) := by
  have hlt : 2 * i + 1 < ranges.length := by omega
  rw [said, List.getD_eq_getElem?_getD, List.getElem?_eq_getElem hlt, Option.getD_some]

/-- Between a range that starts in front of the code and the ranges that start behind it the loop
finds the range of the code. -/
theorem searchLoop_spec (hlen : ranges.length = 2 * n)
    (hsorted : ∀ i j, i < j → j < n → start ranges i ≤ start ranges j) (hlast : code < start ranges (n - 1)) (fuel : ℕ) :
    ∀ i k : ℕ, i ≤ k → k ≤ n → k - i < fuel → i < n → start ranges i ≤ code →
      (∀ j, k < j → j < n → code < start ranges j) →
      ∃ i', searchLoop ranges code fuel (2 * i) (2 * k) = some (2 * i') ∧
        RangeOf ranges n code i' := by
  induction fuel with
  | zero =>
    intro i k _ _ hfuel
    omega
  | succ fuel ih =>
    intro i k hik hk hfuel hi hstart hbehind
    unfold searchLoop
    by_cases hlt : i < k
    · -- the middle lies inside the table: the last range starts behind the code
      have hin : i ≠ n - 1 := by
        rintro rfl
        omega
      have hm : ((2 * i + 2 * k + 2) >>> 2) <<< 1 = 2 * ((i + k + 1) / 2) := by
        rw [Nat.shiftRight_eq_div_pow, Nat.shiftLeft_eq]
        omega
      have hmid : (i + k + 1) / 2 < n := by omega
      rw [if_pos (by omega)]
      dsimp only
      rw [hm, getElem?_start hlen hmid]
      dsimp only
      by_cases hle : start ranges ((i + k + 1) / 2) ≤ code
      · rw [if_pos hle]
        exact ih _ k (by omega) hk (by omega) hmid hle hbehind
      · rw [if_neg hle, show 2 * ((i + k + 1) / 2) - 2 = 2 * ((i + k + 1) / 2 - 1) by omega]
        refine ih i _ (by omega) (by omega) (by omega) hi hstart fun j hj hjn => ?_
        rcases Nat.eq_or_lt_of_le (show (i + k + 1) / 2 ≤ j by omega) with rfl | hj'
        · exact Int.not_le.mp hle
        · exact Int.lt_of_lt_of_le (Int.not_le.mp hle) (hsorted _ _ hj' hjn)
    · obtain rfl : i = k := by omega
      rw [if_neg (Nat.lt_irrefl _)]
      exact ⟨i, rfl, hi, hstart, hbehind⟩

/-- The search ends at the range of the code, without leaving the table. -/
theorem search_range (hlen : ranges.length = 2 * n)
    (hsorted : ∀ i j, i < j → j < n → start ranges i ≤ start ranges j) (hlast : 0x10ffff < start ranges (n - 1))
    {code : ℕ} (hcode : code ≤ 0x10ffff) (hfirst : start ranges 0 ≤ code) : ∃ i, RangeOf ranges n code i ∧
      searchLoop ranges code (ranges.length + 1) 0 ranges.length = some (2 * i) ∧
      binarySearchRanges ranges code = rangeValue (start ranges i) (said ranges i) code := by
  have hn : n ≠ 0 := by
    rintro rfl
    rw [Nat.zero_sub] at hlast
    omega
  obtain ⟨i, hsearch, hi⟩ := searchLoop_spec hlen hsorted
    (show (code : ℤ) < start ranges (n - 1) by omega) (ranges.length + 1) 0 n
    (Nat.zero_le n) (Nat.le_refl n) (by omega) (by omega) hfirst
    (fun j hj hjn => absurd hjn (Nat.not_lt.mpr (Nat.le_of_lt hj)))
  rw [Nat.mul_zero, ← hlen] at hsearch
  refine ⟨i, hi, hsearch, ?_⟩
  unfold binarySearchRanges
  rw [if_neg (Nat.not_lt.mpr hcode), hsearch]
  simp only [Option.bind_eq_bind, Option.bind_some, getElem?_start hlen hi.1, getElem?_said hlen hi.1]

theorem binarySearchRanges_eq (h : Ranges ranges n) {code : ℕ} (hcode : code ≤ 0x10ffff)
    (hfirst : start ranges 0 ≤ code) : ∃ i, RangeOf ranges n code i ∧
      binarySearchRanges ranges code = rangeValue (start ranges i) (said ranges i) code := by
  obtain ⟨i, hi, -, heq⟩ := search_range h.length_eq (fun i j hij hj => Int.le_of_lt (h.start_lt i j hij hj)) h.last hcode
    hfirst
  exact ⟨i, hi, heq⟩

/-! ### A linear scan -/

/-- One pair after the other: the place of the last one that does not start behind the code. -/
def linearScan (code : ℤ) : List ℤ → ℕ → Option ℕ → Option ℕ
  | begin_ :: _ :: ranges, place, found => linearScan code ranges (place + 2) (if begin_ ≤ code then some place else found)
  | _, _, found => found

/-- Behind the range of the code the scan finds nothing. -/
theorem linearScan_behind : ∀ {n : ℕ} {ranges : List ℤ} (place : ℕ) (found : Option ℕ), ranges.length = 2 * n →
    (∀ j < n, code < start ranges j) → linearScan code ranges place found = found
  | 0, [], _, _, _, _ => rfl
  | n + 1, begin_ :: t :: ranges, place, found, hlen, hbehind => by
    have hbegin : code < begin_ := hbehind 0 (Nat.succ_pos n)
    rw [linearScan, if_neg (Int.not_le.mpr hbegin)]
    refine linearScan_behind (n := n) (place + 2) found ?_ fun j hj => hbehind (j + 1) (Nat.succ_lt_succ hj)
    rw [List.length_cons, List.length_cons] at hlen
    omega

/-- The scan ends at the range of the code. -/
theorem linearScan_eq : ∀ {n i : ℕ} {ranges : List ℤ} (place : ℕ) (found : Option ℕ), ranges.length = 2 * n →
    RangeOf ranges n code i → linearScan code ranges place found = some (place + 2 * i)
  | n + 1, 0, begin_ :: t :: ranges, place, found, hlen, ⟨_, hle, hbehind⟩ => by
    have hbegin : begin_ ≤ code := hle
    rw [linearScan, if_pos hbegin, linearScan_behind (n := n) (place + 2)]
    · rfl
    · rw [List.length_cons, List.length_cons] at hlen
      omega
    · exact fun j hj => hbehind (j + 1) (Nat.succ_pos j) (Nat.succ_lt_succ hj)
  | n + 1, i + 1, begin_ :: t :: ranges, place, found, hlen, ⟨hi, hle, hbehind⟩ => by
    rw [linearScan, linearScan_eq (n := n) (i := i) (place + 2)]
    · rw [Nat.mul_succ, Nat.add_assoc, Nat.add_comm 2]
    · rw [List.length_cons, List.length_cons] at hlen
      omega
    · exact ⟨Nat.lt_of_succ_lt_succ hi, hle, fun j hij hj => hbehind (j + 1) (Nat.succ_lt_succ hij) (Nat.succ_lt_succ hj)⟩

/-- **The search in a sorted table.**  It ends, reads no place outside the table and stops where a linear scan does: at
the last pair that does not start behind the code. -/
theorem binarySearchRanges_scan (hlen : ranges.length = 2 * n)
    (hsorted : ∀ i j, i < j → j < n → start ranges i ≤ start ranges j) (hlast : 0x10ffff < start ranges (n - 1))
    {code : ℕ} (hcode : code ≤ 0x10ffff) (hfirst : start ranges 0 ≤ code) : ∃ i, i < n ∧
      searchLoop ranges code (ranges.length + 1) 0 ranges.length = some (2 * i) ∧
      linearScan code ranges 0 none = some (2 * i) ∧
      start ranges i ≤ code ∧ (∀ j, i < j → j < n → code < start ranges j) ∧
      binarySearchRanges ranges code = rangeValue (start ranges i) (said ranges i) code := by
  obtain ⟨i, hi, hsearch, heq⟩ := search_range hlen hsorted hlast hcode hfirst
  have hscan := linearScan_eq 0 none hlen hi
  rw [Nat.zero_add] at hscan
  exact ⟨i, hi.1, hsearch, hscan, hi.2.1, hi.2.2, heq⟩

/-- Three ranges: the capital letters become small ones, the others stay. -/
theorem binarySearchRanges_scan_capitals :
    ∃ i, i < 4 ∧ searchLoop [0, -1, 65, -98, 91, -92, 2147483647, 0] (77 : ℕ) 9 0 8 = some (2 * i) ∧
      linearScan (77 : ℕ) [0, -1, 65, -98, 91, -92, 2147483647, 0] 0 none = some (2 * i) ∧
      start [0, -1, 65, -98, 91, -92, 2147483647, 0] i ≤ (77 : ℕ) ∧
      (∀ j, i < j → j < 4 → (77 : ℕ) < start [0, -1, 65, -98, 91, -92, 2147483647, 0] j) ∧
      binarySearchRanges [0, -1, 65, -98, 91, -92, 2147483647, 0] 77 =
        rangeValue (start [0, -1, 65, -98, 91, -92, 2147483647, 0] i) (said [0, -1, 65, -98, 91, -92, 2147483647, 0] i) 77 := by
  have hsorted : ∀ j < 4, ∀ i < j, start [0, -1, 65, -98, 91, -92, 2147483647, 0] i ≤
      start [0, -1, 65, -98, 91, -92, 2147483647, 0] j := by decide
  exact binarySearchRanges_scan rfl (fun i j hij hj => hsorted j hj i hij) (by decide) (by decide) (by decide)

example : binarySearchRanges [0, -1, 65, -98, 91, -92, 2147483647, 0] 77 = some 109 := by decide

end Search

/-! ### Tables -/

/-- A table with its ranges. -/
structure CharTable where
  table : List ℕ
  ranges : List ℤ
  pairs : ℕ
  length_table : table.length = tableSize
  ranges_ok : Ranges ranges pairs
  first : start ranges 0 ≤ tableSize
  table_scalar : ∀ c ∈ table, Scalar c
  ranges_scalar : ∀ code i, Scalar code → RangeOf ranges pairs code i →
    ∃ c, rangeValue (start ranges i) (said ranges i) code = some c ∧ Scalar c

/-- What `prepare_search_character` and `remove_diacritics` do with their tables. -/
def CharTable.lookup (t : CharTable) (code : ℕ) : Option ℕ :=
  if code < tableSize then t.table[code]? else binarySearchRanges t.ranges code

/-- A scalar value gets a scalar value. -/
theorem CharTable.lookup_scalar (t : CharTable) {code : ℕ} (hcode : Scalar code) :
    ∃ c, t.lookup code = some c ∧ Scalar c := by
  unfold lookup
  by_cases hlt : code < tableSize
  · rw [if_pos hlt]
    rw [← t.length_table] at hlt
    exact ⟨_, List.getElem?_eq_getElem hlt, t.table_scalar _ (List.getElem_mem hlt)⟩
  · rw [if_neg hlt]
    have hle : code ≤ 0x10ffff := by
      unfold Scalar at hcode
      omega
    have hfirst := t.first
    obtain ⟨i, hi, heq⟩ := binarySearchRanges_eq t.ranges_ok hle (by omega)
    rw [heq]
    exact t.ranges_scalar code i hcode hi

/-- The tables behind the functions on characters. -/
structure UnicodeTables where
  prepareSearchCharacterTable : CharTable
  withoutDiacriticsTable : CharTable

def prepareSearchCharacter (T : UnicodeTables) (code : ℕ) : Option ℕ :=
  T.prepareSearchCharacterTable.lookup code

def removeDiacritics (T : UnicodeTables) (code : ℕ) : Option ℕ :=
  T.withoutDiacriticsTable.lookup code

/-- The table that keeps every character, as the generated tables keep the small letters. -/
def CharTable.identity : CharTable where
  table := List.range 1280
  ranges := [0, -1, 2147483647, 0]
  pairs := 2
  length_table := List.length_range
  ranges_ok := by
    refine ⟨rfl, Nat.le_refl 2, fun i j hij hj => ?_, by decide⟩
    obtain rfl : j = 1 := by omega
    obtain rfl : i = 0 := by omega
    decide
  first := by decide
  table_scalar := fun c hc => Or.inl (Nat.lt_trans (List.mem_range.mp hc) (by decide))
  ranges_scalar := by
    rintro code i hcode ⟨hi, hstart, -⟩
    have hlt : code < 0x110000 := by
      unfold Scalar at hcode
      omega
    obtain rfl : i = 0 := by
      rcases Nat.eq_zero_or_pos i with rfl | hpos
      · rfl
      · obtain rfl : i = 1 := by omega
        have hone : start [0, -1, 2147483647, 0] 1 = 2147483647 := rfl
        omega
    refine ⟨code, ?_, hcode⟩
    have hvalue : rangeValue 0 (-1) code = some ((code - 0 + (-(-1) - 1)) % 2 ^ 32 : ℤ).toNat := rfl
    rw [show start [0, -1, 2147483647, 0] 0 = 0 from rfl,
      show said [0, -1, 2147483647, 0] 0 = -1 from rfl, hvalue]
    congr 1
    omega

end TdUtils.Text
