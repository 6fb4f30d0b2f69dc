import TdUtils.Text.Utf8
import TdUtils.Tl.TlParser

/-!
# Tl.TlBufferParser — strings off a buffer are made valid UTF-8

`TlBufferParser` differs from `TlParser` in `fetch_string`: zeros become spaces, and a string that is not
UTF-8 loses its last character, or everything.
-/

namespace TdUtils.Tl.TlBufferParser

open Lib Utf8 Text TlParser

/-- The loop from `new_size` down. -/
def lastCharacter (result : List UInt8) : ℕ → ℕ
  | 0 => 0
  | newSize + 1 =>
    if isUtf8CharacterFirstCodeUnit (result.getD (newSize + 1) 0) then newSize + 1
    else lastCharacter result newSize

def spaced (result : List UInt8) : List UInt8 := result.map fun c => if c = 0 then 0x20 else c

/-- What `fetch_string` makes of the bytes of `TlParser::fetch_string`; none is the failed `CHECK`. -/
def repair (bytes : List UInt8) : Option (List UInt8) :=
  let result := spaced bytes
  if checkUtf8 result then some result
  else if result = [] then none
  else
    let newSize := lastCharacter result (result.length - 1)
    let result := result.take newSize
    if checkUtf8 result then some result else some []

def fetchString (p : TlParser) : Option (TlParser × List UInt8) := do
  let (p, bytes) ← p.fetchString
  return (p, ← repair bytes)

def step (p : TlParser) : Op → Option (TlParser × Answer)
  | .fetchString => (fetchString p).map fun r => (r.1, .string r.2)
  | op => TlParser.step p op

def machine : Machine TlParser Op Answer := ⟨step⟩

/-! ### The repair -/

variable {bytes whole result : List UInt8} {c : ℕ}

theorem zero_not_mem_spaced (bytes : List UInt8) : 0 ∉ spaced bytes := by
  intro h
  obtain ⟨b, -, hb⟩ := List.mem_map.mp h
  split_ifs at hb with hzero
  · cases hb
  · exact hzero hb

/-- The repair ends, with valid UTF-8 that has no zero. -/
theorem repair_valid (bytes : List UInt8) :
    ∃ result, repair bytes = some result ∧ Utf8.Valid result ∧ 0 ∉ result := by
  unfold repair
  dsimp only
  split_ifs with hcheck hempty hcut
  · exact ⟨_, rfl, (checkUtf8_iff _).mp hcheck, zero_not_mem_spaced bytes⟩
  · rw [hempty] at hcheck
    exact absurd ((checkUtf8_iff []).mpr valid_nil) hcheck
  · exact ⟨_, rfl, (checkUtf8_iff _).mp hcut,
      fun hmem => zero_not_mem_spaced bytes (List.mem_of_mem_take hmem)⟩
  · exact ⟨[], rfl, valid_nil, List.not_mem_nil⟩

theorem repair_of_valid (h : Utf8.Valid (spaced bytes)) : repair bytes = some (spaced bytes) :=
  if_pos ((checkUtf8_iff _).mpr h)

/-- The loop goes over continuation bytes down to the first byte of the last character. -/
theorem lastCharacter_eq (whole : List UInt8) (a : UInt8) (conts : List UInt8) (ha : ¬ Continues a)
    (hconts : ∀ b ∈ conts, Continues b) (j : ℕ) (hj : j ≤ conts.length) :
    lastCharacter (whole ++ a :: conts) (whole.length + j) = whole.length := by
  induction j with
  | zero =>
    rw [Nat.add_zero]
    cases hlen : whole.length with
    | zero => rfl
    | succ n =>
      have hget : (whole ++ a :: conts).getD (n + 1) 0 = a := by
        rw [← hlen, List.getD_append_right _ _ _ _ (Nat.le_refl _), Nat.sub_self]
        rfl
      unfold lastCharacter
      rw [hget, if_pos ((first_iff a).mpr ha)]
  | succ j ih =>
    have hget : (whole ++ a :: conts).getD (whole.length + j + 1) 0 = conts[j] := by
      rw [List.getD_append_right _ _ _ _ (by omega), List.getD_eq_getElem?_getD,
        show whole.length + j + 1 - whole.length = j + 1 by omega, List.getElem?_cons_succ,
        List.getElem?_eq_getElem (by omega), Option.getD_some]
    have hcont : ¬ isUtf8CharacterFirstCodeUnit conts[j] = true := by
      rw [first_iff]
      exact not_not.mpr (hconts _ (List.getElem_mem _))
    rw [← Nat.add_assoc, lastCharacter, hget, if_neg hcont]
    exact ih (by omega)

/-- A part of a character is not valid. -/
theorem not_valid_part {k : ℕ} (hc : Scalar c) (hk : 0 < k) (hlt : k < (utf8 c).length) :
    ¬ Utf8.Valid ((utf8 c).take k) := by
  intro hvalid
  rcases valid_iff_front.mp hvalid with hnil | ⟨c', rest, hfront, -⟩
  · rw [List.take_eq_nil_iff] at hnil
    exact hnil.elim (fun h => by omega) (utf8_ne_nil c)
  · obtain ⟨hpart, hc'⟩ := eq_of_front hfront
    have hwhole : utf8 c = utf8 c' ++ (rest ++ (utf8 c).drop k) := by
      rw [← List.append_assoc, ← hpart, List.take_append_drop]
    have hsame := front_utf8 hc' (rest ++ (utf8 c).drop k)
    rw [← hwhole, ← List.append_nil (utf8 c), front_utf8 hc] at hsame
    have hnil := (List.append_eq_nil_iff.mp (Prod.mk.inj (Option.some.inj hsame)).2.symm).2
    rw [List.append_nil, List.drop_eq_nil_iff] at hnil
    omega

/-- A string that was cut inside a character loses the part of it. -/
theorem repair_of_cut (hwhole : Utf8.Valid whole) (hc : Scalar c) {k : ℕ} (hk : 0 < k)
    (hlt : k < (utf8 c).length) (h : spaced bytes = whole ++ (utf8 c).take k) :
    repair bytes = some whole := by
  have hlt' : c < 0x200000 := by
    unfold Scalar at hc
    omega
  have hhead := not_continues_head hlt' []
  have htail := continues_tail c
  rw [List.append_nil] at hhead
  obtain ⟨a, conts, hu⟩ := List.exists_cons_of_ne_nil (utf8_ne_nil c)
  obtain ⟨n, rfl⟩ := Nat.exists_eq_succ_of_ne_zero hk.ne'
  rw [hu, List.length_cons] at hlt
  have hpart : (utf8 c).take (n + 1) = a :: conts.take n := by rw [hu, List.take_succ_cons]
  have ha : ¬ Continues a := hhead a (by rw [hu]; rfl)
  have hconts : ∀ b ∈ conts.take n, Continues b := fun b hb =>
    htail b (by rw [hu]; exact List.mem_of_mem_take hb)
  have hvalid : ¬ Utf8.Valid (spaced bytes) := by
    rw [h, valid_append (by rw [hpart]; simpa using ha)]
    exact fun hboth => not_valid_part hc hk (by rw [hu]; exact hlt) hboth.2
  have hsize : (spaced bytes).length - 1 = whole.length + (conts.take n).length := by
    rw [h, hpart, List.length_append, List.length_cons]
    omega
  have hlast := lastCharacter_eq whole a (conts.take n) ha hconts _ (Nat.le_refl _)
  have hne : spaced bytes ≠ [] := by
    rw [h, hpart]
    simp
  unfold repair
  dsimp only
  rw [if_neg fun hcheck => hvalid ((checkUtf8_iff _).mp hcheck), if_neg hne, hsize, h, hpart, hlast,
    List.take_left, if_pos ((checkUtf8_iff _).mpr hwhole)]

/-! ### The parser -/

theorem step_valid {input : List UInt8} {p : TlParser} (hlen : input.length < sizeMax)
    (h : TlParser.Valid input p) (op : Op) :
    ∃ q a, step p op = some (q, a) ∧ TlParser.Valid input q ∧ True := by
  obtain ⟨q, a, hstep, hq, -⟩ := TlParser.step_valid hlen h op
  cases op
  case fetchString =>
    obtain ⟨⟨p', bytes⟩, hfetch, hpair⟩ := Option.map_eq_some_iff.mp hstep
    obtain ⟨rfl, -⟩ := Prod.mk.inj hpair
    obtain ⟨result, hrepair, -⟩ := repair_valid bytes
    refine ⟨p', .string result, ?_, hq, trivial⟩
    unfold step fetchString
    rw [hfetch]
    simp [hrepair]
  all_goals exact ⟨q, a, hstep, hq, trivial⟩

/-- After every run of the parser `fetch_string` answers valid UTF-8 without zeros: the bytes with zeros
made spaces where these are valid, and their whole characters where they were cut inside one. -/
theorem fetchString_utf8 (isAligned : Bool) (slice : Slice) (ops : List Op) :
    ∃ p₀ p answers p' bytes result, ofSlice isAligned slice.bytes = some p₀ ∧
      machine.run p₀ ops = some (p, answers) ∧ p.fetchString = some (p', bytes) ∧
      fetchString p = some (p', result) ∧ Utf8.Valid result ∧ 0 ∉ result ∧
      (Utf8.Valid (spaced bytes) → result = spaced bytes) ∧
      ∀ whole c k, Utf8.Valid whole → Scalar c → 0 < k → k < (utf8 c).length →
        spaced bytes = whole ++ (utf8 c).take k → result = whole := by
  have hlen : slice.bytes.length < sizeMax := by
    have hlt := slice.size_lt
    unfold sizeMax
    omega
  obtain ⟨p, answers, hrun, hp, -⟩ := Machine.run_total (M := machine)
    (P := TlParser.Valid slice.bytes) (Q := fun _ => True) (fun p op hp => step_valid hlen hp op)
    ops _ (Or.inl ⟨0, slice.bytes.length, rfl, Nat.zero_add _⟩)
  obtain ⟨q, a, hstep, -⟩ := TlParser.step_valid hlen hp .fetchString
  obtain ⟨⟨p', bytes⟩, hfetch, -⟩ := Option.map_eq_some_iff.mp hstep
  obtain ⟨result, hrepair, hvalid, hzero⟩ := repair_valid bytes
  refine ⟨_, p, answers, p', bytes, result, ofSlice_eq isAligned slice.bytes, hrun, hfetch, ?_, hvalid,
    hzero, ?_, ?_⟩
  · unfold fetchString
    rw [hfetch]
    simp [hrepair]
  · intro hspaced
    exact Option.some.inj (hrepair.symm.trans (repair_of_valid hspaced))
  · intro whole c k hwhole hc hk hlt hcut
    exact Option.some.inj (hrepair.symm.trans (repair_of_cut hwhole hc hk hlt hcut))

/-- The euro sign loses its last byte. -/
example : repair [0x61, 0, 0xe2, 0x82] = some [0x61, 0x20] := by decide

end TdUtils.Tl.TlBufferParser
