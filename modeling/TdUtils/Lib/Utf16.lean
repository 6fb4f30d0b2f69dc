import TdUtils.Lib.Utf8

/-!
# Lib.Utf16 — the UTF-16 form of scalar values

`utf16 c` are the code units of a scalar value: itself, or a pair of surrogates.  A list of code units is well formed
when it is the UTF-16 form of something, which its first units decide.
-/

namespace TdUtils.Lib.Utf16

open Utf8

/-- The code units of a code below `0x110000`. -/
def utf16 (c : ℕ) : List UInt16 :=
  if c < 0x10000 then [UInt16.ofNat c]
  else [UInt16.ofNat (0xD800 + (c - 0x10000) / 1024), UInt16.ofNat (0xDC00 + (c - 0x10000) % 1024)]

/-- `u` is the UTF-16 form of the scalar values `cs`. -/
def Encodes (u : List UInt16) (cs : List ℕ) : Prop := u = cs.flatMap utf16 ∧ ∀ c ∈ cs, Scalar c

/-- A list of code units that is the UTF-16 form of something. -/
def WellFormed (u : List UInt16) : Prop := ∃ cs, Encodes u cs

/-- The first unit of a pair. -/
def Leads (a : UInt16) : Prop := 0xD800 ≤ a.toNat ∧ a.toNat < 0xDC00

/-- The second unit of a pair. -/
def Trails (a : UInt16) : Prop := 0xDC00 ≤ a.toNat ∧ a.toNat < 0xE000

/-- The scalar value of a pair. -/
def pairCode (a b : UInt16) : ℕ := 0x10000 + (a.toNat - 0xD800) * 1024 + (b.toNat - 0xDC00)

theorem toNat_ofNat {n : ℕ} (h : n < 65536) : (UInt16.ofNat n).toNat = n := by simp [h]

theorem ofNat_of_toNat {a : UInt16} {n : ℕ} (h : n = a.toNat) : UInt16.ofNat n = a := by
  rw [h, UInt16.ofNat_toNat]

section Forms

variable {a b : UInt16}

theorem scalar_toNat (hl : ¬Leads a) (ht : ¬Trails a) : Scalar a.toNat := by
  have hlt := a.toNat_lt
  unfold Leads at hl
  unfold Trails at ht
  unfold Scalar
  omega

theorem utf16_toNat (a : UInt16) : utf16 a.toNat = [a] := by
  unfold utf16
  rw [if_pos a.toNat_lt, UInt16.ofNat_toNat]

theorem pairCode_bounds (ha : Leads a) (hb : Trails b) : 0x10000 ≤ pairCode a b ∧ pairCode a b < 0x110000 := by
  unfold Leads at ha
  unfold Trails at hb
  unfold pairCode
  omega

theorem scalar_pairCode (ha : Leads a) (hb : Trails b) : Scalar (pairCode a b) := by
  have hcode := pairCode_bounds ha hb
  unfold Scalar
  omega

theorem utf16_pairCode (ha : Leads a) (hb : Trails b) : utf16 (pairCode a b) = [a, b] := by
  have hcode := pairCode_bounds ha hb
  unfold Leads at ha
  unfold Trails at hb
  unfold utf16
  rw [if_neg (by omega), ofNat_of_toNat (a := a) (by unfold pairCode; omega),
    ofNat_of_toNat (a := b) (by unfold pairCode; omega)]

/-- A scalar value is one unit that is no surrogate, or a pair. -/
theorem utf16_cases {c : ℕ} (hc : Scalar c) :
    (∃ a, ¬Leads a ∧ ¬Trails a ∧ c = a.toNat) ∨ ∃ a b, Leads a ∧ Trails b ∧ c = pairCode a b := by
  have hlt : c < 0x110000 := by
    unfold Scalar at hc
    omega
  unfold Scalar at hc
  by_cases h : c < 0x10000
  · left
    have hval : (UInt16.ofNat c).toNat = c := toNat_ofNat h
    refine ⟨UInt16.ofNat c, ?_, ?_, hval.symm⟩
    · unfold Leads
      omega
    · unfold Trails
      omega
  · right
    have ha : (UInt16.ofNat (0xD800 + (c - 0x10000) / 1024)).toNat = 0xD800 + (c - 0x10000) / 1024 :=
      toNat_ofNat (by omega)
    have hb : (UInt16.ofNat (0xDC00 + (c - 0x10000) % 1024)).toNat = 0xDC00 + (c - 0x10000) % 1024 :=
      toNat_ofNat (by omega)
    refine ⟨UInt16.ofNat (0xD800 + (c - 0x10000) / 1024), UInt16.ofNat (0xDC00 + (c - 0x10000) % 1024), ?_, ?_, ?_⟩
    · unfold Leads
      omega
    · unfold Trails
      omega
    · unfold pairCode
      omega

end Forms

/-! ### Well-formed lists by their first units -/

section First

variable {a b : UInt16} {u : List UInt16}

theorem wellFormed_nil : WellFormed [] := ⟨[], rfl, by simp⟩

theorem WellFormed.cons {c : ℕ} (hc : Scalar c) (h : WellFormed u) : WellFormed (utf16 c ++ u) := by
  obtain ⟨cs, rfl, hcs⟩ := h
  exact ⟨c :: cs, rfl, by simpa using ⟨hc, hcs⟩⟩

/-- A well-formed list that is not empty starts with a unit that is no surrogate, or with a pair. -/
theorem wellFormed_cons_iff : WellFormed (a :: u) ↔
    (¬Leads a ∧ ¬Trails a ∧ WellFormed u) ∨
      ∃ b v, u = b :: v ∧ Leads a ∧ Trails b ∧ WellFormed v := by
  constructor
  · rintro ⟨- | ⟨c, cs⟩, hu, hcs⟩
    · cases hu
    have hrest : ∀ d ∈ cs, Scalar d := fun d hd => hcs d (List.mem_cons_of_mem c hd)
    rw [List.flatMap_cons] at hu
    rcases utf16_cases (hcs c List.mem_cons_self) with ⟨x, hl, ht, hc⟩ | ⟨x, y, hl, ht, hc⟩
    · rw [hc, utf16_toNat] at hu
      obtain ⟨rfl, rfl⟩ := List.cons.inj hu
      exact .inl ⟨hl, ht, cs, rfl, hrest⟩
    · rw [hc, utf16_pairCode hl ht] at hu
      obtain ⟨rfl, rfl⟩ := List.cons.inj hu
      exact .inr ⟨y, _, rfl, hl, ht, cs, rfl, hrest⟩
  · rintro (⟨hl, ht, h⟩ | ⟨b, v, rfl, hl, ht, h⟩)
    · have := h.cons (scalar_toNat hl ht)
      rwa [utf16_toNat] at this
    · have := h.cons (scalar_pairCode hl ht)
      rwa [utf16_pairCode hl ht] at this

theorem wellFormed_unit (hl : ¬Leads a) (ht : ¬Trails a) : WellFormed (a :: u) ↔ WellFormed u := by
  simp [wellFormed_cons_iff, hl, ht]

theorem wellFormed_pair (hl : Leads a) (ht : Trails b) : WellFormed (a :: b :: u) ↔ WellFormed u := by
  simp [wellFormed_cons_iff, hl, ht]

end First

end TdUtils.Lib.Utf16
