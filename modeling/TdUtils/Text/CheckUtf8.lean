import TdUtils.Text.Utf8

/-!
# Text.CheckUtf8 — `check_utf8` reads no byte behind the terminating zero

A byte is read only after one that is not ASCII, and the last byte of a C string is its zero.
-/

namespace TdUtils.Text

open Lib Utf8

/-- The last byte is ASCII, as the zero of a C string is. -/
def Terminated (s : List UInt8) : Prop := ∃ z ∈ s.getLast?, z.toNat &&& 0x80 = 0

theorem not_terminated_nil : ¬ Terminated [] := by
  rintro ⟨z, hz, -⟩
  cases hz

theorem Terminated.tail {a : UInt8} {data : List UInt8} (h : Terminated (a :: data))
    (ha : a.toNat &&& 0x80 ≠ 0 ∨ data ≠ []) : Terminated data := by
  obtain ⟨z, hz, hzero⟩ := h
  rcases data with - | ⟨b, data⟩
  · obtain rfl : a = z := by simpa using hz
    exact absurd hzero (ha.resolve_right (by simp))
  · exact ⟨z, by simpa using hz, hzero⟩

/-- A continuation byte is not the last one. -/
theorem Terminated.continued {b : UInt8} {data : List UInt8} (h : Terminated (b :: data))
    (hb : b.toNat &&& 0xc0 = 0x80) : Terminated data := by
  apply h.tail
  left
  rw [and_c0] at hb
  rw [and_80]
  omega

/-- No round reads behind the zero. -/
theorem checkUtf8From_returns (s : List UInt8) (h : Terminated s) :
    ∃ accepted, checkUtf8From s = some accepted := by
  induction hn : s.length using Nat.strong_induction_on generalizing s with
  | _ n ih =>
    rcases s with - | ⟨a, data⟩
    · exact absurd h not_terminated_nil
    rw [checkUtf8From.eq_def]
    rw [List.length_cons] at hn
    dsimp only
    by_cases h80 : a.toNat &&& 0x80 = 0
    · rw [if_pos h80]
      by_cases hdata : data = []
      · rw [if_pos hdata]
        exact ⟨_, rfl⟩
      · rw [if_neg hdata]
        exact ih _ (by omega) data (h.tail (Or.inr hdata)) rfl
    rw [if_neg h80]
    by_cases h40 : a.toNat &&& 0x40 = 0
    · rw [if_pos h40]
      exact ⟨_, rfl⟩
    rw [if_neg h40]
    have hdata := h.tail (Or.inl h80)
    rcases data with - | ⟨b, data⟩
    · exact absurd hdata not_terminated_nil
    rw [List.length_cons] at hn
    dsimp only
    by_cases hb : b.toNat &&& 0xc0 ≠ 0x80
    · rw [if_pos hb]
      exact ⟨_, rfl⟩
    rw [if_neg hb]
    have hb' := hdata.continued (not_not.mp hb)
    by_cases h20 : a.toNat &&& 0x20 = 0
    · rw [if_pos h20]
      by_cases h1e : a.toNat &&& 0x1e > 0
      · rw [if_pos h1e]
        exact ih _ (by omega) data hb' rfl
      · rw [if_neg h1e]
        exact ⟨_, rfl⟩
    rw [if_neg h20]
    rcases data with - | ⟨c, data⟩
    · exact absurd hb' not_terminated_nil
    rw [List.length_cons] at hn
    dsimp only
    by_cases hc : c.toNat &&& 0xc0 ≠ 0x80
    · rw [if_pos hc]
      exact ⟨_, rfl⟩
    rw [if_neg hc]
    have hc' := hb'.continued (not_not.mp hc)
    by_cases h10 : a.toNat &&& 0x10 = 0
    · rw [if_pos h10]
      split_ifs
      · exact ih _ (by omega) data hc' rfl
      · exact ⟨_, rfl⟩
    rw [if_neg h10]
    rcases data with - | ⟨d, data⟩
    · exact absurd hc' not_terminated_nil
    rw [List.length_cons] at hn
    dsimp only
    by_cases hd : d.toNat &&& 0xc0 ≠ 0x80
    · rw [if_pos hd]
      exact ⟨_, rfl⟩
    rw [if_neg hd]
    by_cases h08 : a.toNat &&& 0x08 = 0
    · rw [if_pos h08]
      split_ifs
      · exact ih _ (by omega) data (hc'.continued (not_not.mp hd)) rfl
      · exact ⟨_, rfl⟩
    · rw [if_neg h08]
      exact ⟨_, rfl⟩

/-- A C string is accepted just when it is the UTF-8 form of scalar values, and nothing behind its zero is
read. -/
theorem checkUtf8From_iff (str : List UInt8) : ∃ accepted,
    checkUtf8From (str ++ [0]) = some accepted ∧
      (accepted = true ↔ ∃ cs : List ℕ, str = cs.flatMap utf8 ∧ ∀ c ∈ cs, Scalar c) := by
  have hterminated : Terminated (str ++ [0]) := ⟨0, by simp, rfl⟩
  obtain ⟨accepted, hrun⟩ := checkUtf8From_returns _ hterminated
  have haccepted : checkUtf8 str = accepted := by rw [checkUtf8, accepts, hrun, Option.getD_some]
  exact ⟨accepted, hrun, by rw [← haccepted]; exact checkUtf8_iff str⟩

/-- A character that is cut is refused at the zero behind it. -/
example : checkUtf8From [0xe2, 0x82, 0] = some false := by decide

end TdUtils.Text
