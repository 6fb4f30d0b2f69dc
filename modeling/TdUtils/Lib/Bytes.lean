import Mathlib.Data.List.Basic

/-!
# Lib.Bytes — ASCII characters as bytes
-/

namespace TdUtils.Lib.Bytes

/-- The byte of an ASCII character. -/
def ch (c : Char) : UInt8 := UInt8.ofNat c.toNat

/-- The bytes of ASCII characters. -/
def chs (cs : List Char) : List UInt8 := cs.map ch

/-- A byte as a text of one character. -/
def toText (b : UInt8) : String := String.singleton (Char.ofNat b.toNat)

/-- A statement about all bytes is one about 256 numbers. -/
theorem forall_of_fin {p : UInt8 → Prop} (h : ∀ n : Fin 256, p (UInt8.ofNat n)) (c : UInt8) : p c := by
  have hc := h ⟨c.toNat, c.toNat_lt⟩
  rwa [UInt8.ofNat_toNat] at hc

/-- A statement about the bytes of a list is decided on the list, not on all bytes. -/
instance (priority := 2000) decidableForallMem (s : List UInt8) (p : UInt8 → Prop)
    [DecidablePred p] : Decidable (∀ c ∈ s, p c) := List.decidableBAll p s

end TdUtils.Lib.Bytes
