import Mathlib.Data.Int.ConditionallyCompleteOrder
import TdUtils.Text.ToInteger

/-!
# Num.RandomRange — random integers in a range

`Random::fast` and the two members of `Xorshift128plus` reduce an unsigned draw by `max - min + 1`, which is computed in
the signed type: the width of a range of more than half the values of the type is no value of it.  Signed arithmetic
fails when it overflows, unsigned arithmetic wraps around.
-/

namespace TdUtils.Random

open Text

/-- `int`. -/
def int : IntType := ⟨.int, true⟩

/-- `int64`. -/
def int64 : IntType := ⟨.longLong, true⟩

inductive Fault
  | check
  | overflow
  | division
deriving DecidableEq

/-! ### Arithmetic of a type -/

/-- The result of an operation in a signed type. -/
def inType (T : IntType) (x : ℤ) : Except Fault ℤ := if T.InRange x then .ok x else .error .overflow

/-- `max - min + 1`. -/
def rangeWidth (T : IntType) (min max : ℤ) : Except Fault ℤ := do inType T ((← inType T (max - min)) + 1)

/-- `draw % width` for an unsigned draw of so many bits, to whose type the width is converted. -/
def remainder (bits draw : ℕ) (width : ℤ) : Except Fault ℕ :=
  let width := (width % 2 ^ bits).toNat
  if width = 0 then .error .division else .ok (draw % width)

/-! ### The functions -/

/-- `Random::fast`, with the output of the generator. -/
def fast (fastUint32 : BitVec 32) (min max : int.Value) : Except Fault int.Value := do
  -- to prevent integer overflow and division by zero
  let min ← if min.val = int.min ∧ max.val = int.max then inType int (min.val + 1) else pure min.val
  if ¬min ≤ max.val then throw .check
  let r ← remainder 32 fastUint32.toNat (← rangeWidth int min max.val)
  return int.cast ((min + r) % 2 ^ 32)

structure Xorshift128plus where
  seed0 : BitVec 64
  seed1 : BitVec 64
deriving DecidableEq

namespace Xorshift128plus

/-- `operator()`. -/
def next (g : Xorshift128plus) : BitVec 64 × Xorshift128plus :=
  let x := g.seed0
  let y := g.seed1
  let x := x ^^^ x <<< 23
  let seed1 := x ^^^ y ^^^ x >>> 17 ^^^ y >>> 26
  (seed1 + y, ⟨y, seed1⟩)

/-- `static_cast<T>((*this)() % (max - min + 1) + min)`. -/
def fastIn (T : IntType) (g : Xorshift128plus) (min max : T.Value) : Except Fault (T.Value × Xorshift128plus) := do
  let r ← remainder 64 g.next.1.toNat (← rangeWidth T min.val max.val)
  return (T.cast ((r + min.val) % 2 ^ 64), g.next.2)

def fast (g : Xorshift128plus) (min max : int.Value) : Except Fault (int.Value × Xorshift128plus) :=
  fastIn int g min max

def fast64 (g : Xorshift128plus) (min max : int64.Value) : Except Fault (int64.Value × Xorshift128plus) :=
  fastIn int64 g min max

end Xorshift128plus

/-! ### The width -/

section Width

variable {T : IntType} {min max : T.Value}

theorem inType_eq {x : ℤ} (h : T.InRange x) : inType T x = .ok x := if_pos h

/-- The width of a range is computed when it is a value of the type. -/
theorem rangeWidth_eq (hneg : T.min ≤ 0) (hle : min.val ≤ max.val) (h : max.val - min.val < T.max) :
    rangeWidth T min.val max.val = .ok (max.val - min.val + 1) := by
  have hdiff : T.InRange (max.val - min.val) := ⟨by omega, by omega⟩
  have hwidth : T.InRange (max.val - min.val + 1) := ⟨by omega, by omega⟩
  simp only [rangeWidth, inType_eq hdiff]
  exact inType_eq hwidth

theorem rangeWidth_overflow (h : ¬max.val - min.val < T.max) :
    rangeWidth T min.val max.val = .error .overflow := by
  unfold rangeWidth inType
  by_cases hdiff : T.InRange (max.val - min.val)
  · have hwidth : ¬T.InRange (max.val - min.val + 1) := fun hw => h (by have := hw.2; omega)
    rw [if_pos hdiff]
    exact if_neg hwidth
  · rw [if_neg hdiff]
    rfl

theorem remainder_eq (bits : ℕ) {width : ℤ} (hpos : 0 < width) (hlt : width < 2 ^ bits) (draw : ℕ) :
    remainder bits draw width = .ok (draw % width.toNat) := by
  have hwidth : width % 2 ^ bits = width := Int.emod_eq_of_lt (by omega) hlt
  unfold remainder
  rw [hwidth, if_neg (by omega)]

/-- A sum that is in the range of the type comes through the unsigned type unchanged. -/
theorem cast_sum {bits : ℕ} {x : ℤ} (hbits : T.width.bits ≤ bits) (hx : T.InRange x) :
    (T.cast (x % 2 ^ bits)).val = x := by
  have hmod : x % 2 ^ bits ≡ x [ZMOD 2 ^ T.width.bits] :=
    (Int.mod_modEq x (2 ^ bits)).of_dvd (pow_dvd_pow 2 hbits)
  exact IntType.eq_of_modEq (T.wrap_inRange _) hx ((T.wrap_modEq _).trans hmod)

end Width

/-! ### The ranges that work -/

section Ranges

variable {T : IntType} {min max : T.Value}

/-- A remainder of the width, counted from the minimum on, is in the range. -/
theorem cast_remainder {bits width : ℕ} (hbits : T.width.bits ≤ bits) (hpos : 0 < width)
    (hwidth : (width : ℤ) = max.val - min.val + 1) (draw : ℕ) :
    T.cast ((min.val + (draw % width : ℕ)) % 2 ^ bits) ∈ Set.Icc min max := by
  have hlt : draw % width < width := Nat.mod_lt draw hpos
  have hmin := min.property.1
  have hmax := max.property.2
  have hsum : T.InRange (min.val + (draw % width : ℕ)) := ⟨by omega, by omega⟩
  have hval := cast_sum hbits hsum
  constructor <;> rw [← Subtype.coe_le_coe, hval] <;> omega

theorem Xorshift128plus.fastIn_iff (hneg : T.min ≤ 0) (hbits : T.width.bits ≤ 64) (hmax : T.max + 1 < 2 ^ 64)
    (g : Xorshift128plus) (hle : min ≤ max) :
    (∃ x, g.fastIn T min max = .ok (x, g.next.2) ∧ x ∈ Set.Icc min max) ↔ max.val - min.val < T.max := by
  have hle' : min.val ≤ max.val := hle
  unfold Xorshift128plus.fastIn
  constructor
  · rintro ⟨x, hx, -⟩
    by_contra h
    rw [rangeWidth_overflow h] at hx
    cases hx
  · intro h
    have hrem := remainder_eq 64 (show 0 < max.val - min.val + 1 by omega) (by omega) g.next.1.toNat
    have hmem : T.cast ((min.val + (g.next.1.toNat % (max.val - min.val + 1).toNat : ℕ)) % 2 ^ 64) ∈ Set.Icc min max :=
      cast_remainder hbits (by omega) (by omega) g.next.1.toNat
    rw [Int.add_comm min.val] at hmem
    rw [rangeWidth_eq hneg hle' h]
    refine ⟨_, ?_, hmem⟩
    change (remainder 64 g.next.1.toNat (max.val - min.val + 1) >>= _) = _
    rw [hrem]
    rfl

end Ranges

section Fast

variable {min max : int.Value}

/-- The widest range overflows, also without its minimum. -/
theorem fast_widest (h : min.val = int.min ∧ max.val = int.max) (draw : BitVec 32) :
    fast draw min max = .error .overflow := by
  obtain ⟨hmin, hmax⟩ := h
  unfold fast
  rw [hmin, hmax]
  rfl

theorem fast_iff (hle : min ≤ max) (draw : BitVec 32) :
    (∃ x, fast draw min max = .ok x ∧ x ∈ Set.Icc min max) ↔ max.val - min.val < int.max := by
  have hle' : min.val ≤ max.val := hle
  by_cases hwide : min.val = int.min ∧ max.val = int.max
  · refine ⟨?_, fun h => ?_⟩
    · rintro ⟨x, hx, -⟩
      rw [fast_widest hwide] at hx
      cases hx
    · rw [hwide.1, hwide.2] at h
      exact absurd h (by decide)
  · unfold fast
    rw [if_neg hwide]
    constructor
    · rintro ⟨x, hx, -⟩
      by_contra h
      simp only [pure_bind, not_not.mpr hle', if_false, rangeWidth_overflow h] at hx
      cases hx
    · intro h
      have hmax : int.max = 2 ^ 31 - 1 := rfl
      have hrem := remainder_eq 32 (show 0 < max.val - min.val + 1 by omega) (by omega) draw.toNat
      have hmem : int.cast ((min.val + (draw.toNat % (max.val - min.val + 1).toNat : ℕ)) % 2 ^ 32) ∈ Set.Icc min max :=
        cast_remainder (by decide) (by omega) (by omega) draw.toNat
      refine ⟨_, ?_, hmem⟩
      simp only [pure_bind, not_not.mpr hle', if_false, rangeWidth_eq (by decide) hle' h]
      change (remainder 32 draw.toNat (max.val - min.val + 1) >>= _) = _
      rw [hrem]
      rfl

end Fast

/-- **Random integers.**  For a range from `min` to `max`, whatever the generator draws, each of the functions answers a
value of the range, without an overflow or a division by zero, if and only if the difference of `max` and `min` is less
than the maximum of the type. -/
theorem fast_inRange (draw : BitVec 32) (g : Xorshift128plus) :
    (∀ min max : int.Value, min ≤ max →
      ((∃ x, fast draw min max = .ok x ∧ x ∈ Set.Icc min max) ↔ max.val - min.val < int.max)) ∧
    (∀ min max : int.Value, min ≤ max →
      ((∃ x, g.fast min max = .ok (x, g.next.2) ∧ x ∈ Set.Icc min max) ↔ max.val - min.val < int.max)) ∧
    (∀ min max : int64.Value, min ≤ max →
      ((∃ x, g.fast64 min max = .ok (x, g.next.2) ∧ x ∈ Set.Icc min max) ↔ max.val - min.val < int64.max)) :=
  ⟨fun _ _ hle => fast_iff hle draw,
    fun _ _ hle => g.fastIn_iff (by decide) (by decide) (by decide) hle,
    fun _ _ hle => g.fastIn_iff (by decide) (by decide) (by decide) hle⟩

theorem fast_inRange_sixteen :
    (∃ x, fast 1000 ⟨17, by decide⟩ ⟨32, by decide⟩ = .ok x ∧ 17 ≤ x.val ∧ x.val ≤ 32) ∧
    (∃ x, (Xorshift128plus.mk 1 2).fast ⟨-7, by decide⟩ ⟨8, by decide⟩ =
      .ok (x, (Xorshift128plus.mk 1 2).next.2) ∧ -7 ≤ x.val ∧ x.val ≤ 8) ∧
    (∃ x, (Xorshift128plus.mk 1 2).fast64 ⟨-7, by decide⟩ ⟨8, by decide⟩ =
      .ok (x, (Xorshift128plus.mk 1 2).next.2) ∧ -7 ≤ x.val ∧ x.val ≤ 8) :=
  ⟨((fast_inRange 1000 ⟨1, 2⟩).1 _ _ (by decide)).mpr (by decide),
    ((fast_inRange 1000 ⟨1, 2⟩).2.1 _ _ (by decide)).mpr (by decide),
    ((fast_inRange 1000 ⟨1, 2⟩).2.2 _ _ (by decide)).mpr (by decide)⟩

/-- From `-1` to the maximum all three overflow, whatever is drawn. -/
theorem wide_ranges_overflow :
    ¬((∀ min max : int.Value, min ≤ max → ∀ draw, ∃ x, fast draw min max = .ok x ∧ x ∈ Set.Icc min max) ∨
      (∀ min max : int.Value, min ≤ max → ∀ g : Xorshift128plus,
        ∃ x, g.fast min max = .ok (x, g.next.2) ∧ x ∈ Set.Icc min max) ∨
      (∀ min max : int64.Value, min ≤ max → ∀ g : Xorshift128plus,
        ∃ x, g.fast64 min max = .ok (x, g.next.2) ∧ x ∈ Set.Icc min max)) := by
  rintro (h | h | h)
  · obtain ⟨x, hx, -⟩ := h ⟨-1, by decide⟩ ⟨int.max, by decide⟩ (by decide) 0
    cases hx
  · obtain ⟨x, hx, -⟩ := h ⟨-1, by decide⟩ ⟨int.max, by decide⟩ (by decide) ⟨0, 0⟩
    cases hx
  · obtain ⟨x, hx, -⟩ := h ⟨-1, by decide⟩ ⟨int64.max, by decide⟩ (by decide) ⟨0, 0⟩
    cases hx

end TdUtils.Random
