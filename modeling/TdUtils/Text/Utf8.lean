import TdUtils.Lib.Bits
import TdUtils.Lib.Utf8

/-!
# Text.Utf8 — the functions on UTF-8 strings

`check_utf8` walks over a C string: its loop reads the zero behind the string, too, and stops there.
It accepts the strings that are the UTF-8 form of something.  `next_utf8_unsafe` takes a character
off such a string, and `append_utf8_character` puts one behind it.
-/

namespace TdUtils.Text

open Lib Utf8

/-- The loop of `check_utf8` on the bytes from `data` to the zero behind the string; none is a read behind
that zero. -/
def checkUtf8From : List UInt8 → Option Bool
  | [] => none
  | a :: data =>
    let a := a.toNat
    if a &&& 0x80 = 0 then
      if data = [] then some true  -- data == data_end + 1
      else checkUtf8From data
    else if a &&& 0x40 = 0 then some false
    else match data with
      | [] => none
      | b :: data =>
        let b := b.toNat
        if b &&& 0xc0 ≠ 0x80 then some false
        else if a &&& 0x20 = 0 then
          if a &&& 0x1e > 0 then checkUtf8From data else some false
        else match data with
          | [] => none
          | c :: data =>
            let c := c.toNat
            if c &&& 0xc0 ≠ 0x80 then some false
            else if a &&& 0x10 = 0 then
              let x := (a &&& 0x0f) <<< 6 ||| (b &&& 0x20)
              if x ≠ 0 ∧ x ≠ 0x360 then checkUtf8From data else some false
            else match data with
              | [] => none
              | d :: data =>
                let d := d.toNat
                if d &&& 0xc0 ≠ 0x80 then some false
                else if a &&& 0x08 = 0 then
                  let t := (a &&& 0x07) <<< 6 ||| (b &&& 0x30)
                  if 0 < t ∧ t < 0x110 then checkUtf8From data else some false
                else some false

/-- The loop is left with `true`. -/
def accepts (s : List UInt8) : Bool := (checkUtf8From s).getD false

def checkUtf8 (str : List UInt8) : Bool := accepts (str ++ [0])

/-! ### The masks -/

section Masks

variable (n : ℕ)

theorem and_80 : n &&& 0x80 = n / 128 % 2 * 128 := Bits.and_mask n 7 1
theorem and_40 : n &&& 0x40 = n / 64 % 2 * 64 := Bits.and_mask n 6 1
theorem and_20 : n &&& 0x20 = n / 32 % 2 * 32 := Bits.and_mask n 5 1
theorem and_10 : n &&& 0x10 = n / 16 % 2 * 16 := Bits.and_mask n 4 1
theorem and_08 : n &&& 0x08 = n / 8 % 2 * 8 := Bits.and_mask n 3 1
theorem and_c0 : n &&& 0xc0 = n / 64 % 4 * 64 := Bits.and_mask n 6 2
theorem and_1e : n &&& 0x1e = n / 2 % 16 * 2 := Bits.and_mask n 1 4
theorem and_30 : n &&& 0x30 = n / 16 % 4 * 16 := Bits.and_mask n 4 2
theorem and_0f : n &&& 0x0f = n % 16 := Bits.and_low n 4
theorem and_07 : n &&& 0x07 = n % 8 := Bits.and_low n 3
theorem and_1f : n &&& 0x1f = n % 32 := Bits.and_low n 5
theorem and_3f : n &&& 0x3f = n % 64 := Bits.and_low n 6

theorem shl_6 {x y : ℕ} (h : y < 64) : x <<< 6 ||| y = x * 64 + y := Bits.shiftLeft_or h

end Masks

/-! ### The codes of the forms with several bytes -/

theorem code_two (a b : ℕ) : (a &&& 0x1f) <<< 6 ||| (b &&& 0x3f) = a % 32 * 64 + b % 64 := by
  rw [and_1f, and_3f, shl_6 (Nat.mod_lt _ (by omega))]

theorem shl_12 {x y z : ℕ} (hy : y < 64) (hz : z < 64) :
    x <<< 12 ||| y <<< 6 ||| z = x * 4096 + y * 64 + z := by
  have h1 : x <<< 12 ||| y <<< 6 = (x <<< 6 ||| y) <<< 6 := by
    rw [Nat.shiftLeft_or_distrib, ← Nat.shiftLeft_add]
  rw [h1, shl_6 hz, shl_6 hy]
  omega

theorem code_three (a b c : ℕ) :
    (a &&& 0x0f) <<< 12 ||| (b &&& 0x3f) <<< 6 ||| (c &&& 0x3f) =
      a % 16 * 4096 + b % 64 * 64 + c % 64 := by
  rw [and_0f, and_3f, and_3f, shl_12 (Nat.mod_lt _ (by omega)) (Nat.mod_lt _ (by omega))]

theorem code_four (a b c d : ℕ) :
    (a &&& 0x07) <<< 18 ||| (b &&& 0x3f) <<< 12 ||| (c &&& 0x3f) <<< 6 ||| (d &&& 0x3f) =
      a % 8 * 262144 + b % 64 * 4096 + c % 64 * 64 + d % 64 := by
  have h1 : (a &&& 0x07) <<< 18 ||| (b &&& 0x3f) <<< 12 ||| (c &&& 0x3f) <<< 6 =
      ((a &&& 0x07) <<< 12 ||| (b &&& 0x3f) <<< 6 ||| (c &&& 0x3f)) <<< 6 := by
    rw [Nat.shiftLeft_or_distrib, Nat.shiftLeft_or_distrib, ← Nat.shiftLeft_add,
      ← Nat.shiftLeft_add]
  rw [h1, and_07, and_3f, and_3f, and_3f, shl_6 (Nat.mod_lt _ (by omega)),
    shl_12 (Nat.mod_lt _ (by omega)) (Nat.mod_lt _ (by omega))]
  omega

/-- The third and the fourth mask test of the checker, as conditions on the code. -/
theorem three_iff {a b : ℕ} (ha : a / 16 = 14) (hb : b / 64 = 2) (c : ℕ) :
    ((a &&& 0x0f) <<< 6 ||| (b &&& 0x20) ≠ 0 ∧ (a &&& 0x0f) <<< 6 ||| (b &&& 0x20) ≠ 0x360) ↔
      0x800 ≤ a % 16 * 4096 + b % 64 * 64 + c % 64 ∧
        Scalar (a % 16 * 4096 + b % 64 * 64 + c % 64) := by
  unfold Scalar
  rw [shl_6 (by rw [and_20]; omega), and_0f, and_20]
  omega

theorem four_iff {a b : ℕ} (ha : a / 8 = 30) (hb : b / 64 = 2) (c d : ℕ) :
    (0 < (a &&& 0x07) <<< 6 ||| (b &&& 0x30) ∧ (a &&& 0x07) <<< 6 ||| (b &&& 0x30) < 0x110) ↔
      0x10000 ≤ a % 8 * 262144 + b % 64 * 4096 + c % 64 * 64 + d % 64 ∧
        Scalar (a % 8 * 262144 + b % 64 * 4096 + c % 64 * 64 + d % 64) := by
  unfold Scalar
  rw [shl_6 (by rw [and_30]; omega), and_07, and_30]
  omega

/-! ### The bits of a first byte -/

theorem tail_mask (b : UInt8) : b.toNat &&& 0xc0 ≠ 0x80 ↔ ¬ b.toNat / 64 = 2 := by
  have hb := b.toNat_lt
  rw [and_c0]
  omega

section Lead

variable {a : ℕ}

theorem masks_ascii (h : a < 0x80) : a &&& 0x80 = 0 := by
  rw [and_80]
  omega

theorem masks_tail (h : a / 64 = 2) : a &&& 0x80 ≠ 0 ∧ a &&& 0x40 = 0 := by
  rw [and_80, and_40]
  omega

theorem masks_two (h : a / 32 = 6) : a &&& 0x80 ≠ 0 ∧ a &&& 0x40 ≠ 0 ∧ a &&& 0x20 = 0 := by
  rw [and_80, and_40, and_20]
  omega

theorem masks_three (h : a / 16 = 14) : a &&& 0x80 ≠ 0 ∧ a &&& 0x40 ≠ 0 ∧ a &&& 0x20 ≠ 0 ∧ a &&& 0x10 = 0 := by
  rw [and_80, and_40, and_20, and_10]
  omega

theorem masks_four (h : a / 8 = 30) :
    a &&& 0x80 ≠ 0 ∧ a &&& 0x40 ≠ 0 ∧ a &&& 0x20 ≠ 0 ∧ a &&& 0x10 ≠ 0 ∧ a &&& 0x08 = 0 := by
  rw [and_80, and_40, and_20, and_10, and_08]
  omega

theorem masks_other (ha : a < 256) (h1 : ¬ a < 0x80) (htail : ¬ a / 64 = 2) (h2 : ¬ a / 32 = 6) (h3 : ¬ a / 16 = 14)
    (h4 : ¬ a / 8 = 30) :
    a &&& 0x80 ≠ 0 ∧ a &&& 0x40 ≠ 0 ∧ a &&& 0x20 ≠ 0 ∧ a &&& 0x10 ≠ 0 ∧ a &&& 0x08 ≠ 0 := by
  have hhigh : a / 8 = 31 := by omega
  clear h1 htail h2 h3 h4
  rw [and_80, and_40, and_20, and_10, and_08]
  omega

theorem two_iff (h : a / 32 = 6) (b : ℕ) : a &&& 0x1e > 0 ↔ 0x80 ≤ a % 32 * 64 + b % 64 := by
  rw [and_1e]
  omega

end Lead

/-- One round of the loop takes one character. -/
theorem accepts_cons (a : UInt8) (data : List UInt8) : accepts (a :: data) =
    if a.toNat < 0x80 ∧ data = [] then true
    else match front (a :: data) with
      | none => false
      | some (_, rest) => accepts rest := by
  unfold accepts
  rw [checkUtf8From.eq_def]
  simp only [front, tail_mask]
  by_cases h1 : a.toNat < 0x80
  · rw [if_pos (masks_ascii h1)]
    by_cases hd : data = [] <;> simp [h1, hd]
  have hd : ¬ (a.toNat < 0x80 ∧ data = []) := fun h => h1 h.1
  rw [if_neg hd, if_neg h1]
  by_cases h2 : a.toNat / 32 = 6
  · obtain ⟨h80, h40, h20⟩ := masks_two h2
    rw [if_neg h80, if_neg h40, if_pos h2]
    rcases data with - | ⟨b, data⟩
    · rfl
    · simp only [h20, two_iff h2 b.toNat, if_true]
      by_cases hb : b.toNat / 64 = 2
      · by_cases hn : 0x80 ≤ a.toNat % 32 * 64 + b.toNat % 64 <;> simp [hb, hn]
      · simp [hb]
  rw [if_neg h2]
  by_cases h3 : a.toNat / 16 = 14
  · obtain ⟨h80, h40, h20, h10⟩ := masks_three h3
    rw [if_neg h80, if_neg h40, if_pos h3]
    rcases data with - | ⟨b, - | ⟨c, data⟩⟩
    · rfl
    · by_cases hb : b.toNat / 64 = 2 <;> simp [h20, hb]
    · simp only [h20, h10, if_true, if_false]
      by_cases hb : b.toNat / 64 = 2
      · by_cases hc : c.toNat / 64 = 2
        · simp only [three_iff h3 hb c.toNat, hb, hc, not_true, if_false, true_and]
          split_ifs <;> rfl
        · simp [hb, hc]
      · simp [hb]
  rw [if_neg h3]
  by_cases h4 : a.toNat / 8 = 30
  · obtain ⟨h80, h40, h20, h10, h08⟩ := masks_four h4
    rw [if_neg h80, if_neg h40, if_pos h4]
    rcases data with - | ⟨b, - | ⟨c, - | ⟨d, data⟩⟩⟩
    · rfl
    · by_cases hb : b.toNat / 64 = 2 <;> simp [h20, hb]
    · by_cases hb : b.toNat / 64 = 2
      · by_cases hc : c.toNat / 64 = 2 <;> simp [h20, h10, hb, hc]
      · simp [hb]
    · simp only [h20, h10, h08, if_true, if_false]
      by_cases hb : b.toNat / 64 = 2
      · by_cases hc : c.toNat / 64 = 2
        · by_cases hd : d.toNat / 64 = 2
          · simp only [four_iff h4 hb c.toNat d.toNat, hb, hc, hd, not_true, if_false, true_and]
            split_ifs <;> rfl
          · simp [hb, hc, hd]
        · simp [hb, hc]
      · simp [hb]
  rw [if_neg h4]
  by_cases htail : a.toNat / 64 = 2
  · obtain ⟨h80, h40⟩ := masks_tail htail
    rw [if_neg h80, if_pos h40]
    rfl
  · obtain ⟨h80, h40, h20, h10, h08⟩ := masks_other a.toNat_lt h1 htail h2 h3 h4
    rw [if_neg h80, if_neg h40]
    rcases data with - | ⟨b, - | ⟨c, - | ⟨d, data⟩⟩⟩
    · rfl
    · by_cases hb : b.toNat / 64 = 2 <;> simp [h20, hb]
    · by_cases hb : b.toNat / 64 = 2
      · by_cases hc : c.toNat / 64 = 2 <;> simp [h20, h10, hb, hc]
      · simp [hb]
    · by_cases hb : b.toNat / 64 = 2
      · by_cases hc : c.toNat / 64 = 2
        · by_cases hd : d.toNat / 64 = 2 <;> simp [h20, h10, h08, hb, hc, hd]
        · simp [h20, hb, hc]
      · simp [hb]

/-- The loop accepts the valid strings followed by the zero, or by any other ASCII byte. -/
theorem accepts_iff (s : List UInt8) : accepts s = true ↔
    ∃ (str : List UInt8) (z : UInt8), s = str ++ [z] ∧ z.toNat < 0x80 ∧ Valid str := by
  constructor
  · intro h
    induction hn : s.length using Nat.strong_induction_on generalizing s with
    | _ n ih =>
      rcases s with - | ⟨a, data⟩
      · cases h
      rw [accepts_cons] at h
      split_ifs at h with hend
      · exact ⟨[], a, by simp [hend.2], hend.1, valid_nil⟩
      · rcases hf : front (a :: data) with - | ⟨c, rest⟩
        · simp [hf] at h
        · simp only [hf] at h
          obtain ⟨str, z, hs, hz, hv⟩ := ih rest.length (hn ▸ length_lt_of_front hf) rest h rfl
          obtain ⟨he, hc⟩ := eq_of_front hf
          exact ⟨utf8 c ++ str, z, by rw [he, hs, List.append_assoc], hz,
            valid_iff_front.mpr (Or.inr ⟨c, str, front_utf8 hc str, hv⟩)⟩
  · rintro ⟨str, z, rfl, hz, cs, rfl, hcs⟩
    induction cs with
    | nil => simp [accepts_cons, hz]
    | cons c cs ih =>
      obtain ⟨hc, hcs⟩ := List.forall_mem_cons.mp hcs
      rw [List.flatMap_cons, List.append_assoc]
      have hf := front_utf8 hc (cs.flatMap utf8 ++ [z])
      rcases hu : utf8 c with - | ⟨a, u⟩
      · exact absurd hu (utf8_ne_nil c)
      · rw [hu, List.cons_append] at hf
        rw [List.cons_append, accepts_cons, if_neg (by simp), hf]
        exact ih hcs

/-- `check_utf8` accepts the UTF-8 forms of sequences of scalar values and nothing else. -/
theorem checkUtf8_iff (str : List UInt8) : checkUtf8 str = true ↔ Valid str := by
  rw [checkUtf8, accepts_iff]
  constructor
  · rintro ⟨str', z, h, -, hv⟩
    exact (List.append_inj' h rfl).1 ▸ hv
  · exact fun hv => ⟨str, 0, rfl, by decide, hv⟩

/-! ### One character -/

/-- The code at the start of the bytes, and the bytes behind it; none is `LOG(FATAL)`, or a byte that
would be read behind the end. -/
def nextUtf8Unsafe : List UInt8 → Option (ℕ × List UInt8)
  | [] => none
  | a :: ptr =>
    let a := a.toNat
    if a &&& 0x80 = 0 then some (a, ptr)
    else if a &&& 0x20 = 0 then
      match ptr with
      | b :: ptr => some ((a &&& 0x1f) <<< 6 ||| (b.toNat &&& 0x3f), ptr)
      | _ => none
    else if a &&& 0x10 = 0 then
      match ptr with
      | b :: c :: ptr =>
        some ((a &&& 0x0f) <<< 12 ||| (b.toNat &&& 0x3f) <<< 6 ||| (c.toNat &&& 0x3f), ptr)
      | _ => none
    else if a &&& 0x08 = 0 then
      match ptr with
      | b :: c :: d :: ptr =>
        some ((a &&& 0x07) <<< 18 ||| (b.toNat &&& 0x3f) <<< 12 ||| (c.toNat &&& 0x3f) <<< 6 |||
          (d.toNat &&& 0x3f), ptr)
      | _ => none
    else none

def appendUtf8Character (str : List UInt8) (ch : ℕ) : List UInt8 :=
  if ch ≤ 0x7f then str ++ [UInt8.ofNat ch]
  else if ch ≤ 0x7ff then
    str ++ [UInt8.ofNat (0xc0 ||| ch >>> 6), UInt8.ofNat (0x80 ||| (ch &&& 0x3f))]
  else if ch ≤ 0xffff then
    str ++ [UInt8.ofNat (0xe0 ||| ch >>> 12), UInt8.ofNat (0x80 ||| (ch >>> 6 &&& 0x3f)),
      UInt8.ofNat (0x80 ||| (ch &&& 0x3f))]
  else
    str ++ [UInt8.ofNat (0xf0 ||| ch >>> 18), UInt8.ofNat (0x80 ||| (ch >>> 12 &&& 0x3f)),
      UInt8.ofNat (0x80 ||| (ch >>> 6 &&& 0x3f)), UInt8.ofNat (0x80 ||| (ch &&& 0x3f))]

theorem nextUtf8Unsafe_of_front {s rest : List UInt8} {c : ℕ} (h : front s = some (c, rest)) :
    nextUtf8Unsafe s = some (c, rest) := by
  rcases s with - | ⟨a, s⟩
  · cases h
  · unfold front at h
    unfold nextUtf8Unsafe
    dsimp only at h ⊢
    split_ifs at h with h1 h2 h3 h4
    · rw [if_pos (masks_ascii h1)]
      exact h
    · obtain ⟨h80, -, h20⟩ := masks_two h2
      rw [if_neg h80, if_pos h20]
      rcases s with - | ⟨b, s⟩
      · cases h
      · dsimp only at h ⊢
        split_ifs at h
        rwa [code_two]
    · obtain ⟨h80, -, h20, h10⟩ := masks_three h3
      rw [if_neg h80, if_neg h20, if_pos h10]
      rcases s with - | ⟨b, - | ⟨c, s⟩⟩
      · cases h
      · cases h
      · dsimp only at h ⊢
        split_ifs at h
        rwa [code_three]
    · obtain ⟨h80, -, h20, h10, h08⟩ := masks_four h4
      rw [if_neg h80, if_neg h20, if_neg h10, if_pos h08]
      rcases s with - | ⟨b, - | ⟨c, - | ⟨d, s⟩⟩⟩
      · cases h
      · cases h
      · cases h
      · dsimp only at h ⊢
        split_ifs at h
        rwa [code_four]

/-- What `next_utf8_unsafe` reads in front of any bytes. -/
theorem nextUtf8Unsafe_utf8 {c : ℕ} (hc : Scalar c) (s : List UInt8) :
    nextUtf8Unsafe (utf8 c ++ s) = some (c, s) := nextUtf8Unsafe_of_front (front_utf8 hc s)

theorem appendUtf8Character_eq {c : ℕ} (hc : c < 0x200000) (str : List UInt8) :
    appendUtf8Character str c = str ++ utf8 c := by
  have hor6 : ∀ {x : ℕ}, x < 64 → 0x80 ||| x = 0x80 + x ∧ 0xc0 ||| x = 0xc0 + x := fun {x} hx =>
    ⟨@Bits.shiftLeft_or 2 x 6 hx, @Bits.shiftLeft_or 3 x 6 hx⟩
  have hor4 : ∀ {x : ℕ}, x < 16 → 0xe0 ||| x = 0xe0 + x := fun {x} hx =>
    @Bits.shiftLeft_or 14 x 4 hx
  have hor3 : ∀ {x : ℕ}, x < 8 → 0xf0 ||| x = 0xf0 + x := fun {x} hx =>
    @Bits.shiftLeft_or 30 x 3 hx
  have hlow : ∀ n : ℕ, 0x80 ||| n % 64 = 0x80 + n % 64 := fun n =>
    (hor6 (Nat.mod_lt n (by omega))).1
  unfold appendUtf8Character utf8
  simp only [and_3f, Nat.shiftRight_eq_div_pow, hlow]
  by_cases h1 : c < 0x80
  · rw [if_pos (by omega), if_pos h1]
  rw [if_neg (by omega), if_neg h1]
  by_cases h2 : c < 0x800
  · rw [if_pos (by omega), if_pos h2, (hor6 (by omega)).2]
  rw [if_neg (by omega), if_neg h2]
  by_cases h3 : c < 0x10000
  · rw [if_pos (by omega), if_pos h3, hor4 (by omega)]
  · rw [if_neg (by omega), if_neg h3, hor3 (by omega)]

def isUtf8CharacterFirstCodeUnit (c : UInt8) : Bool := c.toNat &&& 0xC0 ≠ 0x80

theorem first_iff (b : UInt8) : isUtf8CharacterFirstCodeUnit b = true ↔ ¬ Continues b := by
  have hb := b.toNat_lt
  unfold isUtf8CharacterFirstCodeUnit Continues
  rw [and_c0, decide_eq_true_iff]
  omega

end TdUtils.Text
