import Mathlib.Data.List.Basic
import Mathlib.Tactic.IntervalCases

/-!
# Lib.Utf8 — Unicode scalar values and their UTF-8 form

`utf8 c` are the bytes of a scalar value.  `front` takes the first scalar value off a list of bytes,
and `Utf8 s cs` says that `s` is the UTF-8 form of `cs`.
-/

namespace TdUtils.Lib.Utf8

/-- The Unicode scalar values: no surrogates, nothing from `0x110000` on. -/
def Scalar (c : ℕ) : Prop := c < 0xD800 ∨ 0xE000 ≤ c ∧ c < 0x110000

instance (c : ℕ) : Decidable (Scalar c) := inferInstanceAs (Decidable (_ ∨ _))

/-- The bytes of a code below `0x200000`. -/
def utf8 (c : ℕ) : List UInt8 :=
  if c < 0x80 then [UInt8.ofNat c]
  else if c < 0x800 then [UInt8.ofNat (0xC0 + c / 64), UInt8.ofNat (0x80 + c % 64)]
  else if c < 0x10000 then
    [UInt8.ofNat (0xE0 + c / 4096), UInt8.ofNat (0x80 + c / 64 % 64), UInt8.ofNat (0x80 + c % 64)]
  else
    [UInt8.ofNat (0xF0 + c / 262144), UInt8.ofNat (0x80 + c / 4096 % 64),
      UInt8.ofNat (0x80 + c / 64 % 64), UInt8.ofNat (0x80 + c % 64)]

/-- `s` is the UTF-8 form of the scalar values `cs`. -/
def Encodes (s : List UInt8) (cs : List ℕ) : Prop := s = cs.flatMap utf8 ∧ ∀ c ∈ cs, Scalar c

/-- A list of bytes that is the UTF-8 form of something. -/
def Valid (s : List UInt8) : Prop := ∃ cs, Encodes s cs

theorem length_utf8 (c : ℕ) : 1 ≤ (utf8 c).length ∧ (utf8 c).length ≤ 4 := by
  unfold utf8
  split_ifs <;> simp

theorem utf8_ne_nil (c : ℕ) : utf8 c ≠ [] := by
  have := (length_utf8 c).1
  intro h
  simp [h] at this

theorem toNat_ofNat {n : ℕ} (h : n < 256) : (UInt8.ofNat n).toNat = n := by simp [h]

theorem ofNat_of_toNat {a : UInt8} {n : ℕ} (h : n = a.toNat) : UInt8.ofNat n = a := by
  rw [h, UInt8.ofNat_toNat]

/-! ### The four forms -/

section Forms

variable {a b c d : UInt8}

theorem utf8_one (h : a.toNat < 0x80) : utf8 a.toNat = [a] := by
  simp [utf8, h]

theorem ofNat_tail (h : b.toNat / 64 = 2) : UInt8.ofNat (0x80 + b.toNat % 64) = b := ofNat_of_toNat (by omega)

theorem ofNat_head (lead size : ℕ) (hlead : lead % size = 0) (h : a.toNat / size = lead / size) :
    UInt8.ofNat (lead + a.toNat % size) = a := by
  refine ofNat_of_toNat ?_
  rw [← Nat.div_add_mod a.toNat size, h, Nat.mul_div_cancel' (Nat.dvd_of_mod_eq_zero hlead), Nat.add_mod,
    Nat.mod_eq_zero_of_dvd (Nat.dvd_of_mod_eq_zero hlead), Nat.zero_add, Nat.mod_mod, Nat.mod_mod]

theorem digits_two {x y : ℕ} (hy : y < 64) : (x * 64 + y) / 64 = x ∧ (x * 64 + y) % 64 = y := by omega

theorem digits_three {x y z : ℕ} (hy : y < 64) (hz : z < 64) :
    (x * 4096 + y * 64 + z) / 4096 = x ∧ (x * 4096 + y * 64 + z) / 64 % 64 = y ∧ (x * 4096 + y * 64 + z) % 64 = z := by
  omega

theorem digits_four {w x y z : ℕ} (hx : x < 64) (hy : y < 64) (hz : z < 64) :
    (w * 262144 + x * 4096 + y * 64 + z) / 262144 = w ∧ (w * 262144 + x * 4096 + y * 64 + z) / 4096 % 64 = x ∧
      (w * 262144 + x * 4096 + y * 64 + z) / 64 % 64 = y ∧ (w * 262144 + x * 4096 + y * 64 + z) % 64 = z := by
  omega

theorem mod_64_lt (n : ℕ) : n % 64 < 64 := Nat.mod_lt n (by decide)

theorem utf8_two (ha : a.toNat / 32 = 6) (hb : b.toNat / 64 = 2)
    (h : 0x80 ≤ a.toNat % 32 * 64 + b.toNat % 64) :
    utf8 (a.toNat % 32 * 64 + b.toNat % 64) = [a, b] := by
  have hlt : a.toNat % 32 * 64 + b.toNat % 64 < 0x800 := by omega
  obtain ⟨hx, hy⟩ := digits_two (x := a.toNat % 32) (mod_64_lt b.toNat)
  rw [utf8, if_neg (Nat.not_lt.mpr h), if_pos hlt, hx, hy, ofNat_head 0xC0 32 rfl ha, ofNat_tail hb]

theorem utf8_three (ha : a.toNat / 16 = 14) (hb : b.toNat / 64 = 2) (hc : c.toNat / 64 = 2)
    (h : 0x800 ≤ a.toNat % 16 * 4096 + b.toNat % 64 * 64 + c.toNat % 64) :
    utf8 (a.toNat % 16 * 4096 + b.toNat % 64 * 64 + c.toNat % 64) = [a, b, c] := by
  have hlt : a.toNat % 16 * 4096 + b.toNat % 64 * 64 + c.toNat % 64 < 0x10000 := by omega
  obtain ⟨hx, hy, hz⟩ := digits_three (x := a.toNat % 16) (mod_64_lt b.toNat) (mod_64_lt c.toNat)
  rw [utf8, if_neg (Nat.not_lt.mpr (Nat.le_trans (by decide) h)), if_neg (Nat.not_lt.mpr h), if_pos hlt, hx, hy, hz,
    ofNat_head 0xE0 16 rfl ha, ofNat_tail hb, ofNat_tail hc]

theorem utf8_four (ha : a.toNat / 8 = 30) (hb : b.toNat / 64 = 2) (hc : c.toNat / 64 = 2)
    (hd : d.toNat / 64 = 2)
    (h : 0x10000 ≤ a.toNat % 8 * 262144 + b.toNat % 64 * 4096 + c.toNat % 64 * 64 + d.toNat % 64) :
    utf8 (a.toNat % 8 * 262144 + b.toNat % 64 * 4096 + c.toNat % 64 * 64 + d.toNat % 64) =
      [a, b, c, d] := by
  obtain ⟨hw, hx, hy, hz⟩ := digits_four (w := a.toNat % 8) (mod_64_lt b.toNat) (mod_64_lt c.toNat) (mod_64_lt d.toNat)
  rw [utf8, if_neg (Nat.not_lt.mpr (Nat.le_trans (by decide) h)), if_neg (Nat.not_lt.mpr (Nat.le_trans (by decide) h)),
    if_neg (Nat.not_lt.mpr h), hw, hx, hy, hz, ofNat_head 0xF0 8 rfl ha, ofNat_tail hb, ofNat_tail hc, ofNat_tail hd]

end Forms

/-! ### The first scalar value -/

/-- The first scalar value of a list of bytes and the bytes behind it; none where the list does not
start with the UTF-8 form of a scalar value. -/
def front : List UInt8 → Option (ℕ × List UInt8)
  | [] => none
  | a :: s =>
    if a.toNat < 0x80 then some (a.toNat, s)
    else if a.toNat / 32 = 6 then
      match s with
      | b :: s =>
        let n := a.toNat % 32 * 64 + b.toNat % 64
        if b.toNat / 64 = 2 ∧ 0x80 ≤ n then some (n, s) else none
      | _ => none
    else if a.toNat / 16 = 14 then
      match s with
      | b :: c :: s =>
        let n := a.toNat % 16 * 4096 + b.toNat % 64 * 64 + c.toNat % 64
        if b.toNat / 64 = 2 ∧ c.toNat / 64 = 2 ∧ 0x800 ≤ n ∧ Scalar n then some (n, s) else none
      | _ => none
    else if a.toNat / 8 = 30 then
      match s with
      | b :: c :: d :: s =>
        let n := a.toNat % 8 * 262144 + b.toNat % 64 * 4096 + c.toNat % 64 * 64 + d.toNat % 64
        if b.toNat / 64 = 2 ∧ c.toNat / 64 = 2 ∧ d.toNat / 64 = 2 ∧ 0x10000 ≤ n ∧ Scalar n then
          some (n, s)
        else none
      | _ => none
    else none

/-- A byte that is not the first of a character holds six bits. -/
theorem tail_byte (n : ℕ) : (UInt8.ofNat (0x80 + n % 64)).toNat / 64 = 2 ∧
    (UInt8.ofNat (0x80 + n % 64)).toNat % 64 = n % 64 := by
  have hlt := Nat.mod_lt n (show 64 > 0 by decide)
  rw [toNat_ofNat (by omega)]
  constructor <;> omega

/-- The first byte holds what is above the six bits of each other byte. -/
theorem head_byte (lead size : ℕ) {n : ℕ} (hlead : lead % size = 0) (hn : n < size) (h : lead + size ≤ 256) :
    (UInt8.ofNat (lead + n)).toNat / size = lead / size ∧ (UInt8.ofNat (lead + n)).toNat % size = n := by
  obtain ⟨q, rfl⟩ := Nat.dvd_of_mod_eq_zero hlead
  have hpos : 0 < size := by omega
  rw [toNat_ofNat (by omega), Nat.mul_add_div hpos, Nat.div_eq_of_lt hn, Nat.mul_div_cancel_left q hpos, Nat.mul_add_mod,
    Nat.mod_eq_of_lt hn]
  exact ⟨rfl, rfl⟩

theorem sum_two (c : ℕ) : c / 64 * 64 + c % 64 = c := Nat.div_add_mod' c 64

theorem sum_three (c : ℕ) : c / 4096 * 4096 + c / 64 % 64 * 64 + c % 64 = c := by omega

theorem sum_four (c : ℕ) : c / 262144 * 262144 + c / 4096 % 64 * 4096 + c / 64 % 64 * 64 + c % 64 = c := by omega

theorem front_two {a b : UInt8} {n : ℕ} (ha : a.toNat / 32 = 6) (hb : b.toNat / 64 = 2)
    (hn : a.toNat % 32 * 64 + b.toNat % 64 = n) (h : 0x80 ≤ n) (s : List UInt8) : front (a :: b :: s) = some (n, s) := by
  subst hn
  have h1 : ¬ a.toNat < 0x80 := by omega
  simp only [front]
  rw [if_neg h1, if_pos ha, if_pos ⟨hb, h⟩]

/-- The form of three bytes is the only one of a surrogate. -/
theorem front_three {a b d : UInt8} {n : ℕ} (ha : a.toNat / 16 = 14) (hb : b.toNat / 64 = 2) (hd : d.toNat / 64 = 2)
    (hn : a.toNat % 16 * 4096 + b.toNat % 64 * 64 + d.toNat % 64 = n) (h : 0x800 ≤ n) (s : List UInt8) :
    front (a :: b :: d :: s) = if Scalar n then some (n, s) else none := by
  subst hn
  have h1 : ¬ a.toNat < 0x80 := by omega
  have h2 : ¬ a.toNat / 32 = 6 := by omega
  simp only [front]
  rw [if_neg h1, if_neg h2, if_pos ha]
  exact if_congr ⟨fun h => h.2.2.2, fun hc => ⟨hb, hd, h, hc⟩⟩ rfl rfl

theorem front_four {a b d e : UInt8} {n : ℕ} (ha : a.toNat / 8 = 30) (hb : b.toNat / 64 = 2) (hd : d.toNat / 64 = 2)
    (he : e.toNat / 64 = 2)
    (hn : a.toNat % 8 * 262144 + b.toNat % 64 * 4096 + d.toNat % 64 * 64 + e.toNat % 64 = n) (h : 0x10000 ≤ n)
    (hc : Scalar n) (s : List UInt8) : front (a :: b :: d :: e :: s) = some (n, s) := by
  subst hn
  have h1 : ¬ a.toNat < 0x80 := by omega
  have h2 : ¬ a.toNat / 32 = 6 := by omega
  have h3 : ¬ a.toNat / 16 = 14 := by omega
  simp only [front]
  rw [if_neg h1, if_neg h2, if_neg h3, if_pos ha, if_pos ⟨hb, hd, he, h, hc⟩]

theorem front_utf8_three {c : ℕ} (hlow : 0x800 ≤ c) (hhigh : c < 0x10000) (s : List UInt8) :
    front (utf8 c ++ s) = if Scalar c then some (c, s) else none := by
  have h1 : ¬ c < 0x80 := by omega
  have h2 : ¬ c < 0x800 := Nat.not_lt.mpr hlow
  have ha := head_byte 0xE0 16 rfl (show c / 4096 < 16 by omega) (by decide)
  have hn := sum_three c
  rw [← ha.2, ← (tail_byte (c / 64)).2, ← (tail_byte c).2] at hn
  rw [utf8, if_neg h1, if_neg h2, if_pos hhigh]
  exact front_three ha.1 (tail_byte _).1 (tail_byte _).1 hn hlow s

theorem front_utf8 {c : ℕ} (hc : Scalar c) (s : List UInt8) : front (utf8 c ++ s) = some (c, s) := by
  have hlt : c < 0x110000 := by
    unfold Scalar at hc
    omega
  by_cases h1 : c < 0x80
  · have ha : (UInt8.ofNat c).toNat = c := toNat_ofNat (by omega)
    rw [utf8, if_pos h1]
    simp [front, ha, h1]
  by_cases h2 : c < 0x800
  · have ha := head_byte 0xC0 32 rfl (show c / 64 < 32 by omega) (by decide)
    have hn := sum_two c
    rw [← ha.2, ← (tail_byte c).2] at hn
    rw [utf8, if_neg h1, if_pos h2]
    exact front_two ha.1 (tail_byte _).1 hn (Nat.not_lt.mp h1) s
  by_cases h3 : c < 0x10000
  · rw [front_utf8_three (Nat.not_lt.mp h2) h3, if_pos hc]
  · have ha := head_byte 0xF0 8 rfl (show c / 262144 < 8 by omega) (by decide)
    have hn := sum_four c
    rw [← ha.2, ← (tail_byte (c / 4096)).2, ← (tail_byte (c / 64)).2, ← (tail_byte c).2] at hn
    rw [utf8, if_neg h1, if_neg h2, if_neg h3]
    exact front_four ha.1 (tail_byte _).1 (tail_byte _).1 (tail_byte _).1 hn (Nat.not_lt.mp h3) hc s

theorem eq_of_front : ∀ {s rest : List UInt8} {c : ℕ}, front s = some (c, rest) →
    s = utf8 c ++ rest ∧ Scalar c
  | a :: s, rest, c, h => by
    unfold front at h
    dsimp only at h
    split_ifs at h with h1 h2 h3 h4
    · obtain ⟨rfl, rfl⟩ := Prod.mk.inj (Option.some.inj h)
      exact ⟨by rw [utf8_one h1]; rfl, Or.inl (by omega)⟩
    · rcases s with - | ⟨b, s⟩
      · simp at h
      · simp only at h
        split_ifs at h with hc
        obtain ⟨rfl, rfl⟩ := Prod.mk.inj (Option.some.inj h)
        exact ⟨by rw [utf8_two h2 hc.1 hc.2]; rfl, Or.inl (by omega)⟩
    · rcases s with - | ⟨b, - | ⟨e, s⟩⟩
      · simp at h
      · simp at h
      · simp only at h
        split_ifs at h with hc
        obtain ⟨rfl, rfl⟩ := Prod.mk.inj (Option.some.inj h)
        exact ⟨by rw [utf8_three h3 hc.1 hc.2.1 hc.2.2.1]; rfl, hc.2.2.2⟩
    · rcases s with - | ⟨b, - | ⟨e, - | ⟨f, s⟩⟩⟩
      · simp at h
      · simp at h
      · simp at h
      · simp only at h
        split_ifs at h with hc
        obtain ⟨rfl, rfl⟩ := Prod.mk.inj (Option.some.inj h)
        exact ⟨by rw [utf8_four h4 hc.1 hc.2.1 hc.2.2.1 hc.2.2.2.1]; rfl, hc.2.2.2.2⟩

theorem front_eq_some_iff {s rest : List UInt8} {c : ℕ} :
    front s = some (c, rest) ↔ s = utf8 c ++ rest ∧ Scalar c :=
  ⟨eq_of_front, fun ⟨h, hc⟩ => h ▸ front_utf8 hc rest⟩

theorem length_lt_of_front {s rest : List UInt8} {c : ℕ} (h : front s = some (c, rest)) :
    rest.length < s.length := by
  have := (length_utf8 c).1
  rw [(eq_of_front h).1, List.length_append]
  omega

/-! ### Whole strings -/

theorem valid_nil : Valid [] := ⟨[], rfl, by simp⟩

theorem Encodes.cons {s : List UInt8} {cs : List ℕ} {c : ℕ} (hc : Scalar c) (h : Encodes s cs) :
    Encodes (utf8 c ++ s) (c :: cs) :=
  ⟨by rw [List.flatMap_cons, h.1], List.forall_mem_cons.mpr ⟨hc, h.2⟩⟩

/-- A string stands for one sequence of scalar values. -/
theorem Encodes.inj {s : List UInt8} {cs ds : List ℕ} (hc : Encodes s cs) (hd : Encodes s ds) : cs = ds := by
  obtain ⟨rfl, hcs⟩ := hc
  obtain ⟨heq, hds⟩ := hd
  induction cs generalizing ds with
  | nil =>
    rcases ds with - | ⟨d, ds⟩
    · rfl
    · exact absurd heq.symm (by simp [utf8_ne_nil])
  | cons c cs ih =>
    rcases ds with - | ⟨d, ds⟩
    · exact absurd heq (by simp [utf8_ne_nil])
    · obtain ⟨hc, htail⟩ := List.forall_mem_cons.mp hcs
      obtain ⟨hd, htail'⟩ := List.forall_mem_cons.mp hds
      have hfront := front_utf8 hc (cs.flatMap utf8)
      rw [← List.flatMap_cons, heq, List.flatMap_cons, front_utf8 hd] at hfront
      obtain ⟨rfl, hrest⟩ := Prod.mk.inj (Option.some.inj hfront)
      rw [ih htail hrest.symm htail']

theorem Encodes.take {s : List UInt8} {cs : List ℕ} (h : Encodes s cs) (n : ℕ) :
    Encodes ((cs.take n).flatMap utf8) (cs.take n) :=
  ⟨rfl, fun c hc => h.2 c (List.mem_of_mem_take hc)⟩

theorem Encodes.drop {s : List UInt8} {cs : List ℕ} (h : Encodes s cs) (n : ℕ) :
    Encodes ((cs.drop n).flatMap utf8) (cs.drop n) :=
  ⟨rfl, fun c hc => h.2 c (List.mem_of_mem_drop hc)⟩

/-- A string begins with another one exactly where its sequence of scalar values does. -/
theorem flatMap_utf8_prefix_iff : ∀ {cs ds : List ℕ}, (∀ c ∈ cs, Scalar c) → (∀ d ∈ ds, Scalar d) →
    (cs.flatMap utf8 <+: ds.flatMap utf8 ↔ cs <+: ds)
  | [], _, _, _ => by simp
  | c :: cs, [], _, _ => by simp [utf8_ne_nil]
  | c :: cs, d :: ds, hcs, hds => by
    obtain ⟨hc, hcs'⟩ := List.forall_mem_cons.mp hcs
    obtain ⟨hd, hds'⟩ := List.forall_mem_cons.mp hds
    rw [List.flatMap_cons, List.flatMap_cons, List.cons_prefix_cons]
    constructor
    · rintro ⟨rest, hrest⟩
      rw [List.append_assoc] at hrest
      have hfront := front_utf8 hd (ds.flatMap utf8)
      rw [← hrest, front_utf8 hc] at hfront
      obtain ⟨rfl, heq⟩ := Prod.mk.inj (Option.some.inj hfront)
      exact ⟨rfl, (flatMap_utf8_prefix_iff hcs' hds').mp ⟨rest, heq⟩⟩
    · rintro ⟨rfl, hprefix⟩
      exact (List.prefix_append_right_inj _).mpr ((flatMap_utf8_prefix_iff hcs' hds').mpr hprefix)

theorem length_le_flatMap_utf8 (cs : List ℕ) : cs.length ≤ (cs.flatMap utf8).length := by
  induction cs with
  | nil => rfl
  | cons c cs ih =>
    have hone := (length_utf8 c).1
    rw [List.flatMap_cons, List.length_cons, List.length_append]
    omega

/-- The characters in front of the cut, one after another. -/
theorem take_flatMap_utf8 {kept cs : List ℕ} (h : kept <+: cs) :
    (cs.flatMap utf8).take (kept.flatMap utf8).length = kept.flatMap utf8 := by
  obtain ⟨rest, rfl⟩ := h
  rw [List.flatMap_append, List.take_left]

theorem Valid.append {s t : List UInt8} (hs : Valid s) (ht : Valid t) : Valid (s ++ t) := by
  obtain ⟨cs, rfl, hcs⟩ := hs
  obtain ⟨ds, rfl, hds⟩ := ht
  refine ⟨cs ++ ds, List.flatMap_append.symm, fun c hc => ?_⟩
  exact (List.mem_append.mp hc).elim (hcs c) (hds c)

theorem valid_of_ascii {s : List UInt8} (h : ∀ b ∈ s, b < 0x80) : Valid s := by
  induction s with
  | nil => exact valid_nil
  | cons b s ih =>
    obtain ⟨hb, hs⟩ := List.forall_mem_cons.mp h
    have hlt : b.toNat < 0x80 := UInt8.lt_iff_toNat_lt.mp hb
    have hone : Encodes (utf8 b.toNat ++ []) [b.toNat] :=
      Encodes.cons (Or.inl (by omega)) ⟨rfl, by simp⟩
    rw [utf8_one hlt] at hone
    exact Valid.append ⟨_, hone⟩ (ih hs)

/-- The bytes of a character that is not ASCII. -/
theorem utf8_high {c : ℕ} (hc : Scalar c) (h : ¬ c < 0x80) : ∀ b ∈ utf8 c, 0x80 ≤ b := by
  have hbyte : ∀ n : ℕ, 0x80 ≤ n → n < 256 → 0x80 ≤ UInt8.ofNat n := by
    intro n hn hlt
    rw [UInt8.le_iff_toNat_le, toNat_ofNat hlt]
    exact hn
  unfold Scalar at hc
  unfold utf8
  rw [if_neg h]
  split_ifs with h2 h3
  all_goals
    simp only [List.forall_mem_cons]
    refine ⟨hbyte _ (by omega) (by omega), hbyte _ (by omega) (by omega), ?_⟩
  · exact fun _ hb => absurd hb List.not_mem_nil
  · exact ⟨hbyte _ (by omega) (by omega), fun _ hb => absurd hb List.not_mem_nil⟩
  · exact ⟨hbyte _ (by omega) (by omega), hbyte _ (by omega) (by omega),
      fun _ hb => absurd hb List.not_mem_nil⟩

/-- A string is valid when its first character is and the rest is. -/
theorem valid_iff_front {s : List UInt8} :
    Valid s ↔ s = [] ∨ ∃ c rest, front s = some (c, rest) ∧ Valid rest := by
  constructor
  · rintro ⟨- | ⟨c, cs⟩, rfl, hcs⟩
    · exact Or.inl rfl
    · obtain ⟨hc, hcs⟩ := List.forall_mem_cons.mp hcs
      exact Or.inr ⟨c, cs.flatMap utf8, front_utf8 hc _, cs, rfl, hcs⟩
  · rintro (rfl | ⟨c, rest, hf, cs, he⟩)
    · exact valid_nil
    · obtain ⟨rfl, hc⟩ := eq_of_front hf
      exact ⟨c :: cs, he.cons hc⟩

/-! ### Where a string can be cut -/

/-- A byte that is not the first of a character. -/
def Continues (b : UInt8) : Prop := b.toNat / 64 = 2

theorem continues_tail (c : ℕ) : ∀ b ∈ (utf8 c).tail, Continues b := by
  have hcont : ∀ n : ℕ, Continues (UInt8.ofNat (0x80 + n % 64)) := fun n => by
    unfold Continues
    rw [toNat_ofNat (by omega)]
    omega
  unfold utf8
  split_ifs <;>
    simp only [List.tail_cons, List.forall_mem_cons, hcont, true_and] <;> rintro b (- | -)

theorem not_continues_head {c : ℕ} (hc : c < 0x200000) (s : List UInt8) :
    ∀ b ∈ (utf8 c ++ s).head?, ¬ Continues b := by
  unfold utf8 Continues
  split_ifs <;> simp only [List.cons_append, List.head?_cons, Option.mem_some_iff] <;>
    rintro b rfl <;> rw [toNat_ofNat (by omega)] <;> omega

/-- A string can be cut in front of every byte that starts a character. -/
theorem valid_append {t : List UInt8} (ht : ∀ b ∈ t.head?, ¬ Continues b) (s : List UInt8) :
    Valid (s ++ t) ↔ Valid s ∧ Valid t := by
  induction hn : s.length using Nat.strong_induction_on generalizing s with
  | _ n ih =>
    by_cases hs : s = []
    · subst hs
      simp [valid_nil]
    rw [valid_iff_front, valid_iff_front (s := s)]
    simp only [List.append_eq_nil_iff, hs, false_and, false_or, front_eq_some_iff]
    constructor
    · rintro ⟨c, rest, ⟨happ, hc⟩, hrest⟩
      rcases List.append_eq_append_iff.mp happ with ⟨a, ha, rfl⟩ | ⟨a, rfl, rfl⟩
      · rcases a with - | ⟨b, a⟩
        · rw [List.append_nil] at ha
          exact ⟨⟨c, [], ⟨by rw [ha, List.append_nil], hc⟩, valid_nil⟩, hrest⟩
        · -- the character would end inside `t`
          obtain ⟨x, s, rfl⟩ := List.exists_cons_of_ne_nil hs
          have hmem : b ∈ (utf8 c).tail := by simp [ha]
          exact absurd (continues_tail c b hmem) (ht b rfl)
      · have hlt : a.length < n := by
          have := (length_utf8 c).1
          rw [List.length_append] at hn
          omega
        obtain ⟨h1, h2⟩ := (ih a.length hlt a rfl).mp hrest
        exact ⟨⟨c, a, ⟨rfl, hc⟩, h1⟩, h2⟩
    · rintro ⟨⟨c, rest, ⟨rfl, hc⟩, hrest⟩, h2⟩
      have hlt : rest.length < n := by
        have := (length_utf8 c).1
        rw [List.length_append] at hn
        omega
      exact ⟨c, rest ++ t, ⟨List.append_assoc _ _ _, hc⟩,
        (ih rest.length hlt rest rfl).mpr ⟨hrest, h2⟩⟩

/-- A string can be cut on both sides of an ASCII byte. -/
theorem valid_append_cons {a : UInt8} (ha : a.toNat < 0x80) (s t : List UInt8) :
    Valid (s ++ a :: t) ↔ Valid s ∧ Valid t := by
  have hstart : ∀ b ∈ (a :: t).head?, ¬ Continues b := by
    unfold Continues
    rintro b hb
    obtain rfl := Option.some.inj hb
    omega
  have hfront : front (a :: t) = some (a.toNat, t) := if_pos ha
  have hcons : Valid (a :: t) ↔ Valid t := by
    rw [valid_iff_front, hfront]
    simp
  rw [valid_append hstart, hcons]

theorem front_surrogate {c : ℕ} (hc : c < 0x110000) (hs : ¬ Scalar c) (t : List UInt8) :
    front (utf8 c ++ t) = none := by
  have hrange : 0xD800 ≤ c ∧ c < 0xE000 := by
    unfold Scalar at hs
    omega
  rw [front_utf8_three (by omega) (by omega), if_neg hs]

/-- The bytes of a code are valid where the code is a scalar value. -/
theorem valid_utf8_append {c : ℕ} (hc : c < 0x110000) (t : List UInt8) :
    Valid (utf8 c ++ t) ↔ Scalar c ∧ Valid t := by
  rw [valid_iff_front]
  by_cases hs : Scalar c
  · simp [front_utf8 hs, utf8_ne_nil, hs]
  · rw [front_surrogate hc hs]
    simp [utf8_ne_nil, hs]

end TdUtils.Lib.Utf8
