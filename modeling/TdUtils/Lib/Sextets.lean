import Mathlib.Data.List.Basic

/-!
# Lib.Sextets — bytes as numbers of six bits

Three bytes are four numbers of six bits, most significant first.  One or two bytes at the end are two or three numbers,
in which the bits that are over are zero.
-/

namespace TdUtils.Lib.Sextets

/-- Two bytes and the high bits of a third, as the numbers of a group of three. -/
def sextets : List UInt8 → List ℕ
  | [] => []
  | [a] => [a.toNat / 4, a.toNat % 4 * 16]
  | [a, b] => [a.toNat / 4, a.toNat % 4 * 16 + b.toNat / 16, b.toNat % 16 * 4]
  | a :: b :: c :: rest =>
    a.toNat / 4 :: (a.toNat % 4 * 16 + b.toNat / 16) :: (b.toNat % 16 * 4 + c.toNat / 64) :: c.toNat % 64 :: sextets rest

def first (d₀ d₁ : ℕ) : UInt8 := UInt8.ofNat (d₀ * 4 + d₁ / 16)

def second (d₁ d₂ : ℕ) : UInt8 := UInt8.ofNat (d₁ % 16 * 16 + d₂ / 4)

def third (d₂ d₃ : ℕ) : UInt8 := UInt8.ofNat (d₂ % 4 * 64 + d₃)

/-- The bytes, when the bits that are over are zero. -/
def octets : List ℕ → Option (List UInt8)
  | [] => some []
  | [_] => none
  | [d₀, d₁] => if d₁ % 16 = 0 then some [first d₀ d₁] else none
  | [d₀, d₁, d₂] => if d₂ % 4 = 0 then some [first d₀ d₁, second d₁ d₂] else none
  | d₀ :: d₁ :: d₂ :: d₃ :: rest => (octets rest).map fun bytes => first d₀ d₁ :: second d₁ d₂ :: third d₂ d₃ :: bytes

theorem sextets_lt (s : List UInt8) : ∀ d ∈ sextets s, d < 64 := by
  induction s using sextets.induct with
  | case1 => exact List.forall_mem_nil _
  | case2 a =>
    have ha := a.toNat_lt
    simp only [sextets, List.forall_mem_cons]
    exact ⟨by omega, by omega, List.forall_mem_nil _⟩
  | case3 a b =>
    have ha := a.toNat_lt
    have hb := b.toNat_lt
    simp only [sextets, List.forall_mem_cons]
    exact ⟨by omega, by omega, by omega, List.forall_mem_nil _⟩
  | case4 a b c rest ih =>
    have ha := a.toNat_lt
    have hb := b.toNat_lt
    have hc := c.toNat_lt
    simp only [sextets, List.forall_mem_cons]
    exact ⟨by omega, by omega, by omega, by omega, ih⟩

theorem first_eq {a : UInt8} {d₀ d₁ : ℕ} (h : d₀ * 4 + d₁ / 16 = a.toNat) : first d₀ d₁ = a := by
  unfold first
  rw [h, UInt8.ofNat_toNat]

theorem second_eq {b : UInt8} {d₁ d₂ : ℕ} (h : d₁ % 16 * 16 + d₂ / 4 = b.toNat) : second d₁ d₂ = b := by
  unfold second
  rw [h, UInt8.ofNat_toNat]

theorem third_eq {c : UInt8} {d₂ d₃ : ℕ} (h : d₂ % 4 * 64 + d₃ = c.toNat) : third d₂ d₃ = c := by
  unfold third
  rw [h, UInt8.ofNat_toNat]

theorem octets_sextets (s : List UInt8) : octets (sextets s) = some s := by
  induction s using sextets.induct with
  | case1 => rfl
  | case2 a =>
    have hfirst : first (a.toNat / 4) (a.toNat % 4 * 16) = a := first_eq (by omega)
    unfold sextets octets
    rw [if_pos (by omega), hfirst]
  | case3 a b =>
    have hb := b.toNat_lt
    have hfirst : first (a.toNat / 4) (a.toNat % 4 * 16 + b.toNat / 16) = a := first_eq (by omega)
    have hsecond : second (a.toNat % 4 * 16 + b.toNat / 16) (b.toNat % 16 * 4) = b := second_eq (by omega)
    unfold sextets octets
    rw [if_pos (by omega), hfirst, hsecond]
  | case4 a b c rest ih =>
    have hb := b.toNat_lt
    have hc := c.toNat_lt
    have hfirst : first (a.toNat / 4) (a.toNat % 4 * 16 + b.toNat / 16) = a := first_eq (by omega)
    have hsecond : second (a.toNat % 4 * 16 + b.toNat / 16) (b.toNat % 16 * 4 + c.toNat / 64) = b := second_eq (by omega)
    have hthird : third (b.toNat % 16 * 4 + c.toNat / 64) (c.toNat % 64) = c := third_eq (by omega)
    unfold sextets octets
    rw [ih, hfirst, hsecond, hthird]
    rfl

theorem toNat_ofNat_of_lt {n : ℕ} (h : n < 256) : (UInt8.ofNat n).toNat = n := by
  rw [UInt8.toNat_ofNat']
  exact Nat.mod_eq_of_lt h

theorem sextets_octets (ds : List ℕ) {s : List UInt8} (hlt : ∀ d ∈ ds, d < 64) (h : octets ds = some s) :
    sextets s = ds := by
  induction ds using octets.induct generalizing s with
  | case1 =>
    cases h
    rfl
  | case2 d => cases h
  | case3 d₀ d₁ hover =>
    simp only [List.forall_mem_cons] at hlt
    rw [octets, if_pos hover] at h
    cases h
    have hfirst : (first d₀ d₁).toNat = d₀ * 4 + d₁ / 16 := toNat_ofNat_of_lt (by omega)
    simp only [sextets, hfirst, List.cons.injEq, and_true]
    omega
  | case4 d₀ d₁ hover =>
    rw [octets, if_neg hover] at h
    cases h
  | case5 d₀ d₁ d₂ hover =>
    simp only [List.forall_mem_cons] at hlt
    rw [octets, if_pos hover] at h
    cases h
    have hfirst : (first d₀ d₁).toNat = d₀ * 4 + d₁ / 16 := toNat_ofNat_of_lt (by omega)
    have hsecond : (second d₁ d₂).toNat = d₁ % 16 * 16 + d₂ / 4 := toNat_ofNat_of_lt (by omega)
    simp only [sextets, hfirst, hsecond, List.cons.injEq, and_true]
    omega
  | case6 d₀ d₁ d₂ hover =>
    rw [octets, if_neg hover] at h
    cases h
  | case7 d₀ d₁ d₂ d₃ rest ih =>
    simp only [List.forall_mem_cons] at hlt
    obtain ⟨h₀, h₁, h₂, h₃, hrest⟩ := hlt
    obtain ⟨bytes, hbytes, rfl⟩ := Option.map_eq_some_iff.mp h
    have hfirst : (first d₀ d₁).toNat = d₀ * 4 + d₁ / 16 := toNat_ofNat_of_lt (by omega)
    have hsecond : (second d₁ d₂).toNat = d₁ % 16 * 16 + d₂ / 4 := toNat_ofNat_of_lt (by omega)
    have hthird : (third d₂ d₃).toNat = d₂ % 4 * 64 + d₃ := toNat_ofNat_of_lt (by omega)
    simp only [sextets, hfirst, hsecond, hthird, ih hrest hbytes, List.cons.injEq, and_true]
    omega

/-- Which numbers stand for bytes. -/
theorem octets_isSome_iff : ∀ ds : List ℕ, (octets ds).isSome = true ↔ ds.length % 4 ≠ 1 ∧
    (ds.length % 4 = 2 → ∀ d, ds.getLast? = some d → d % 16 = 0) ∧
    (ds.length % 4 = 3 → ∀ d, ds.getLast? = some d → d % 4 = 0)
  | [] => by simp [octets]
  | [d] => by simp [octets]
  | [d₀, d₁] => by simp [octets]
  | [d₀, d₁, d₂] => by simp [octets]
  | d₀ :: d₁ :: d₂ :: d₃ :: rest => by
    have hlen : (d₀ :: d₁ :: d₂ :: d₃ :: rest).length % 4 = rest.length % 4 := by
      rw [List.length_cons, List.length_cons, List.length_cons, List.length_cons]
      omega
    rw [octets, Option.isSome_map, octets_isSome_iff rest, hlen]
    cases rest with
    | nil => simp
    | cons d rest => simp only [List.getLast?_cons_cons]

theorem length_octets (ds : List ℕ) {s : List UInt8} (h : octets ds = some s) :
    s.length = ds.length / 4 * 3 + (ds.length % 4 + 1) / 2 := by
  induction ds using octets.induct generalizing s with
  | case1 =>
    cases h
    rfl
  | case2 d => cases h
  | case3 d₀ d₁ hover =>
    rw [octets, if_pos hover] at h
    cases h
    simp only [List.length_cons, List.length_nil]
  | case4 d₀ d₁ hover =>
    rw [octets, if_neg hover] at h
    cases h
  | case5 d₀ d₁ d₂ hover =>
    rw [octets, if_pos hover] at h
    cases h
    simp only [List.length_cons, List.length_nil]
  | case6 d₀ d₁ d₂ hover =>
    rw [octets, if_neg hover] at h
    cases h
  | case7 d₀ d₁ d₂ d₃ rest ih =>
    obtain ⟨bytes, hbytes, rfl⟩ := Option.map_eq_some_iff.mp h
    have hlen := ih hbytes
    rw [List.length_cons, List.length_cons, List.length_cons, List.length_cons, List.length_cons, List.length_cons,
      List.length_cons]
    omega

theorem length_sextets (s : List UInt8) : (sextets s).length = s.length / 3 * 4 + (s.length % 3 * 4 + 2) / 3 := by
  induction s using sextets.induct with
  | case1 => rfl
  | case2 a => simp [sextets]
  | case3 a b => simp [sextets]
  | case4 a b c rest ih =>
    rw [sextets, List.length_cons, List.length_cons, List.length_cons, List.length_cons, ih, List.length_cons,
      List.length_cons, List.length_cons]
    omega

end TdUtils.Lib.Sextets
