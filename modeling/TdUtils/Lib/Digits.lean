import Mathlib.Algebra.Group.Nat.Defs
import Mathlib.Data.List.Induction
import TdUtils.Lib.Bits

/-!
# Lib.Digits — the bits of digits of one width as digits of another

`number w ds` is what the digits `ds` of `w` bits stand for, the highest first.  An accumulator of `W` bits takes digits
in and gives digits of another width out: it has the lowest bits of the number, and `Regroup` says what it gave out.
`Padded` is what is reached at the end, with zero bits behind the last digit.
-/

namespace TdUtils.Lib.Digits

def number (w : ℕ) (ds : List ℕ) : ℕ := ds.foldl (fun n d => n * 2 ^ w + d) 0

variable {a b w W c n k d left pad : ℕ} {ds es xs ys : List ℕ}

@[simp] theorem number_nil (w : ℕ) : number w [] = 0 := rfl

@[simp] theorem number_concat (w : ℕ) (ds : List ℕ) (d : ℕ) :
    number w (ds ++ [d]) = number w ds * 2 ^ w + d := by
  unfold number
  rw [List.foldl_append, List.foldl_cons, List.foldl_nil]

/-- Digits of one width are known from how many they are and their number. -/
theorem number_inj (hlen : xs.length = ys.length) (hx : ∀ x ∈ xs, x < 2 ^ w) (hy : ∀ y ∈ ys, y < 2 ^ w)
    (h : number w xs = number w ys) : xs = ys := by
  induction xs using List.reverseRecOn generalizing ys with
  | nil => exact (List.eq_nil_of_length_eq_zero hlen.symm).symm
  | append_singleton xs x ih =>
    cases ys using List.reverseRecOn with
    | nil =>
      rw [List.length_append, List.length_singleton] at hlen
      exact absurd hlen (Nat.succ_ne_zero _)
    | append_singleton ys y _ =>
      rw [List.length_append, List.length_append, List.length_singleton, List.length_singleton,
        Nat.add_right_cancel_iff] at hlen
      obtain ⟨hxs, hx⟩ := List.forall_mem_append.mp hx
      obtain ⟨hys, hy⟩ := List.forall_mem_append.mp hy
      have hx := hx x List.mem_cons_self
      have hy := hy y List.mem_cons_self
      rw [number_concat, number_concat] at h
      have hmod := congrArg (· % 2 ^ w) h
      simp only [Nat.mul_add_mod_self_right, Nat.mod_eq_of_lt hx, Nat.mod_eq_of_lt hy] at hmod
      rw [hmod] at h ⊢
      rw [ih hlen hxs hys (Nat.eq_of_mul_eq_mul_right (Nat.two_pow_pos w) (Nat.add_right_cancel h))]

/-! ### The accumulator -/

/-- A digit is taken in; what is shifted out is lost. -/
theorem shift_in (ha : a ≤ W) (hd : d < 2 ^ a) :
    (n % 2 ^ W) <<< a % 2 ^ W ||| d = (n * 2 ^ a + d) % 2 ^ W := by
  have hsplit : (2 : ℕ) ^ W = 2 ^ a * 2 ^ (W - a) := by rw [← Nat.pow_add, Nat.add_sub_cancel' ha]
  have hlow : n * 2 ^ a % 2 ^ W = n % 2 ^ (W - a) * 2 ^ a := by
    rw [hsplit, Nat.mul_comm n, Nat.mul_mod_mul_left, Nat.mul_comm]
  have hshift : (n % 2 ^ W) <<< a % 2 ^ W = n % 2 ^ (W - a) * 2 ^ a := by
    rw [Nat.shiftLeft_eq, Nat.mod_mul_mod, hlow]
  have hbound : n % 2 ^ (W - a) * 2 ^ a + d < 2 ^ W := by
    have hlt := Nat.mod_lt n (Nat.two_pow_pos (W - a))
    calc n % 2 ^ (W - a) * 2 ^ a + d < (n % 2 ^ (W - a) + 1) * 2 ^ a := by
          rw [Nat.add_mul, Nat.one_mul]
          exact Nat.add_lt_add_left hd _
      _ ≤ 2 ^ (W - a) * 2 ^ a := Nat.mul_le_mul_right _ hlt
      _ = 2 ^ W := by rw [hsplit, Nat.mul_comm]
  rw [hshift, Bits.or_eq_add a (Nat.mul_mod_left _ _) hd, Nat.add_mod, hlow, Nat.mod_eq_of_lt
    (lt_of_le_of_lt (Nat.le_add_left d _) hbound), Nat.mod_eq_of_lt hbound]

/-- A digit is given out of the bits that are still there. -/
theorem shift_out (hk : k + b ≤ W) : (n % 2 ^ W) >>> k &&& 2 ^ b - 1 = n / 2 ^ k % 2 ^ b := by
  have hsplit : (2 : ℕ) ^ W = 2 ^ k * 2 ^ (W - k) := by rw [← Nat.pow_add]; congr 1; omega
  have hdvd : (2 : ℕ) ^ b ∣ 2 ^ (W - k) := Nat.pow_dvd_pow 2 (by omega)
  rw [Bits.and_low, Nat.shiftRight_eq_div_pow, hsplit, Nat.mod_mul_right_div_self, Nat.mod_mod_of_dvd _ hdvd]

/-- `es` are the digits given out of `ds`, and the last `left` bits are not given out yet. -/
structure Regroup (a b : ℕ) (ds es : List ℕ) (left : ℕ) : Prop where
  bits : a * ds.length = b * es.length + left
  number_eq : number a ds / 2 ^ left = number b es
  lt : ∀ e ∈ es, e < 2 ^ b

theorem Regroup.nil (a b : ℕ) : Regroup a b [] [] 0 := ⟨by simp, by simp, List.forall_mem_nil _⟩

theorem Regroup.push (h : Regroup a b ds es left) (hd : d < 2 ^ a) :
    Regroup a b (ds ++ [d]) es (left + a) := by
  refine ⟨?_, ?_, h.lt⟩
  · rw [List.length_append, List.length_singleton, Nat.mul_add, h.bits, Nat.mul_one, Nat.add_assoc]
  · rw [number_concat, Nat.add_comm left, Nat.pow_add, ← Nat.div_div_eq_div_mul,
      Nat.mul_comm, Nat.mul_add_div (Nat.two_pow_pos a), Nat.div_eq_of_lt hd, Nat.add_zero, h.number_eq]

theorem Regroup.pull (h : Regroup a b ds es left) (hb : b ≤ left) :
    Regroup a b ds (es ++ [number a ds / 2 ^ (left - b) % 2 ^ b]) (left - b) := by
  refine ⟨?_, ?_, List.forall_mem_append.mpr ⟨h.lt, List.forall_mem_singleton.mpr ?_⟩⟩
  · rw [List.length_append, List.length_singleton, Nat.mul_add, h.bits]
    omega
  · have hsplit : (2 : ℕ) ^ left = 2 ^ (left - b) * 2 ^ b := by
      rw [← Nat.pow_add, Nat.sub_add_cancel hb]
    rw [number_concat, ← h.number_eq, hsplit, ← Nat.div_div_eq_div_mul, Nat.mul_comm (_ / _ / _),
      Nat.div_add_mod]
  · exact Nat.mod_lt _ (Nat.two_pow_pos b)

/-! ### Everything is given out -/

/-- `ys` are the bits of `xs` and `pad` zero bits behind them. -/
structure Padded (a b : ℕ) (xs ys : List ℕ) (pad : ℕ) : Prop where
  bits : b * ys.length = a * xs.length + pad
  number_eq : number b ys = number a xs * 2 ^ pad

/-- What is left is a digit with zero bits behind it. -/
theorem Regroup.finish (h : Regroup a b ds es left) (hlt : left < b) :
    Padded a b ds (if left = 0 then es else es ++ [number a ds * 2 ^ (b - left) % 2 ^ b])
      (if left = 0 then 0 else b - left) := by
  by_cases hzero : left = 0
  · rw [if_pos hzero, if_pos hzero]
    refine ⟨?_, ?_⟩
    · rw [h.bits, hzero]
      rfl
    · rw [← h.number_eq, hzero, Nat.pow_zero, Nat.div_one, Nat.mul_one]
  · rw [if_neg hzero, if_neg hzero]
    refine ⟨?_, ?_⟩
    · rw [List.length_append, List.length_singleton, Nat.mul_add, h.bits]
      omega
    · have hsplit : (2 : ℕ) ^ b = 2 ^ left * 2 ^ (b - left) := by
        rw [← Nat.pow_add]
        congr 1
        omega
      rw [number_concat, ← h.number_eq, hsplit, Nat.mul_mod_mul_right, ← Nat.mul_assoc, ← Nat.add_mul,
        Nat.mul_comm (_ / _), Nat.div_add_mod]

/-- Where the bits that are left are zero, they are the padding. -/
theorem Regroup.padded (h : Regroup a b ds es left) (hzero : number a ds % 2 ^ left = 0) :
    Padded b a es ds left :=
  ⟨h.bits, by rw [← h.number_eq, Nat.div_mul_cancel (Nat.dvd_of_mod_eq_zero hzero)]⟩

theorem Padded.div_eq (h : Padded a b xs ys pad) : number b ys / 2 ^ pad = number a xs := by
  rw [h.number_eq, Nat.mul_div_cancel _ (Nat.two_pow_pos pad)]

theorem Padded.mod_eq (h : Padded a b xs ys pad) : number b ys % 2 ^ pad = 0 := by
  rw [h.number_eq, Nat.mul_mod_left]

/-- What is read of padded digits is what they were made of, when less than one digit is padding. -/
theorem Padded.read (h : Padded a b xs ys pad) (hg : Regroup b a ys es left) (hpad : pad < a) (hleft : left < a)
    (hxs : ∀ x ∈ xs, x < 2 ^ a) : es = xs ∧ number b ys % 2 ^ left = 0 := by
  have hbits := h.bits.symm.trans hg.bits
  have hlen : es.length = xs.length := by
    have hpos : 0 < a := by omega
    have hdiv := congrArg (· / a) hbits
    simp only [Nat.mul_add_div hpos, Nat.div_eq_of_lt hpad, Nat.div_eq_of_lt hleft, Nat.add_zero] at hdiv
    exact hdiv.symm
  obtain rfl : pad = left := by
    rw [hlen] at hbits
    exact Nat.add_left_cancel hbits
  refine ⟨number_inj hlen hg.lt hxs ?_, h.mod_eq⟩
  rw [← hg.number_eq, h.div_eq]

/-- Digits with less than one digit of padding are known from what they are made of. -/
theorem Padded.unique {pad' : ℕ} (h : Padded a b xs ys pad) (h' : Padded a b xs es pad') (hpad : pad < b)
    (hpad' : pad' < b) (hys : ∀ y ∈ ys, y < 2 ^ b) (hes : ∀ e ∈ es, e < 2 ^ b) : ys = es := by
  have hle : ∀ {m n p p' : ℕ}, b * m = a * xs.length + p → b * n = a * xs.length + p' → p' < b → n ≤ m := by
    intro m n p p' hm hn hp
    by_contra hlt
    have hmul := Nat.mul_le_mul_left b (Nat.lt_of_not_le hlt)
    rw [Nat.succ_eq_add_one, Nat.mul_add] at hmul
    omega
  have hlen : ys.length = es.length := Nat.le_antisymm (hle h'.bits h.bits hpad) (hle h.bits h'.bits hpad')
  obtain rfl : pad = pad' := by
    have hbits := h.bits.symm.trans (hlen ▸ h'.bits)
    exact Nat.add_left_cancel hbits
  exact number_inj hlen hys hes (h.number_eq.trans h'.number_eq.symm)

end TdUtils.Lib.Digits
