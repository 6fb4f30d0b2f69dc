import Mathlib.Logic.Equiv.Basic
import Mathlib.Order.Basic
import Mathlib.Order.Lattice

/-!
# Lib.KAryHeap — heap order around a hole

The keys of an array are a function from positions, `none` past the end.  A sift swaps one item along a
path; `Around` is the heap order without the position of the item, and each swap moves that position.
`Around.up` and `Around.down` are the steps of the two sifts, `Around.heaped` ends both.
-/

namespace TdUtils.Lib.KAryHeap

universe u

variable {α : Type u} {K : ℕ} {f : ℕ → Option α} {i j p m : ℕ}

/-- The keys after the items at two positions are swapped. -/
def swapped (f : ℕ → Option α) (p q : ℕ) : ℕ → Option α := fun i => f (Equiv.swap p q i)

@[simp] theorem swapped_left : swapped f p m p = f m := by simp [swapped]

@[simp] theorem swapped_right : swapped f p m m = f p := by simp [swapped]

theorem swapped_of_ne (hp : i ≠ p) (hm : i ≠ m) : swapped f p m i = f i := by
  simp [swapped, Equiv.swap_apply_of_ne_of_ne hp hm]

variable [LinearOrder α]

/-- The parent of a position other than 0. -/
def parent (K c : ℕ) : ℕ := (c - 1) / K

theorem parent_lt {c : ℕ} (hc : 0 < c) : parent K c < c := by
  have hle : (c - 1) / K ≤ c - 1 := Nat.div_le_self _ _
  unfold parent
  omega

theorem parent_eq_iff {c : ℕ} (hK : 1 ≤ K) (hc : 0 < c) :
    parent K c = p ↔ p * K + 1 ≤ c ∧ c < p * K + 1 + K := by
  unfold parent
  rw [Nat.div_eq_iff (by omega)]
  omega

/-- The key at `i` is at most the key at `j`, if both are there. -/
def Le (f : ℕ → Option α) (i j : ℕ) : Prop := ∀ a b, f i = some a → f j = some b → a ≤ b

theorem Le.trans (h1 : Le f i j) (h2 : Le f j m) (hj : ∃ b, f j = some b) : Le f i m := by
  obtain ⟨b, hb⟩ := hj
  exact fun a c ha hc => (h1 a b ha hb).trans (h2 b c hb hc)

theorem Le.of_eq {g : ℕ → Option α} {i' j' : ℕ} (h : Le f i j) (hi : g i' = f i) (hj : g j' = f j) :
    Le g i' j' :=
  fun a b ha hb => h a b (hi ▸ ha) (hj ▸ hb)

/-- No key is less than the key of its parent. -/
def Heaped (K : ℕ) (f : ℕ → Option α) : Prop := ∀ c, 0 < c → Le f (parent K c) c

/-- Heap order once position `p` is left out and its children are given to its parent. -/
structure Around (K : ℕ) (f : ℕ → Option α) (p : ℕ) : Prop where
  edge : ∀ c, 0 < c → c ≠ p → parent K c ≠ p → Le f (parent K c) c
  bypass : 0 < p → ∀ c, 0 < c → parent K c = p → Le f (parent K p) c

/-- The key at `p` is not above the keys of its children. -/
def Below (K : ℕ) (f : ℕ → Option α) (p : ℕ) : Prop := ∀ c, 0 < c → parent K c = p → Le f p c

/-- The key at `p` is not below the key of its parent. -/
def Above (K : ℕ) (f : ℕ → Option α) (p : ℕ) : Prop := 0 < p → Le f (parent K p) p

theorem Heaped.around (h : Heaped K f) (hp : ∃ a, f p = some a) : Around K f p where
  edge := fun c hc _ _ => h c hc
  bypass := fun hp0 c hc hcp => (h p hp0).trans (hcp ▸ h c hc) hp

/-- The key at the hole does not matter. -/
theorem Around.congr {g : ℕ → Option α} (h : Around K f p) (hg : ∀ i, i ≠ p → g i = f i) :
    Around K g p where
  edge := fun c hc hcp hpar => (h.edge c hc hcp hpar).of_eq (hg _ hpar) (hg _ hcp)
  bypass := fun hp c hc hcp => by
    have hlt := parent_lt (K := K) hp
    have hlt' := parent_lt (K := K) hc
    exact (h.bypass hp c hc hcp).of_eq (hg _ (by omega)) (hg _ (by omega))

/-- A part of a heap is a heap. -/
theorem Heaped.sub {g : ℕ → Option α} (h : Heaped K f) (hg : ∀ i, g i = none ∨ g i = f i) :
    Heaped K g := by
  intro c hc a b ha hb
  have hpar := (hg (parent K c)).resolve_left (by simp [ha])
  have hcc := (hg c).resolve_left (by simp [hb])
  exact h c hc a b (hpar ▸ ha) (hcc ▸ hb)

theorem Heaped.below (h : Heaped K f) : Below K f p := fun c hc hcp => hcp ▸ h c hc

theorem Heaped.above (h : Heaped K f) : Above K f p := fun hp => h p hp

theorem Around.heaped (h : Around K f p) (hb : Below K f p) (ha : Above K f p) : Heaped K f := by
  intro c hc
  by_cases hcp : c = p
  · exact hcp ▸ ha (hcp ▸ hc)
  by_cases hpar : parent K c = p
  · exact hpar ▸ hb c hc hpar
  · exact h.edge c hc hcp hpar

/-- The root is a minimum. -/
theorem Heaped.root_le (h : Heaped K f) (hdown : ∀ i j, i ≤ j → (∃ b, f j = some b) → ∃ a, f i = some a)
    (c : ℕ) (hc : ∃ b, f c = some b) : Le f 0 c := by
  induction c using Nat.strongRecOn with
  | ind c ih =>
    rcases Nat.eq_zero_or_pos c with rfl | hpos
    · intro a b ha hb
      rw [ha] at hb
      exact (Option.some.inj hb).le
    · have hlt := parent_lt (K := K) hpos
      have hpar := hdown _ c (Nat.le_of_lt hlt) hc
      exact (ih _ hlt hpar).trans (h c hpos) hpar

/-! ### Steps -/

/-- The item at `p` is not above its parent and goes up. -/
theorem Around.up (h : Around K f p) (hp : 0 < p) (hle : Le f p (parent K p))
    (hdef : ∃ b, f (parent K p) = some b) :
    Around K (swapped f p (parent K p)) (parent K p) ∧
      Below K (swapped f p (parent K p)) (parent K p) := by
  have hlt := parent_lt (K := K) hp
  refine ⟨⟨fun c hc hcq hparq => ?_, fun hq c hc hparq => ?_⟩, fun c hc hparq => ?_⟩
  · have hcp : c ≠ p := fun hcp => hparq (hcp ▸ rfl)
    by_cases hpar : parent K c = p
    · rw [hpar]
      exact (h.bypass hp c hc hpar).of_eq swapped_left (swapped_of_ne hcp hcq)
    · exact (h.edge c hc hcp hpar).of_eq (swapped_of_ne hpar hparq) (swapped_of_ne hcp hcq)
  · -- the parent of the hole is above the old item of the hole, and that above `c`
    have hqq := parent_lt (K := K) hq
    have habove : Le f (parent K (parent K p)) (parent K p) :=
      h.edge (parent K p) hq (by omega) (by omega)
    have hleft : swapped f p (parent K p) (parent K (parent K p)) = f (parent K (parent K p)) :=
      swapped_of_ne (by omega) (by omega)
    by_cases hcp : c = p
    · rw [hcp]
      exact habove.of_eq hleft swapped_left
    · have hedge : Le f (parent K p) c := hparq ▸ h.edge c hc hcp (by omega)
      have hcq := parent_lt (K := K) hc
      exact (habove.trans hedge hdef).of_eq hleft (swapped_of_ne hcp (by omega))
  · have hcq := parent_lt (K := K) hc
    by_cases hcp : c = p
    · rw [hcp]
      exact hle.of_eq swapped_right swapped_left
    · have hedge : Le f (parent K p) c := hparq ▸ h.edge c hc hcp (by omega)
      exact (hle.trans hedge hdef).of_eq swapped_right (swapped_of_ne hcp (by omega))

/-- The least child `m` of `p` is not above the item at `p`, which goes down. -/
theorem Around.down (h : Around K f p) (hm : 0 < m) (hpar : parent K m = p) (hle : Le f m p)
    (hmin : ∀ c, 0 < c → parent K c = p → Le f m c) :
    Around K (swapped f p m) m ∧ Above K (swapped f p m) m := by
  have hlt := parent_lt (K := K) hm
  refine ⟨⟨fun c hc hcm hparm => ?_, fun _ c hc hparm => ?_⟩, fun _ => ?_⟩
  · by_cases hcp : c = p
    · have hcc := parent_lt (K := K) hc
      rw [hcp] at hc hparm hcc ⊢
      exact (h.bypass hc m hm hpar).of_eq (swapped_of_ne (by omega) hparm) swapped_left
    by_cases hparp : parent K c = p
    · rw [hparp]
      exact (hmin c hc hparp).of_eq swapped_left (swapped_of_ne hcp hcm)
    · exact (h.edge c hc hcp hparp).of_eq (swapped_of_ne hparp hparm) (swapped_of_ne hcp hcm)
  · have hcc := parent_lt (K := K) hc
    have hedge : Le f m c := hparm ▸ h.edge c hc (by omega) (by omega)
    rw [hpar]
    exact hedge.of_eq swapped_left (swapped_of_ne (by omega) (by omega))
  · rw [hpar]
    exact hle.of_eq swapped_left swapped_right

end TdUtils.Lib.KAryHeap
