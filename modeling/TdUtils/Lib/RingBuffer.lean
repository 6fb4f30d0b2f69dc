import Mathlib.Data.List.Basic
import Mathlib.Data.Nat.ModEq

/-!
# Lib.RingBuffer — a stream of which a ring keeps the end

Everything that was written into a ring of `size` cells, one behind the other, is a stream.  `Puts` is one write at a
place of the stream, however it is made; a ring that got nothing else holds the last `size` cells of the stream, each at
its place modulo the size.
-/

namespace TdUtils.Lib.RingBuffer

universe u

variable {α : Type u} {size p : ℕ} {ring ring' : ℕ → α} {stream xs : List α}

/-- From `ring` to `ring'` the cells from `p` on become `xs`, and no other cell changes. -/
structure Puts (size : ℕ) (ring ring' : ℕ → α) (p : ℕ) (xs : List α) : Prop where
  put : ∀ j (h : j < xs.length), ring' ((p + j) % size) = xs[j]
  kept : ∀ q < size, (∀ j < xs.length, (p + j) % size ≠ q) → ring' q = ring q

/-- The cells at the end of the stream are in the ring. -/
def Holds (size : ℕ) (ring : ℕ → α) (stream : List α) : Prop :=
  ∀ i (h : i < stream.length), stream.length ≤ i + size → ring (i % size) = stream[i]

/-- So many cells from a place of the stream on. -/
def cells (size : ℕ) (ring : ℕ → α) (p n : ℕ) : List α := (List.range n).map fun j => ring ((p + j) % size)

theorem Puts.congr {p' : ℕ} (h : Puts size ring ring' p xs) (hp : p % size = p' % size) :
    Puts size ring ring' p' xs := by
  have hplace : ∀ j, (p' + j) % size = (p + j) % size := fun j => by rw [Nat.add_mod, ← hp, ← Nat.add_mod]
  exact ⟨fun j hj => by rw [hplace, h.put j hj], fun q hq hnone => h.kept q hq fun j hj => hplace j ▸ hnone j hj⟩

/-- A counter of the cells may wrap around at a multiple of the size. -/
theorem cells_mod {m : ℕ} (h : size ∣ m) (ring : ℕ → α) (p n : ℕ) :
    cells size ring (p % m) n = cells size ring p n := by
  unfold cells
  apply List.map_congr_left
  intro j _
  rw [Nat.add_mod, Nat.mod_mod_of_dvd _ h, ← Nat.add_mod]

theorem holds_nil (size : ℕ) (ring : ℕ → α) : Holds size ring [] := fun i h => absurd h (Nat.not_lt_zero i)

/-- Two places less than the size apart are two cells. -/
theorem mod_ne {i k : ℕ} (hlt : i < k) (hnear : k < i + size) : k % size ≠ i % size := by
  intro h
  obtain ⟨d, rfl⟩ := Nat.exists_eq_add_of_lt hlt
  have hdvd : size ∣ i + d + 1 - i := (Nat.modEq_iff_dvd' (by omega)).mp h.symm
  have := Nat.le_of_dvd (by omega) hdvd
  omega

theorem Holds.append (h : Holds size ring stream) (hputs : Puts size ring ring' stream.length xs) :
    Holds size ring' (stream ++ xs) := by
  intro i hi hnear
  rw [List.length_append] at hi hnear
  by_cases hold : i < stream.length
  · -- a cell of the stream before is not written
    have hsize : 0 < size := by omega
    rw [List.getElem_append_left hold, hputs.kept (i % size) (Nat.mod_lt i hsize) fun j hj =>
      mod_ne (by omega) (by omega)]
    exact h i hold (by omega)
  · obtain ⟨j, rfl⟩ := Nat.exists_eq_add_of_le (Nat.le_of_not_lt hold)
    rw [hputs.put j (by omega), List.getElem_append_right (by omega)]
    simp

/-- A part of the stream that lies near its end is read at its place. -/
theorem Holds.cells_eq {a b : List α} (h : Holds size ring (a ++ (xs ++ b))) (hnear : (xs ++ b).length ≤ size) :
    cells size ring a.length xs.length = xs := by
  rw [List.length_append] at hnear
  apply List.ext_getElem
  · simp [cells]
  · intro j h1 h2
    have hj := h (a.length + j) (by simp; omega) (by simp; omega)
    rw [List.getElem_append_right (by omega), List.getElem_append_left (by omega)] at hj
    simpa [cells] using hj

end TdUtils.Lib.RingBuffer
