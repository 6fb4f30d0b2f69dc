import Mathlib.Data.List.TakeWhile
import TdUtils.Buffer.Readers

/-!
# Buffer.FindBoundary — the search for a boundary in a chain of buffers

The search goes over the contiguous pieces that `prepare_read` gives, and over a copy of as many bytes as the
boundary has where its first byte was found.  `Stops` says where it comes to an end, on the bytes alone: no
cut of the stream into buffers and nothing that is appended later makes it stop earlier.
-/

namespace TdUtils

open ChainBuffer

namespace ChainBufferReader

variable (c : ChainBuffer)

/-- `sizeof(x)`, as much as a boundary may have. -/
def maxBoundary : ℕ := 70 + 4

/-- `while (!range.empty())`: whether the boundary was found, and `already_read`. -/
def findBoundaryLoop (boundary : List UInt8) : ℕ → ChainBufferReader → ℕ → Option (Bool × ℕ)
  | 0, _, _ => none
  | fuel + 1, range, alreadyRead =>
    if range.size = 0 then some (false, alreadyRead)
    else
      (range.prepareRead c).bind fun (range, ready) =>
        match ready.asSlice c.raws, boundary with
        | a :: bytes, b :: _ =>
          if a = b then
            if range.size < boundary.length then some (false, alreadyRead)
            else
              (range.advance c boundary.length maxBoundary).bind fun (_, _, x) =>
                if x.take boundary.length = boundary then some (true, alreadyRead)
                else
                  -- restoring the previous state and skipping one symbol
                  (range.advance c 1 0).bind fun (range, _) =>
                    findBoundaryLoop boundary fuel range (alreadyRead + 1)
          else
            let shift := ((a :: bytes).takeWhile (· ≠ b)).length
            (range.advance c shift 0).bind fun (range, _) =>
              findBoundaryLoop boundary fuel range (alreadyRead + shift)
        | _, _ => none  -- ready[0] or boundary[0] does not exist

/-- `find_boundary`, on a reader that is a copy. -/
def findBoundary (range : ChainBufferReader) (boundary : List UInt8) (alreadyRead : ℕ) :
    Option (Bool × ℕ) :=
  (range.advance c alreadyRead 0).bind fun (range, _) =>
    if boundary.length ≤ maxBoundary then findBoundaryLoop c boundary (range.size + 1) range alreadyRead
    else none

end ChainBufferReader

namespace ChainBuffer

/-! ### The search on bytes -/

/-- The boundary stands at the beginning. -/
def Begins (boundary rest : List UInt8) : Prop := rest.take boundary.length = boundary

instance (boundary rest : List UInt8) : Decidable (Begins boundary rest) := by
  unfold Begins
  infer_instance

/-- The search stops here: nothing is left, or the first byte of the boundary with too little behind it, or
with the boundary. -/
def Stops (boundary rest : List UInt8) : Prop :=
  rest = [] ∨ rest.head? = boundary.head? ∧ (rest.length < boundary.length ∨ Begins boundary rest)

variable {boundary rest more : List UInt8}

theorem Begins.length_le (h : Begins boundary rest) : boundary.length ≤ rest.length := by
  have hlen := congrArg List.length h
  rw [List.length_take] at hlen
  omega

theorem Begins.append (h : Begins boundary rest) (more : List UInt8) : Begins boundary (rest ++ more) := by
  unfold Begins
  rw [List.take_append_of_le_length h.length_le]
  exact h

theorem Begins.stops (hne : boundary ≠ []) (h : Begins boundary rest) : Stops boundary rest := by
  obtain ⟨b, tail, rfl⟩ := List.exists_cons_of_ne_nil hne
  rcases rest with - | ⟨a, rest⟩
  · exact Or.inl rfl
  · refine Or.inr ⟨?_, Or.inr h⟩
    unfold Begins at h
    rw [List.length_cons, List.take_succ_cons] at h
    rw [List.head?_cons, List.head?_cons, (List.cons.inj h).1]

/-- A position that was passed does not become one to stop at when more bytes come. -/
theorem not_stops_append (h : ¬ Stops boundary rest) (more : List UInt8) :
    ¬ Stops boundary (rest ++ more) := by
  obtain ⟨hne, hrest⟩ := not_or.mp h
  have hhead : (rest ++ more).head? = rest.head? := by
    obtain ⟨a, rest, rfl⟩ := List.exists_cons_of_ne_nil hne
    rfl
  rintro (hnil | ⟨hsame, hor⟩)
  · exact hne (List.append_eq_nil_iff.mp hnil).1
  · rw [hhead] at hsame
    obtain ⟨hshort, hbegins⟩ := not_or.mp fun hor => hrest ⟨hsame, hor⟩
    rcases hor with hlen | hfound
    · rw [List.length_append] at hlen
      omega
    · unfold Begins at hfound
      rw [List.take_append_of_le_length (Nat.not_lt.mp hshort)] at hfound
      exact hbegins hfound

/-- The search went from the start of `data` to position `k`. -/
structure Searched (boundary data : List UInt8) (found : Bool) (k : ℕ) : Prop where
  le : k ≤ data.length
  stops : Stops boundary (data.drop k)
  passed : ∀ j < k, ¬ Stops boundary (data.drop j)
  found : found = true ↔ Begins boundary (data.drop k)

/-- Where the search is after `n` bytes that it passes. -/
theorem Searched.skip {data : List UInt8} {found : Bool} {n k : ℕ} (hn : n ≤ data.length)
    (hpassed : ∀ j < n, ¬ Stops boundary (data.drop j)) (h : Searched boundary (data.drop n) found k) :
    Searched boundary data found (n + k) := by
  have hle := h.le
  rw [List.length_drop] at hle
  refine ⟨by omega, ?_, ?_, ?_⟩
  · rw [← List.drop_drop]
    exact h.stops
  · intro j hj
    rcases Nat.lt_or_ge j n with hlt | hge
    · exact hpassed j hlt
    · obtain ⟨i, rfl⟩ := Nat.exists_eq_add_of_le hge
      rw [← List.drop_drop]
      exact h.passed i (by omega)
  · rw [← List.drop_drop]
    exact h.found

/-- The search has one result. -/
theorem Searched.unique {data : List UInt8} {found found' : Bool} {k k' : ℕ}
    (h : Searched boundary data found k) (h' : Searched boundary data found' k') :
    found = found' ∧ k = k' := by
  have hk : k = k' := by
    rcases Nat.lt_trichotomy k k' with hlt | heq | hlt
    · exact absurd h.stops (h'.passed k hlt)
    · exact heq
    · exact absurd h'.stops (h.passed k' hlt)
  subst hk
  exact ⟨Bool.eq_iff_iff.mpr (h.found.trans h'.found.symm), rfl⟩

/-! ### The loop -/

variable {c : ChainBuffer} {range : ChainBufferReader} {cursor : Cursor} {b : UInt8} {tail : List UInt8}

/-- The bytes that a cursor sees. -/
def Cursor.data (cursor : Cursor) (stream : List UInt8) : List UInt8 := cursor.peek stream cursor.size

theorem Reads.length_data (hok : Ok c) (h : Reads c range cursor) :
    (cursor.data c.contents).length = cursor.size := by
  unfold Cursor.data Cursor.peek
  rw [List.length_take, List.length_drop]
  rcases h with h | h
  · have hlimit := h.limit_le hok
    unfold Cursor.size
    omega
  · rw [h.cursor_size, Nat.zero_min]

theorem Cursor.take_data (cursor : Cursor) (stream : List UInt8) {n : ℕ} (hn : n ≤ cursor.size) :
    (cursor.data stream).take n = cursor.peek stream n := by
  unfold data peek
  rw [List.take_take, Nat.min_eq_left hn]

theorem Cursor.size_move (cursor : Cursor) (n : ℕ) : (cursor.move n).size = cursor.size - n := by
  unfold move size
  dsimp only
  omega

theorem Cursor.data_move (cursor : Cursor) (stream : List UInt8) (n : ℕ) :
    (cursor.move n).data stream = (cursor.data stream).drop n := by
  unfold data peek
  rw [size_move, List.drop_take]
  unfold move
  rw [List.drop_drop]

theorem not_stops_of_head {a : UInt8} (h : rest.head? = some a) (hab : a ≠ b) :
    ¬ Stops (b :: tail) rest := by
  rintro (rfl | ⟨hhead, -⟩)
  · cases h
  · rw [h] at hhead
    exact hab (Option.some.inj hhead)

/-- The bytes before the first byte of the boundary in a piece are passed. -/
theorem passed_shift {data : List UInt8} {n : ℕ} {j : ℕ}
    (hj : j < ((data.take n).takeWhile (· ≠ b)).length) : ¬ Stops (b :: tail) (data.drop j) := by
  have hlt : j < (data.take n).length := Nat.lt_of_lt_of_le hj (List.takeWhile_prefix _).length_le
  have hmem : ((data.take n).takeWhile (· ≠ b))[j] ∈ (data.take n).takeWhile (· ≠ b) :=
    List.getElem_mem hj
  have hne := List.mem_takeWhile_imp hmem
  rw [(List.takeWhile_prefix _).getElem hj, List.getElem_take] at hne
  rw [List.length_take] at hlt
  have hdata : j < data.length := by omega
  have hhead : (data.drop j).head? = some data[j] := by
    rw [List.head?_drop, List.getElem?_eq_getElem]
  exact not_stops_of_head hhead (by simpa using hne)

/-- The loop ends, and it has searched what its reader sees. -/
theorem findBoundaryLoop_spec (hok : Ok c) (hlen : (b :: tail).length ≤ ChainBufferReader.maxBoundary)
    (fuel : ℕ) : ∀ {range : ChainBufferReader} {cursor : Cursor} (alreadyRead : ℕ), Reads c range cursor →
      cursor.size < fuel → ∃ found k,
        range.findBoundaryLoop c (b :: tail) fuel alreadyRead = some (found, alreadyRead + k) ∧
        Searched (b :: tail) (cursor.data c.contents) found k := by
  induction fuel with
  | zero => exact fun _ _ hfuel => absurd hfuel (Nat.not_lt_zero _)
  | succ fuel ih =>
    intro range cursor alreadyRead h hfuel
    have hdata := h.length_data hok
    rw [ChainBufferReader.findBoundaryLoop]
    by_cases hzero : range.size = 0
    · have hnil : cursor.data c.contents = [] := by
        apply List.eq_nil_of_length_eq_zero
        rw [hdata, ← h.size_eq, hzero]
      rw [if_pos hzero, hnil]
      refine ⟨false, 0, rfl, ⟨Nat.le_refl _, Or.inl rfl, by simp, ?_⟩⟩
      simp [Begins]
    rw [if_neg hzero]
    obtain ⟨r, ready, n, hprepare, hr, hn, hpos, -, -, hready⟩ := h.prepareRead hok
    have hpos : 0 < n := hpos (by rw [← h.size_eq]; omega)
    rw [hprepare, Option.bind_some]
    dsimp only
    rw [hready, ← cursor.take_data c.contents hn]
    generalize hall : cursor.data c.contents = data at hdata ⊢
    obtain ⟨a, rest, rfl⟩ := List.exists_cons_of_length_pos (by omega : 0 < data.length)
    obtain ⟨m, rfl⟩ := Nat.exists_eq_succ_of_ne_zero (Nat.pos_iff_ne_zero.mp hpos)
    rw [List.take_succ_cons]
    dsimp only
    by_cases hab : a = b
    · subst hab
      rw [if_pos rfl, hr.size_eq]
      by_cases hshort : cursor.size < (a :: tail).length
      · rw [if_pos hshort]
        refine ⟨false, 0, rfl, ⟨Nat.zero_le _, Or.inr ⟨rfl, Or.inl (hdata ▸ hshort)⟩, by simp, ?_⟩⟩
        rw [List.drop_zero]
        refine iff_of_false (by simp) fun hbegins => ?_
        have hle := hbegins.length_le
        omega
      rw [if_neg hshort]
      obtain ⟨r', hadvance, -⟩ := hr.advance hok ChainBufferReader.maxBoundary
        (n := (a :: tail).length) (by omega)
      rw [hadvance, Option.bind_some]
      dsimp only
      rw [Nat.min_eq_left hlen, ← cursor.take_data c.contents (by omega), hall, List.take_take,
        Nat.min_self]
      by_cases hbegins : (a :: rest).take (a :: tail).length = a :: tail
      · rw [if_pos hbegins]
        exact ⟨true, 0, rfl, ⟨Nat.zero_le _, Or.inr ⟨rfl, Or.inr hbegins⟩, by simp,
          iff_of_true rfl hbegins⟩⟩
      rw [if_neg hbegins]
      obtain ⟨r'', hone, hr''⟩ := hr.advance hok 0 (n := 1) (by omega)
      rw [hone, Option.bind_some]
      dsimp only
      obtain ⟨found, k, hrun, hsearched⟩ := ih (alreadyRead + 1) hr'' (by rw [cursor.size_move]; omega)
      rw [cursor.data_move, hall] at hsearched
      refine ⟨found, 1 + k, ?_, hsearched.skip (by omega) ?_⟩
      · rw [hrun, Nat.add_assoc]
      · intro j hj
        obtain rfl : j = 0 := by omega
        rintro (hnil | ⟨-, hless | hfound⟩)
        · cases hnil
        · rw [List.drop_zero, hdata] at hless
          exact hshort hless
        · exact hbegins hfound
    · rw [if_neg hab]
      have htake : (a :: rest).take (m + 1) = a :: rest.take m := List.take_succ_cons
      rw [← htake]
      have hpassed : ∀ j < (((a :: rest).take (m + 1)).takeWhile (· ≠ b)).length,
          ¬ Stops (b :: tail) ((a :: rest).drop j) := fun j hj => passed_shift hj
      have hle : (((a :: rest).take (m + 1)).takeWhile (· ≠ b)).length ≤ m + 1 :=
        Nat.le_trans (List.takeWhile_prefix _).length_le (List.length_take_le _ _)
      have hshift : 0 < (((a :: rest).take (m + 1)).takeWhile (· ≠ b)).length := by
        rw [htake, List.takeWhile_cons_of_pos (by simpa using hab)]
        exact Nat.succ_pos _
      generalize (((a :: rest).take (m + 1)).takeWhile (· ≠ b)).length = shift at hpassed hle hshift ⊢
      obtain ⟨r', hadvance, hr'⟩ := hr.advance hok 0 (n := shift) (by omega)
      rw [hadvance, Option.bind_some]
      dsimp only
      obtain ⟨found, k, hrun, hsearched⟩ := ih (alreadyRead + shift) hr' (by
        rw [cursor.size_move]
        omega)
      rw [cursor.data_move, hall] at hsearched
      refine ⟨found, shift + k, ?_, hsearched.skip (by omega) hpassed⟩
      rw [hrun, Nat.add_assoc]

/-- `find_boundary` ends, and has searched the bytes from `already_read` on. -/
theorem findBoundary_spec (hok : Ok c) (h : Reads c range cursor) (hne : boundary ≠ [])
    (hlen : boundary.length ≤ ChainBufferReader.maxBoundary) (alreadyRead : ℕ)
    (halready : alreadyRead ≤ cursor.size) :
    ∃ found k, range.findBoundary c boundary alreadyRead = some (found, alreadyRead + k) ∧
      Searched boundary ((cursor.data c.contents).drop alreadyRead) found k := by
  obtain ⟨b, tail, rfl⟩ := List.exists_cons_of_ne_nil hne
  obtain ⟨r, hadvance, hr⟩ := h.advance hok 0 halready
  obtain ⟨found, k, hrun, hsearched⟩ := findBoundaryLoop_spec hok hlen (r.size + 1) alreadyRead hr
    (by rw [hr.size_eq]; exact Nat.lt_succ_self _)
  refine ⟨found, k, ?_, ?_⟩
  · unfold ChainBufferReader.findBoundary
    rw [hadvance, Option.bind_some]
    exact (if_pos hlen).trans hrun
  · rwa [cursor.data_move] at hsearched

end ChainBuffer

end TdUtils
