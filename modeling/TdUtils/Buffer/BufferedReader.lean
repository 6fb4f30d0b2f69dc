import TdUtils.Lib.Machine

/-!
# Buffer.BufferedReader — reads through a buffer, and what a read that fails takes with it

A read first takes what is in the buffer, and reads the rest from the file, into the slice or through the buffer.
When the file fails then, the bytes that were taken are in the slice of a read that returns an error, and in the
buffer no more.  `pending` is what the buffer still holds: a read that does not fail that way returns and keeps
what was pending and what the file delivered.
-/

namespace TdUtils

open Lib

structure BufferedReader where
  buff : List UInt8
  beginPos : ℕ
  endPos : ℕ
deriving DecidableEq

namespace BufferedReader

/-- `read` of a slice of this size; `file` is what the file gives if it is read, `none` being an error. -/
structure Op where
  size : ℕ
  file : Option (List UInt8)
deriving DecidableEq

/-- What the file delivered during the call, and the bytes that are returned, `none` being an error. -/
structure Answer where
  delivered : List UInt8
  result : Option (List UInt8)
deriving DecidableEq

/-- `BufferedReader(file, buff_size)`. -/
def start (buffSize : ℕ) : BufferedReader := ⟨List.replicate buffSize 0, 0, 0⟩

def available (s : BufferedReader) : ℕ := s.endPos - s.beginPos

/-- `copy_from` the buffer, from `begin_pos_` on. -/
def copy (s : BufferedReader) (size : ℕ) : List UInt8 := (s.buff.drop s.beginPos).take size

/-- `read`; `none` is a file that returns more than it is asked for. -/
def read (s : BufferedReader) (op : Op) : Option (BufferedReader × Answer) :=
  if op.size ≤ s.available then
    some ({ s with beginPos := s.beginPos + op.size }, ⟨[], some (s.copy op.size)⟩)
  else
    let front := s.copy s.available
    let size := op.size - s.available
    let s := { s with beginPos := s.beginPos + s.available }
    if s.buff.length / 2 < size then
      match op.file with
      | none => some (s, ⟨[], none⟩)
      | some bytes => if bytes.length ≤ size then some (s, ⟨bytes, some (front ++ bytes)⟩) else none
    else
      match op.file with
      | none => some (s, ⟨[], none⟩)
      | some bytes =>
        if bytes.length ≤ s.buff.length then
          let s : BufferedReader := ⟨bytes ++ s.buff.drop bytes.length, 0, bytes.length⟩
          let left := min s.endPos size
          some ({ s with beginPos := left }, ⟨bytes, some (front ++ s.copy left)⟩)
        else none

def machine : Machine BufferedReader Op Answer := ⟨read⟩

/-- What the reads that succeed return. -/
def returned (answers : List Answer) : List UInt8 := answers.flatMap fun answer => answer.result.getD []

def delivered (answers : List Answer) : List UInt8 := answers.flatMap Answer.delivered

/-- What the buffer still holds. -/
def pending (s : BufferedReader) : List UInt8 := s.copy s.available

/-- The file does not fail in a call that has taken bytes from the buffer. -/
def Spares (s : BufferedReader) (op : Op) : Prop :=
  op.size ≤ s.available ∨ s.available = 0 ∨ op.file ≠ none

instance (s : BufferedReader) (op : Op) : Decidable (Spares s op) := inferInstanceAs (Decidable (_ ∨ _))

/-! ### One call -/

structure Inv (s : BufferedReader) : Prop where
  le : s.beginPos ≤ s.endPos
  end_le : s.endPos ≤ s.buff.length

variable {s t : BufferedReader} {op : Op} {answer : Answer}

theorem length_copy (hinv : Inv s) {size : ℕ} (h : size ≤ s.available) : (s.copy size).length = size := by
  have hle := hinv.le
  have hend := hinv.end_le
  unfold available at h
  unfold copy
  rw [List.length_take, List.length_drop]
  omega

theorem length_pending (hinv : Inv s) : s.pending.length = s.available := length_copy hinv (Nat.le_refl _)

theorem inv_start (buffSize : ℕ) : Inv (start buffSize) := ⟨Nat.le_refl _, Nat.zero_le _⟩

/-- The buffer after all of it was taken. -/
def drained (s : BufferedReader) : BufferedReader := { s with beginPos := s.beginPos + s.available }

theorem inv_drained (hinv : Inv s) : Inv s.drained := by
  have hle := hinv.le
  unfold drained available
  exact ⟨by dsimp only; omega, hinv.end_le⟩

theorem pending_drained (s : BufferedReader) : s.drained.pending = [] := by
  have hzero : s.drained.available = 0 := by
    unfold drained available
    dsimp only
    omega
  unfold pending copy
  rw [hzero, List.take_zero]

/-- What a call does to the bytes on their way: they all stay on it, or the file fails and those in the buffer go. -/
def Outcome (s : BufferedReader) (op : Op) (t : BufferedReader) (answer : Answer) : Prop :=
  Spares s op ∧ answer.result.getD [] ++ t.pending = s.pending ++ answer.delivered ∨
    ¬ Spares s op ∧ s.pending ≠ [] ∧ t.pending = [] ∧ answer = ⟨[], none⟩

theorem outcome_failed (hinv : Inv s) (henough : ¬op.size ≤ s.available) (hfile : op.file = none) :
    Outcome s op s.drained ⟨[], none⟩ := by
  by_cases hzero : s.available = 0
  · have hnil : s.pending = [] := List.eq_nil_of_length_eq_zero ((length_pending hinv).trans hzero)
    exact .inl ⟨.inr (.inl hzero), by rw [pending_drained, hnil]; rfl⟩
  · refine .inr ⟨?_, ?_, pending_drained s, rfl⟩
    · rintro (hspare | hspare | hspare)
      · exact henough hspare
      · exact hzero hspare
      · exact hspare hfile
    · exact fun hnil => hzero ((length_pending hinv).symm.trans (congrArg List.length hnil))

theorem outcome_buffered (henough : op.size ≤ s.available) :
    Outcome s op { s with beginPos := s.beginPos + op.size } ⟨[], some (s.copy op.size)⟩ := by
  refine .inl ⟨.inl henough, ?_⟩
  unfold available at henough
  unfold pending copy available
  dsimp only
  rw [Option.getD_some, List.append_nil, ← List.drop_drop, ← List.take_add]
  congr 1
  omega

/-- A call takes bytes from the buffer, or it takes them all and the file gives more, or fails. -/
theorem read_cases (hinv : Inv s) (h : s.read op = some (t, answer)) : Inv t ∧ Outcome s op t answer := by
  have hend := hinv.end_le
  unfold read at h
  split_ifs at h with henough
  · obtain ⟨rfl, rfl⟩ := Prod.mk.inj (Option.some.inj h)
    refine ⟨⟨?_, hend⟩, outcome_buffered henough⟩
    unfold available at henough
    have hle := hinv.le
    dsimp only
    omega
  · dsimp only at h
    split_ifs at h with hlarge
    · cases hfile : op.file with
      | none =>
        rw [hfile] at h
        obtain ⟨rfl, rfl⟩ := Prod.mk.inj (Option.some.inj h)
        exact ⟨inv_drained hinv, outcome_failed hinv henough hfile⟩
      | some bytes =>
        rw [hfile] at h
        dsimp only at h
        split_ifs at h with hfits
        obtain ⟨rfl, rfl⟩ := Prod.mk.inj (Option.some.inj h)
        refine ⟨inv_drained hinv, .inl ⟨.inr (.inr (by rw [hfile]; exact Option.some_ne_none _)), ?_⟩⟩
        have hempty := pending_drained s
        unfold drained at hempty
        rw [hempty, List.append_nil]
        rfl
    · cases hfile : op.file with
      | none =>
        rw [hfile] at h
        obtain ⟨rfl, rfl⟩ := Prod.mk.inj (Option.some.inj h)
        exact ⟨inv_drained hinv, outcome_failed hinv henough hfile⟩
      | some bytes =>
        rw [hfile] at h
        dsimp only at h
        split_ifs at h with hfits
        obtain ⟨rfl, rfl⟩ := Prod.mk.inj (Option.some.inj h)
        refine ⟨⟨Nat.min_le_left _ _, ?_⟩, .inl ⟨.inr (.inr (by rw [hfile]; exact Option.some_ne_none _)), ?_⟩⟩
        · dsimp only
          rw [List.length_append]
          exact Nat.le_add_right _ _
        · unfold pending copy available
          dsimp only
          rw [Option.getD_some, List.append_assoc, List.drop_zero]
          congr 1
          generalize hleft : min bytes.length (op.size - (s.endPos - s.beginPos)) = left
          have hsplit : left + (bytes.length - left) = bytes.length := by omega
          rw [← List.take_add, hsplit, List.take_left']
          rfl

/-! ### Runs -/

/-- What the reads return and the buffer holds is what the file delivered, or less if a read has failed with
bytes from the buffer. -/
theorem run_inv (buffSize : ℕ) (ops : List Op) : ∀ {s : BufferedReader} {answers : List Answer},
    machine.run (start buffSize) ops = some (s, answers) → Inv s ∧
      (machine.Along Spares (start buffSize) ops ∧ returned answers ++ s.pending = delivered answers ∨
        ¬ machine.Along Spares (start buffSize) ops ∧
          (returned answers ++ s.pending).length < (delivered answers).length) := by
  induction ops using List.reverseRecOn with
  | nil =>
    intro s answers h
    cases h
    exact ⟨inv_start buffSize, .inl ⟨trivial, rfl⟩⟩
  | append_singleton ops op ih =>
    intro t answers h
    obtain ⟨s, before, after, hrun, hlast, rfl⟩ := Machine.run_append_inv h
    obtain ⟨t', answer, rest, hread, hnil, rfl⟩ := Machine.run_cons_inv hlast
    cases hnil
    obtain ⟨hinv, hbefore⟩ := ih hrun
    obtain ⟨hinv', hcase⟩ := read_cases hinv hread
    have hreturned : returned (before ++ [answer]) = returned before ++ answer.result.getD [] := by
      unfold returned
      rw [List.flatMap_append, List.flatMap_singleton]
    have hdelivered : delivered (before ++ [answer]) = delivered before ++ answer.delivered := by
      unfold delivered
      rw [List.flatMap_append, List.flatMap_singleton]
    refine ⟨hinv', ?_⟩
    rw [hreturned, hdelivered, List.append_assoc]
    rcases hbefore with ⟨halong, heq⟩ | ⟨halong, hlt⟩ <;> rcases hcase with ⟨hspares, hstep⟩ | ⟨hspares, hne, hnil, rfl⟩
    · exact .inl ⟨Machine.along_concat_of halong hrun hspares, by rw [hstep, ← List.append_assoc, heq]⟩
    · refine .inr ⟨fun hall => hspares (Machine.along_concat hall hrun), ?_⟩
      have hpos := List.length_pos_iff.mpr hne
      rw [← heq, hnil, Option.getD_none]
      simp only [List.length_append, List.length_nil]
      omega
    · refine .inr ⟨fun hall => halong (Machine.along_dropLast hall), ?_⟩
      rw [hstep]
      simp only [List.length_append] at hlt ⊢
      omega
    · refine .inr ⟨fun hall => halong (Machine.along_dropLast hall), ?_⟩
      rw [hnil, Option.getD_none]
      simp only [List.length_append, List.length_nil] at hlt ⊢
      omega

/-- In every run nothing is lost if and only if the file never fails in a read that has taken bytes from the buffer,
and then what the reads return is the front of what the file delivered. -/
theorem returned_delivered (buffSize : ℕ) (ops : List Op) {s : BufferedReader} {answers : List Answer}
    (h : machine.run (start buffSize) ops = some (s, answers)) :
    (returned answers ++ s.pending = delivered answers ↔ machine.Along Spares (start buffSize) ops) ∧
      (machine.Along Spares (start buffSize) ops → returned answers <+: delivered answers) := by
  obtain ⟨-, ⟨halong, heq⟩ | ⟨halong, hlt⟩⟩ := run_inv buffSize ops h
  · exact ⟨iff_of_true heq halong, fun _ => ⟨s.pending, heq⟩⟩
  · refine ⟨iff_of_false (fun heq => ?_) halong, fun hall => absurd hall halong⟩
    rw [heq] at hlt
    exact absurd hlt (Nat.lt_irrefl _)

/-- A buffer of four bytes; the file gives three bytes, fails once, and goes on. -/
theorem returned_delivered_failed :
    (returned [⟨[1, 2, 3], some [1]⟩, ⟨[], some [2, 3]⟩, ⟨[], none⟩, ⟨[4], some [4]⟩] ++ pending ⟨[4, 2, 3, 0], 1, 1⟩ =
        delivered [⟨[1, 2, 3], some [1]⟩, ⟨[], some [2, 3]⟩, ⟨[], none⟩, ⟨[4], some [4]⟩] ↔
      machine.Along Spares (start 4) [⟨1, some [1, 2, 3]⟩, ⟨2, none⟩, ⟨1, none⟩, ⟨2, some [4]⟩]) ∧
    (machine.Along Spares (start 4) [⟨1, some [1, 2, 3]⟩, ⟨2, none⟩, ⟨1, none⟩, ⟨2, some [4]⟩] →
      returned [⟨[1, 2, 3], some [1]⟩, ⟨[], some [2, 3]⟩, ⟨[], none⟩, ⟨[4], some [4]⟩] <+:
        delivered [⟨[1, 2, 3], some [1]⟩, ⟨[], some [2, 3]⟩, ⟨[], none⟩, ⟨[4], some [4]⟩]) :=
  returned_delivered 4 _ (by decide)

/-- A read that fails behind two bytes of the buffer loses them. -/
theorem failed_read_loses : ∃ s answers,
    machine.run (start 4) [⟨1, some [1, 2, 3]⟩, ⟨4, none⟩, ⟨1, some [4]⟩] = some (s, answers) ∧
      ¬ returned answers <+: delivered answers :=
  ⟨⟨[4, 2, 3, 0], 1, 1⟩, [⟨[1, 2, 3], some [1]⟩, ⟨[], none⟩, ⟨[4], some [4]⟩], by decide, by decide⟩

end BufferedReader

end TdUtils
