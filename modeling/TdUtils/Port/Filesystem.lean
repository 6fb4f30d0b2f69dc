import TdUtils.Port.FileFd

/-!
# Port.Filesystem — writing a file with a lock

`write_file` locks the path, writes, and unlocks it at the end.  It returns early when the file cannot be truncated,
written or synced, and the path stays in the set of the process.
-/

namespace TdUtils

structure WriteFileOptions where
  needSync : Bool := false
  needLock : Bool := true
deriving DecidableEq

/-- What the system answers in one call of `write_file`. -/
structure SystemCalls where
  opens : Except ℕ ℕ
  setLock : ℕ → Option ℕ
  truncate : Option ℕ
  write : Except ℕ ℕ
  sync : Option ℕ
  setUnlock : ℕ → Option ℕ

namespace Filesystem

open FileFd

def toFlags : Flags := { truncate := true, create := true, write := true }

/-- `write_file` between the two calls of `lock`. -/
def writeLocked (system : SystemCalls) (nativeFd : ℕ) (data : List UInt8) (options : WriteFileOptions) :
    Except StatusError Unit :=
  match if options.needLock then truncateToCurrentPosition system.truncate else .ok () with
  | .error error => .error error
  | .ok () =>
    match FileFd.write nativeFd system.write with
    | .error error => .error error
    | .ok written =>
      if written ≠ data.length then
        .error { message :=
          "Failed to write file: written " ++ toString written ++ " bytes instead of " ++ toString data.length }
      else if options.needSync then sync system.sync
      else .ok ()

/-- `none` is a failed check. -/
def writeFile (system : SystemCalls) (path : String) (data : List UInt8) (options : WriteFileOptions)
    (lockedFiles : Finset String) : Option (Except StatusError Unit × Finset String) :=
  match FileFd.open path toFlags system.opens with
  | .error error => some (.error error, lockedFiles)
  | .ok nativeFd =>
    match if options.needLock then lock .write path 10 system.setLock lockedFiles else some (.ok (), lockedFiles) with
    | none => none
    | some (.error error, lockedFiles) => some (.error error, lockedFiles)
    | some (.ok (), lockedFiles) =>
      match writeLocked system nativeFd data options with
      | .error error => some (.error error, lockedFiles)
      | .ok () =>
        if options.needLock then
          (lock .unlock path 10 system.setUnlock lockedFiles).map fun unlocked => (.ok (), unlocked.2)
        else some (.ok (), lockedFiles)

/-! ### What stays locked -/

variable {system : SystemCalls} {path : String} {data : List UInt8} {options : WriteFileOptions}
  {lockedFiles : Finset String}

/-- The file is truncated, written as a whole and synced. -/
def Written (system : SystemCalls) (data : List UInt8) (options : WriteFileOptions) : Prop :=
  (options.needLock = true → system.truncate = none) ∧ system.write = .ok data.length ∧
    (options.needSync = true → system.sync = none)

/-- The path is put into the set. -/
def Taken (system : SystemCalls) (path : String) (options : WriteFileOptions) (lockedFiles : Finset String) : Prop :=
  options.needLock = true ∧ path ≠ "" ∧ path ∉ lockedFiles ∧ (∃ nativeFd, system.opens = .ok nativeFd) ∧
    Locks system.setLock 0 10

theorem open_toFlags (path : String) (nativeFd : ℕ) : FileFd.open path toFlags (.ok nativeFd) = .ok nativeFd := rfl

theorem truncate_ok_iff (condition : Bool) (native : Option ℕ) :
    (if condition then truncateToCurrentPosition native else .ok ()) = .ok () ↔ (condition = true → native = none) := by
  cases condition with
  | false => exact ⟨fun _ heq => (by cases heq), fun _ => rfl⟩
  | true =>
    cases native with
    | none => exact ⟨fun _ _ => rfl, fun _ => rfl⟩
    | some errno => exact ⟨fun heq => (by cases heq), fun h => (by cases h rfl)⟩

theorem sync_ok_iff (condition : Bool) (native : Option ℕ) :
    (if condition then sync native else .ok ()) = .ok () ↔ (condition = true → native = none) := by
  cases condition with
  | false => exact ⟨fun _ heq => (by cases heq), fun _ => rfl⟩
  | true =>
    cases native with
    | none => exact ⟨fun _ _ => rfl, fun _ => rfl⟩
    | some errno => exact ⟨fun heq => (by cases heq), fun h => (by cases h rfl)⟩

/-- The three early returns. -/
theorem writeLocked_ok_iff (system : SystemCalls) (nativeFd : ℕ) (data : List UInt8) (options : WriteFileOptions) :
    writeLocked system nativeFd data options = .ok () ↔ Written system data options := by
  have htruncate := truncate_ok_iff options.needLock system.truncate
  have hsync := sync_ok_iff options.needSync system.sync
  unfold writeLocked Written
  cases htruncated : (if options.needLock then truncateToCurrentPosition system.truncate else .ok ()) with
  | error error =>
    rw [htruncated] at htruncate
    refine ⟨fun heq => (by cases heq), fun h => ?_⟩
    cases htruncate.mpr h.1
  | ok _ =>
    rw [htruncated] at htruncate
    have htruncate := htruncate.mp rfl
    dsimp only
    cases hwrite : system.write with
    | error errno => exact ⟨fun heq => (by cases heq), fun h => (by cases h.2.1)⟩
    | ok written =>
      dsimp only [FileFd.write]
      by_cases hsize : written = data.length
      · rw [if_neg (not_not.mpr hsize), hsync]
        exact ⟨fun h => ⟨htruncate, congrArg Except.ok hsize, h⟩, fun h => h.2.2⟩
      · rw [if_pos hsize]
        exact ⟨fun heq => (by cases heq), fun h => absurd (Except.ok.inj h.2.1) hsize⟩

/-- A path that is put into the set is taken out of it when the file is written. -/
theorem writeFile_of_taken (data : List UInt8) (h : Taken system path options lockedFiles) :
    (Written system data options ∧
      ∃ result, writeFile system path data options lockedFiles = some (result, lockedFiles)) ∨
    (¬Written system data options ∧
      ∃ error, writeFile system path data options lockedFiles = some (.error error, insert path lockedFiles)) := by
  obtain ⟨hneed, hpath, hmem, ⟨nativeFd, hopens⟩, hlocks⟩ := h
  have hiff := writeLocked_ok_iff system nativeFd data options
  have hlock := lock_write_of_locks hpath hmem hlocks
  unfold writeFile
  rw [hopens, open_toFlags, hneed, if_pos rfl, hlock]
  dsimp only
  cases hwritten : writeLocked system nativeFd data options with
  | error error =>
    rw [hwritten] at hiff
    exact .inr ⟨fun h => (by cases hiff.mpr h), error, rfl⟩
  | ok _ =>
    rw [hwritten] at hiff
    obtain ⟨result, hunlock⟩ :=
      lock_unlock system.setUnlock 10 (by decide) hpath (Finset.mem_insert_self path lockedFiles)
    dsimp only
    rw [if_pos rfl, hunlock, Finset.erase_insert hmem]
    exact .inl ⟨hiff.mp rfl, _, rfl⟩

/-- The set does not change when the path is not put into it. -/
theorem writeFile_of_not_taken (data : List UInt8) (h : ¬Taken system path options lockedFiles) :
    ∃ result, writeFile system path data options lockedFiles = some (result, lockedFiles) := by
  unfold writeFile
  cases hopens : system.opens with
  | error errno => exact ⟨_, rfl⟩
  | ok nativeFd =>
    rw [open_toFlags]
    cases hneed : options.needLock with
    | false =>
      rw [if_neg Bool.false_ne_true]
      dsimp only
      cases writeLocked system nativeFd data options with
      | error error => exact ⟨_, rfl⟩
      | ok _ => exact ⟨_, rfl⟩
    | true =>
      by_cases hpath : path = ""
      · rw [hpath, if_pos rfl, lock_empty .write (by decide)]
        cases setLock "" system.setLock 0 10 with
        | error error => exact ⟨_, rfl⟩
        | ok _ =>
          dsimp only
          cases writeLocked system nativeFd data options with
          | error error => exact ⟨_, rfl⟩
          | ok _ =>
            dsimp only
            rw [if_pos rfl, lock_empty .unlock (by decide)]
            exact ⟨_, rfl⟩
      · by_cases hmem : path ∈ lockedFiles
        · rw [if_pos rfl, lock_write_of_mem system.setLock 10 (by decide) hpath hmem]
          exact ⟨_, rfl⟩
        · have hlocks : ¬Locks system.setLock 0 10 := fun hlocks => h ⟨hneed, hpath, hmem, ⟨nativeFd, hopens⟩, hlocks⟩
          obtain ⟨error, hlock⟩ := lock_write_of_not_locks (by decide) hpath hmem hlocks
          rw [if_pos rfl, hlock]
          exact ⟨_, rfl⟩

/-- A path that has stayed in the set is not written with a lock any more, whatever the system answers. -/
theorem locked_out (hneed : options.needLock = true) (hpath : path ≠ "") (hmem : path ∈ lockedFiles)
    (hopens : ∃ nativeFd, system.opens = .ok nativeFd) :
    writeFile system path data options lockedFiles = some (.error { message :=
      "Can't lock file \"" ++ path ++ "\", because it is already in use by current program" }, lockedFiles) := by
  obtain ⟨nativeFd, hopens⟩ := hopens
  unfold writeFile
  rw [hopens, open_toFlags, hneed, if_pos rfl, lock_write_of_mem system.setLock 10 (by decide) hpath hmem]

/-- `write_file` leaves the set as it was exactly when it did not put the path there or the file is truncated, written
and synced. -/
theorem lockedFiles_restored_iff (system : SystemCalls) (path : String) (data : List UInt8)
    (options : WriteFileOptions) (lockedFiles : Finset String) :
    ∃ result after, writeFile system path data options lockedFiles = some (result, after) ∧
      (after = lockedFiles ↔ (Taken system path options lockedFiles → Written system data options)) := by
  by_cases htaken : Taken system path options lockedFiles
  · rcases writeFile_of_taken data htaken with ⟨hwritten, result, hcall⟩ | ⟨hwritten, error, hcall⟩
    · exact ⟨result, lockedFiles, hcall, fun _ _ => hwritten, fun _ => rfl⟩
    · refine ⟨_, _, hcall, fun hsame => ?_, fun h => absurd (h htaken) hwritten⟩
      exact absurd (hsame ▸ Finset.mem_insert_self path lockedFiles) htaken.2.2.1
  · obtain ⟨result, hcall⟩ := writeFile_of_not_taken data htaken
    exact ⟨result, lockedFiles, hcall, fun _ h => absurd h htaken, fun _ => rfl⟩

/-- The system takes two of three bytes. -/
def shortWrite : SystemCalls := ⟨.ok 3, fun _ => none, none, .ok 2, none, fun _ => none⟩

/-- The path stays locked after a short write, and the next write of it fails although the system takes all. -/
theorem short_write_locks_out :
    ∃ error after, writeFile shortWrite "a" [1, 2, 3] {} ∅ = some (.error error, after) ∧ after ≠ ∅ ∧
      ∃ error, writeFile { shortWrite with write := .ok 3 } "a" [1, 2, 3] {} after = some (.error error, after) :=
  ⟨_, {"a"}, rfl, Finset.singleton_ne_empty "a", _, rfl⟩

end Filesystem

end TdUtils
