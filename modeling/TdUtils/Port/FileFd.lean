import Mathlib.Data.Finset.Basic

/-!
# Port.FileFd — a file that is open, and the paths that the process has locked

A locked path is recorded in a set of the process beside the lock of the system.  What the system answers to its
calls is given: `none` is a success, `some errno` a failure; a call that is repeated on `EINTR` is its last answer.
Nobody else changes the set during a call.
-/

namespace TdUtils

inductive ErrorType where
  | general
  | os
deriving DecidableEq

/-- An error `Status`. -/
structure StatusError where
  errorType : ErrorType := .general
  code : ℕ := 0
  message : String
deriving DecidableEq

def osError (errno : ℕ) (message : String) : StatusError := ⟨.os, errno, message⟩

namespace FileFd

inductive LockFlags where
  | write
  | read
  | unlock
deriving DecidableEq

/-- The flags with which a file is opened. -/
structure Flags where
  write : Bool := false
  read : Bool := false
  truncate : Bool := false
  create : Bool := false
  append : Bool := false
  createNew : Bool := false
  direct : Bool := false
  winStat : Bool := false
deriving DecidableEq

def printFlags (flags : Flags) : String :=
  (if flags.create then "opened/created " else if flags.createNew then "created " else "opened ") ++
  (if flags.write && flags.read then
    if flags.append then "for reading and appending" else "for reading and writing"
  else if flags.write then
    if flags.append then "for appending" else "for writing"
  else if flags.read then "for reading"
  else "for nothing") ++
  (if flags.truncate then " with truncation" else "") ++
  (if flags.direct then " for direct io" else "") ++
  (if flags.winStat then " for stat" else "")

def eagain : ℕ := 11

/-- `native` is what the system answers to `open`: a descriptor, or an error. -/
def «open» (filepath : String) (flags : Flags) (native : Except ℕ ℕ) : Except StatusError ℕ :=
  if !flags.write && !flags.read then
    .error { message := "File \"" ++ filepath ++ "\" can't be " ++ printFlags flags }
  else
    match native with
    | .error errno => .error (osError errno ("File \"" ++ filepath ++ "\" can't be " ++ printFlags flags))
    | .ok nativeFd => .ok nativeFd

def write (nativeFd : ℕ) (native : Except ℕ ℕ) : Except StatusError ℕ :=
  match native with
  | .error errno => .error (osError errno ("Write to [fd:" ++ toString nativeFd ++ "] has failed"))
  | .ok bytesWritten => .ok bytesWritten

def sync (native : Option ℕ) : Except StatusError Unit :=
  match native with
  | some errno => .error (osError errno "Sync failed")
  | none => .ok ()

def truncateToCurrentPosition (native : Option ℕ) : Except StatusError Unit :=
  match native with
  | some errno => .error (osError errno "Truncate failed")
  | none => .ok ()

/-! ### Locks -/

/-- Insert a path, and answer with the tries that are left. -/
def createLocalLock (path : String) (lockedFiles : Finset String) : ℕ → Except StatusError ℕ × Finset String
  | maxTries + 2 =>
    if path ∉ lockedFiles then (.ok (maxTries + 2), insert path lockedFiles)
    else createLocalLock path lockedFiles (maxTries + 1)
  | maxTries =>
    if path ∉ lockedFiles then (.ok maxTries, insert path lockedFiles)
    else (.error { message :=
      "Can't lock file \"" ++ path ++ "\", because it is already in use by current program" }, lockedFiles)

/-- `none` is a failed check. -/
def removeLocalLock (path : String) (lockedFiles : Finset String) : Option (Finset String) :=
  if path = "" then some lockedFiles
  else if path ∈ lockedFiles then some (lockedFiles.erase path)
  else none

/-- The loop of `lock`: `native i` is what the system answers to `fcntl` in turn `i`. -/
def setLock (path : String) (native : ℕ → Option ℕ) : ℕ → ℕ → Except StatusError Unit
  | i, maxTries + 2 =>
    match native i with
    | none => .ok ()
    | some errno => if errno = eagain then setLock path native (i + 1) (maxTries + 1)
      else .error (osError errno "Can't lock file")
  | i, _ =>
    match native i with
    | none => .ok ()
    | some errno => if errno = eagain then
        .error (osError errno ("Can't lock file \"" ++ path ++
          "\", because it is already in use; check for another program instance running"))
      else .error (osError errno "Can't lock file")

/-- The tries that are left, and whether the path has to be removed from the set at the end. -/
def startLock (flags : LockFlags) (path : String) (maxTries : ℕ) (lockedFiles : Finset String) :
    Option (Except StatusError (ℕ × Bool) × Finset String) :=
  if path = "" then some (.ok (maxTries, false), lockedFiles)
  else
    match flags with
    | .unlock => some (.ok (maxTries, true), lockedFiles)
    | .read => none
    | .write =>
      match createLocalLock path lockedFiles maxTries with
      | (.error error, lockedFiles) => some (.error error, lockedFiles)
      | (.ok maxTries, lockedFiles) => some (.ok (maxTries, true), lockedFiles)

def lock (flags : LockFlags) (path : String) (maxTries : ℕ) (native : ℕ → Option ℕ) (lockedFiles : Finset String) :
    Option (Except StatusError Unit × Finset String) :=
  if maxTries = 0 then some (.error { message := "Can't lock file: wrong max_tries" }, lockedFiles)
  else
    match startLock flags path maxTries lockedFiles with
    | none => none
    | some (.error error, lockedFiles) => some (.error error, lockedFiles)
    | some (.ok (maxTries, needLocalUnlock), lockedFiles) =>
      match setLock path native 0 maxTries with
      | .error error =>
        if needLocalUnlock then (removeLocalLock path lockedFiles).map fun lockedFiles => (.error error, lockedFiles)
        else some (.error error, lockedFiles)
      | .ok () =>
        if needLocalUnlock && flags != .write then
          (removeLocalLock path lockedFiles).map fun lockedFiles => (.ok (), lockedFiles)
        else some (.ok (), lockedFiles)

/-! ### What they do -/

variable {path : String} {lockedFiles : Finset String} {native : ℕ → Option ℕ}

theorem createLocalLock_of_mem (h : path ∈ lockedFiles) (maxTries : ℕ) :
    createLocalLock path lockedFiles maxTries = (.error { message :=
      "Can't lock file \"" ++ path ++ "\", because it is already in use by current program" }, lockedFiles) := by
  induction maxTries using createLocalLock.induct path lockedFiles with
  | case1 maxTries hnot => exact absurd h hnot
  | case2 maxTries hmem ih =>
    rw [createLocalLock, if_neg (not_not.mpr h)]
    exact ih
  | case3 maxTries hlast hnot => exact absurd h hnot
  | case4 maxTries hlast hmem =>
    unfold createLocalLock
    split
    · exact absurd rfl (hlast _)
    · rw [if_neg (not_not.mpr h)]

theorem createLocalLock_of_not_mem (h : path ∉ lockedFiles) (maxTries : ℕ) :
    createLocalLock path lockedFiles maxTries = (.ok maxTries, insert path lockedFiles) := by
  unfold createLocalLock
  split <;> rw [if_pos h]

/-- The system gives the lock within the tries, from turn `i`. -/
def Locks (native : ℕ → Option ℕ) (i maxTries : ℕ) : Prop :=
  ∃ k < maxTries, native (i + k) = none ∧ ∀ j < k, native (i + j) = some eagain

theorem locks_of_none {i maxTries : ℕ} (hi : native i = none) (hpos : 0 < maxTries) : Locks native i maxTries :=
  ⟨0, hpos, hi, fun _ hj => absurd hj (Nat.not_lt_zero _)⟩

theorem not_locks_of_error {i maxTries errno : ℕ} (hi : native i = some errno) (hne : errno ≠ eagain) :
    ¬Locks native i maxTries := by
  rintro ⟨k, -, hk, hbefore⟩
  cases k with
  | zero =>
    rw [Nat.add_zero, hi] at hk
    cases hk
  | succ k =>
    have h0 := hbefore 0 (Nat.succ_pos k)
    rw [Nat.add_zero, hi] at h0
    exact hne (Option.some.inj h0)

theorem locks_succ {i maxTries : ℕ} (hi : native i = some eagain) :
    Locks native i (maxTries + 1) ↔ Locks native (i + 1) maxTries := by
  constructor
  · rintro ⟨k, hlt, hk, hbefore⟩
    cases k with
    | zero =>
      rw [Nat.add_zero, hi] at hk
      cases hk
    | succ k =>
      refine ⟨k, Nat.lt_of_succ_lt_succ hlt, ?_, fun j hj => ?_⟩
      · rw [Nat.add_assoc, Nat.add_comm 1 k]
        exact hk
      · rw [Nat.add_assoc, Nat.add_comm 1 j]
        exact hbefore (j + 1) (Nat.succ_lt_succ hj)
  · rintro ⟨k, hlt, hk, hbefore⟩
    refine ⟨k + 1, Nat.succ_lt_succ hlt, ?_, fun j hj => ?_⟩
    · rw [Nat.add_comm k 1, ← Nat.add_assoc]
      exact hk
    · cases j with
      | zero => exact hi
      | succ j =>
        rw [Nat.add_comm j 1, ← Nat.add_assoc]
        exact hbefore j (Nat.lt_of_succ_lt_succ hj)

/-- The loop ends without an error when the system gives the lock. -/
theorem setLock_ok_iff (path : String) (native : ℕ → Option ℕ) :
    ∀ (maxTries i : ℕ), 0 < maxTries → (setLock path native i maxTries = .ok () ↔ Locks native i maxTries)
  | maxTries + 2, i, _ => by
    rw [setLock]
    cases hi : native i with
    | none => exact ⟨fun _ => locks_of_none hi (Nat.succ_pos _), fun _ => rfl⟩
    | some errno =>
      dsimp only
      by_cases heq : errno = eagain
      · rw [if_pos heq]
        exact (setLock_ok_iff path native (maxTries + 1) (i + 1) (Nat.succ_pos _)).trans (locks_succ (heq ▸ hi)).symm
      · rw [if_neg heq]
        exact ⟨fun h => (by cases h), fun h => absurd h (not_locks_of_error hi heq)⟩
  | 1, i, _ => by
    rw [setLock]
    · cases hi : native i with
      | none => exact ⟨fun _ => locks_of_none hi Nat.one_pos, fun _ => rfl⟩
      | some errno =>
        dsimp only
        by_cases heq : errno = eagain
        · rw [if_pos heq, locks_succ (heq ▸ hi)]
          exact ⟨fun h => (by cases h), fun ⟨k, hk, _⟩ => absurd hk (Nat.not_lt_zero k)⟩
        · rw [if_neg heq]
          exact ⟨fun h => (by cases h), fun h => absurd h (not_locks_of_error hi heq)⟩
    · exact fun _ heq => by omega

/-- A path that is in the set is not locked. -/
theorem lock_write_of_mem (native : ℕ → Option ℕ) (maxTries : ℕ) (hpos : maxTries ≠ 0) (hpath : path ≠ "")
    (h : path ∈ lockedFiles) :
    lock .write path maxTries native lockedFiles = some (.error { message :=
      "Can't lock file \"" ++ path ++ "\", because it is already in use by current program" }, lockedFiles) := by
  unfold lock startLock
  rw [if_neg hpos, if_neg hpath]
  dsimp only
  rw [createLocalLock_of_mem h]

/-- A path is in the set afterwards when the system gives the lock. -/
theorem lock_write_of_locks {maxTries : ℕ} (hpath : path ≠ "") (h : path ∉ lockedFiles)
    (hlocks : Locks native 0 maxTries) :
    lock .write path maxTries native lockedFiles = some (.ok (), insert path lockedFiles) := by
  have hpos : 0 < maxTries := by
    obtain ⟨k, hk, -⟩ := hlocks
    omega
  unfold lock startLock
  rw [if_neg hpos.ne', if_neg hpath]
  dsimp only
  rw [createLocalLock_of_not_mem h]
  dsimp only
  rw [(setLock_ok_iff path native maxTries 0 hpos).mpr hlocks]
  rfl

/-- When the system does not give the lock, the path is taken out of the set again. -/
theorem lock_write_of_not_locks {maxTries : ℕ} (hpos : 0 < maxTries) (hpath : path ≠ "") (h : path ∉ lockedFiles)
    (hlocks : ¬Locks native 0 maxTries) :
    ∃ error, lock .write path maxTries native lockedFiles = some (.error error, lockedFiles) := by
  unfold lock startLock
  rw [if_neg hpos.ne', if_neg hpath]
  dsimp only
  rw [createLocalLock_of_not_mem h]
  dsimp only
  cases hset : setLock path native 0 maxTries with
  | ok _ => exact absurd ((setLock_ok_iff path native maxTries 0 hpos).mp hset) hlocks
  | error error =>
    refine ⟨error, ?_⟩
    unfold removeLocalLock
    dsimp only
    rw [if_pos rfl, if_neg hpath, if_pos (Finset.mem_insert_self path lockedFiles), Finset.erase_insert h]
    rfl

/-- Unlocking takes the path out of the set, also when the system fails. -/
theorem lock_unlock (native : ℕ → Option ℕ) (maxTries : ℕ) (hpos : maxTries ≠ 0) (hpath : path ≠ "")
    (h : path ∈ lockedFiles) :
    ∃ result, lock .unlock path maxTries native lockedFiles = some (result, lockedFiles.erase path) := by
  unfold lock startLock
  rw [if_neg hpos, if_neg hpath]
  dsimp only
  have hremove : removeLocalLock path lockedFiles = some (lockedFiles.erase path) := by
    unfold removeLocalLock
    rw [if_neg hpath, if_pos h]
  cases setLock path native 0 maxTries with
  | ok _ => exact ⟨.ok (), by dsimp only; rw [hremove]; rfl⟩
  | error error => exact ⟨.error error, by dsimp only; rw [hremove]; rfl⟩

/-- A lock without a path is not recorded. -/
theorem lock_empty (flags : LockFlags) {maxTries : ℕ} (hpos : maxTries ≠ 0) :
    lock flags "" maxTries native lockedFiles = some (setLock "" native 0 maxTries, lockedFiles) := by
  unfold lock startLock
  rw [if_neg hpos, if_pos rfl]
  dsimp only
  cases setLock "" native 0 maxTries with
  | ok _ => rfl
  | error error => rfl

end FileFd

end TdUtils
