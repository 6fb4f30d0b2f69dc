import TdUtils.Lib.FileSystem
import TdUtils.Lib.Machine
import TdUtils.Port.Filesystem

/-!
# Port.AtomicWrite — files that many threads write and read

A step of `atomic_write_file` or of `read_file` is one system call or one critical section.  The system answers a call with an
error or with a number (a descriptor, the bytes that it took or gave), and its files change accordingly.  A thread that is
asked to do what it cannot do at that moment does nothing; `none` is a failed check.
-/

namespace TdUtils.Filesystem

open Lib FileFd

structure WriteCall where
  path : String
  data : List UInt8
  pathTmp : String

def WriteCall.tmp (call : WriteCall) : String := if call.pathTmp = "" then call.path ++ ".tmp" else call.pathTmp

structure ReadCall where
  path : String
  size : ℤ
  offset : ℤ

/-- The part of a file that `read_file` is asked for. -/
def ReadCall.part (call : ReadCall) (whole : List UInt8) : List UInt8 :=
  let rest := whole.drop call.offset.toNat
  if call.size < 0 then rest else rest.take call.size.toNat

namespace AtomicWrite

/-- Where `atomic_write_file` is: at the `open`, a turn of `create_local_lock`, the `fcntl` of the lock, and so on up to
`rename`. -/
inductive WriteAt
  | openTmp
  | createLocalLock (fd file tries : ℕ)
  | setLock (fd file tries : ℕ)
  | truncate (fd file : ℕ)
  | write (fd file : ℕ)
  | sync (fd file : ℕ)
  | setUnlock (file tries : ℕ)
  | rename

inductive ReadAt
  | openFile
  | getSize (fd file : ℕ)
  | pread (fd file size : ℕ)

inductive Thread
  | idle
  | writing (call : WriteCall) (at_ : WriteAt)
  | reading (call : ReadCall) (at_ : ReadAt)

inductive Answer
  | nothing
  | called
  | written (call : WriteCall)
  | read (call : ReadCall) (content : List UInt8)
  | failed (error : StatusError)

structure Shared where
  fs : FileSystem String UInt8
  lockedFiles : Finset String

def enoent : ℕ := 2

def errnoOf : Except ℕ ℕ → Option ℕ
  | .error errno => some errno
  | .ok _ => none

def cantRename (call : WriteCall) (errno : ℕ) : StatusError :=
  osError errno ("Can't rename \"" ++ call.tmp ++ "\" to \"" ++ call.path ++ "\"")

/-- One step of `atomic_write_file`. -/
def writeStep (m : Shared) (call : WriteCall) (native : Except ℕ ℕ) : WriteAt → Option (Shared × Thread × Answer)
  | .openTmp =>
    match FileFd.open call.tmp toFlags native with
    | .error error => some (m, .idle, .failed error)
    | .ok fd =>
      let (fs, file) := m.fs.create call.tmp
      some ({ m with fs := fs.setFile file [] }, .writing call (.createLocalLock fd file 10), .nothing)
  | .createLocalLock fd file tries =>
    if call.tmp ∈ m.lockedFiles ∧ 1 < tries then
      some (m, .writing call (.createLocalLock fd file (tries - 1)), .nothing)
    else
      match FileFd.createLocalLock call.tmp m.lockedFiles 1 with
      | (.error error, _) => some (m, .idle, .failed error)
      | (.ok _, lockedFiles) =>
        some ({ m with lockedFiles := lockedFiles }, .writing call (.setLock fd file tries), .nothing)
  | .setLock fd file tries =>
    if errnoOf native = some eagain ∧ 1 < tries then some (m, .writing call (.setLock fd file (tries - 1)), .nothing)
    else
      match FileFd.setLock call.tmp (fun _ => errnoOf native) 0 1 with
      | .error error =>
        (removeLocalLock call.tmp m.lockedFiles).map fun lockedFiles =>
          ({ m with lockedFiles := lockedFiles }, .idle, .failed error)
      | .ok () => some (m, .writing call (.truncate fd file), .nothing)
  | .truncate fd file =>
    match truncateToCurrentPosition (errnoOf native) with
    | .error error => some (m, .idle, .failed error)
    | .ok () => some ({ m with fs := m.fs.setFile file [] }, .writing call (.write fd file), .nothing)
  | .write fd file =>
    match FileFd.write fd native with
    | .error error => some (m, .idle, .failed error)
    | .ok bytes =>
      let piece := call.data.take bytes
      let m := { m with fs := m.fs.setFile file (writeAt 0 (m.fs.files file) 0 piece) }
      if piece.length ≠ call.data.length then
        some (m, .idle, .failed { message :=
          "Failed to write file: written " ++ toString piece.length ++ " bytes instead of " ++ toString call.data.length })
      else some (m, .writing call (.sync fd file), .nothing)
  | .sync _ file =>
    match FileFd.sync (errnoOf native) with
    | .error error => some (m, .idle, .failed error)
    | .ok () => some (m, .writing call (.setUnlock file 10), .nothing)
  | .setUnlock file tries =>
    if errnoOf native = some eagain ∧ 1 < tries then some (m, .writing call (.setUnlock file (tries - 1)), .nothing)
    else
      (removeLocalLock call.tmp m.lockedFiles).map fun lockedFiles =>
        ({ m with lockedFiles := lockedFiles }, .writing call .rename, .nothing)
  | .rename =>
    match native with
    | .error errno => some (m, .idle, .failed (cantRename call errno))
    | .ok _ =>
      match m.fs.rename call.tmp call.path with
      | none => some (m, .idle, .failed (cantRename call enoent))
      | some fs => some ({ m with fs := fs }, .idle, .written call)

def readFlags : Flags := { read := true }

/-- One step of `read_file`. -/
def readStep (m : Shared) (call : ReadCall) (native : Except ℕ ℕ) : ReadAt → Thread × Answer
  | .openFile =>
    match FileFd.open call.path readFlags native with
    | .error error => (.idle, .failed error)
    | .ok fd =>
      match m.fs.names call.path with
      | none => (.idle, .failed (osError enoent ("File \"" ++ call.path ++ "\" can't be " ++ printFlags readFlags)))
      | some file => (.reading call (.getSize fd file), .nothing)
  | .getSize fd file =>
    match native with
    | .error errno => (.idle, .failed (osError errno ("Stat for fd " ++ toString fd ++ " failed")))
    | .ok _ =>
      let fileSize : ℤ := (m.fs.files file).length
      if call.offset < 0 ∨ fileSize < call.offset then
        (.idle, .failed { message := "Failed to read file: invalid offset" })
      else
        let size := if call.size < 0 ∨ fileSize - call.offset < call.size then fileSize - call.offset else call.size
        (.reading call (.pread fd file size.toNat), .nothing)
  | .pread fd file size =>
    match native with
    | .error errno => (.idle, .failed (osError errno
        ("Pread from [fd:" ++ toString fd ++ "] at offset " ++ toString call.offset ++ " has failed")))
    | .ok bytes =>
      let content := (((m.fs.files file).drop call.offset.toNat).take size).take bytes
      if content.length ≠ size then (.idle, .failed { message := "Failed to read file" })
      else (.idle, .read call content)

structure Process (ι : Type) where
  shared : Shared
  threads : ι → Thread

inductive Event (ι : Type)
  | write (t : ι) (call : WriteCall)
  | read (t : ι) (call : ReadCall)
  | step (t : ι) (native : Except ℕ ℕ)

variable {ι : Type}

def Event.thread : Event ι → ι
  | .write t _ => t
  | .read t _ => t
  | .step t _ => t

/-- A call of `atomic_write_file` or of `read_file`. -/
inductive Call
  | write (call : WriteCall)
  | read (call : ReadCall)

/-- The call that an event begins. -/
def Event.call : Event ι → Option Call
  | .write _ call => some (.write call)
  | .read _ call => some (.read call)
  | .step .. => none

def Thread.call : Thread → Option Call
  | .idle => none
  | .writing call _ => some (.write call)
  | .reading call _ => some (.read call)

section Steps

variable [DecidableEq ι]

def begin_ (s : Process ι) (t : ι) (thread : Thread) : Process ι × Answer :=
  match s.threads t with
  | .idle => ({ s with threads := Function.update s.threads t thread }, .called)
  | _ => (s, .nothing)

def step (s : Process ι) : Event ι → Option (Process ι × Answer)
  | .write t call => some (begin_ s t (.writing call .openTmp))
  | .read t call => some (begin_ s t (.reading call .openFile))
  | .step t native =>
    match s.threads t with
    | .idle => some (s, .nothing)
    | .writing call at_ => do
      let (m, thread, answer) ← writeStep s.shared call native at_
      return (⟨m, Function.update s.threads t thread⟩, answer)
    | .reading call at_ =>
      let (thread, answer) := readStep s.shared call native at_
      some ({ s with threads := Function.update s.threads t thread }, answer)

variable (ι) in
def machine : Machine (Process ι) (Event ι) Answer := ⟨step⟩

variable (ι) in
def start (m : Shared) : Process ι := ⟨m, fun _ => .idle⟩

end Steps

/-! ### What a step of a writer does -/

/-- What is stored under a path after an answer. -/
def store (contents : String → Option (List UInt8)) : Answer → String → Option (List UInt8)
  | .written call => Function.update contents call.path (some call.data)
  | _ => contents

theorem store_written_self (contents : String → Option (List UInt8)) (call : WriteCall) :
    store contents (.written call) call.path = some call.data := Function.update_self _ _ _

theorem store_written_ne (contents : String → Option (List UInt8)) {call : WriteCall} {path : String}
    (h : path ≠ call.path) : store contents (.written call) path = contents path := Function.update_of_ne h _ _

/-- The temporary file of a call and its bytes. -/
def Holds (m : Shared) (call : WriteCall) (file : ℕ) (bytes : List UInt8) : Prop :=
  m.fs.names call.tmp = some file ∧ m.fs.files file = bytes

def Stage (m : Shared) (call : WriteCall) : WriteAt → Prop
  | .openTmp => True
  | .createLocalLock _ file _ => Holds m call file []
  | .setLock _ file _ | .truncate _ file | .write _ file => Holds m call file [] ∧ call.tmp ∈ m.lockedFiles
  | .sync _ file | .setUnlock file _ => Holds m call file call.data ∧ call.tmp ∈ m.lockedFiles
  | .rename => ∃ file, Holds m call file call.data

/-- What a writer leaves to the others: the files that its temporary name does not lead to, the other temporary names and
the other locks. -/
structure Keeps (Tmp : String → Prop) (m : Shared) (tmp : String) (m' : Shared) : Prop where
  names : ∀ name, Tmp name → name ≠ tmp → m'.fs.names name = m.fs.names name
  own : ∀ i, i < m.fs.next → m'.fs.names tmp = some i → m.fs.names tmp = some i
  files : ∀ i, i < m.fs.next → m.fs.names tmp ≠ some i → m'.fs.files i = m.fs.files i
  next : m.fs.next ≤ m'.fs.next
  locked : ∀ name, name ≠ tmp → (name ∈ m'.lockedFiles ↔ name ∈ m.lockedFiles)

/-- A step of a writer. -/
structure Goes (Tmp : String → Prop) (m : Shared) (call : WriteCall) (m' : Shared) (thread : Thread) (answer : Answer) :
    Prop where
  keeps : Keeps Tmp m call.tmp m'
  contents : ∀ path, path ≠ call.tmp → m'.fs.contents path = store m.fs.contents answer path
  next : (∃ at_, thread = .writing call at_ ∧ answer = .nothing ∧ Stage m' call at_) ∨
    thread = .idle ∧ (answer = .written call ∨ ∃ error, answer = .failed error)

section Writer

variable {Tmp : String → Prop} {m m' : Shared} {call : WriteCall} {at_ : WriteAt} {file : ℕ} {bytes : List UInt8}
  {tmp : String}

theorem Keeps.refl (Tmp : String → Prop) (m : Shared) (tmp : String) : Keeps Tmp m tmp m :=
  ⟨fun _ _ _ => rfl, fun _ _ h => h, fun _ _ _ => rfl, Nat.le_refl _, fun _ _ => Iff.rfl⟩

theorem Keeps.setFile (hfile : m.fs.names tmp = some file) (bytes : List UInt8) :
    Keeps Tmp m tmp { m with fs := m.fs.setFile file bytes } :=
  ⟨fun _ _ _ => rfl, fun _ _ h => h,
    fun _ _ hne => FileSystem.setFile_files_ne fun heq => hne (heq ▸ hfile), Nat.le_refl _, fun _ _ => Iff.rfl⟩

theorem Keeps.lockedFiles {lockedFiles : Finset String}
    (h : ∀ name, name ≠ tmp → (name ∈ lockedFiles ↔ name ∈ m.lockedFiles)) :
    Keeps Tmp m tmp { m with lockedFiles := lockedFiles } :=
  ⟨fun _ _ _ => rfl, fun _ _ h => h, fun _ _ _ => rfl, Nat.le_refl _, h⟩

theorem Holds.keeps (h : Holds m call file bytes) (hkeeps : Keeps Tmp m tmp m') (htmp : Tmp call.tmp)
    (hne : call.tmp ≠ tmp) : Holds m' call file bytes := by
  obtain ⟨hname, hbytes⟩ := h
  refine ⟨(hkeeps.names _ htmp hne).trans hname, ?_⟩
  rw [hkeeps.files file (m.fs.names_lt hname) fun hown => hne (m.fs.unique hname hown), hbytes]

theorem Stage.keeps (h : Stage m call at_) (hkeeps : Keeps Tmp m tmp m') (htmp : Tmp call.tmp) (hne : call.tmp ≠ tmp) :
    Stage m' call at_ := by
  have hboth : ∀ {file : ℕ} {bytes : List UInt8}, Holds m call file bytes ∧ call.tmp ∈ m.lockedFiles →
      Holds m' call file bytes ∧ call.tmp ∈ m'.lockedFiles := fun hboth =>
    ⟨hboth.1.keeps hkeeps htmp hne, (hkeeps.locked _ hne).mpr hboth.2⟩
  cases at_ with
  | openTmp => trivial
  | createLocalLock fd file tries => exact Holds.keeps h hkeeps htmp hne
  | setLock fd file tries => exact hboth h
  | truncate fd file => exact hboth h
  | write fd file => exact hboth h
  | sync fd file => exact hboth h
  | setUnlock file tries => exact hboth h
  | rename =>
    obtain ⟨file, h⟩ := h
    exact ⟨file, h.keeps hkeeps htmp hne⟩

theorem Goes.failed (Tmp : String → Prop) (m : Shared) (call : WriteCall) (error : StatusError) :
    Goes Tmp m call m .idle (.failed error) :=
  ⟨.refl Tmp m _, fun _ _ => rfl, Or.inr ⟨rfl, Or.inr ⟨error, rfl⟩⟩⟩

theorem Goes.turns (h : Stage m call at_) : Goes Tmp m call m (.writing call at_) .nothing :=
  ⟨.refl Tmp m _, fun _ _ => rfl, Or.inl ⟨at_, rfl, rfl, h⟩⟩

/-- The bytes of the temporary file change. -/
theorem Goes.setFile (hfile : m.fs.names call.tmp = some file) (h : Stage { m with fs := m.fs.setFile file bytes } call at_) :
    Goes Tmp m call { m with fs := m.fs.setFile file bytes } (.writing call at_) .nothing :=
  ⟨.setFile hfile bytes, fun _ hne => FileSystem.contents_setFile_ne hfile hne, Or.inl ⟨at_, rfl, rfl, h⟩⟩

theorem Goes.setFile_failed (hfile : m.fs.names call.tmp = some file) (error : StatusError) :
    Goes Tmp m call { m with fs := m.fs.setFile file bytes } .idle (.failed error) :=
  ⟨.setFile hfile bytes, fun _ hne => FileSystem.contents_setFile_ne hfile hne, Or.inr ⟨rfl, Or.inr ⟨error, rfl⟩⟩⟩

theorem Goes.lockedFiles {lockedFiles : Finset String} {thread : Thread} {answer : Answer}
    (h : ∀ name, name ≠ call.tmp → (name ∈ lockedFiles ↔ name ∈ m.lockedFiles))
    (hnext : (∃ at_, thread = .writing call at_ ∧ answer = .nothing ∧ Stage { m with lockedFiles := lockedFiles } call at_) ∨
      thread = .idle ∧ ∃ error, answer = .failed error) :
    Goes Tmp m call { m with lockedFiles := lockedFiles } thread answer := by
  refine ⟨.lockedFiles h, fun _ _ => ?_, hnext.imp_right fun hfailed => ⟨hfailed.1, Or.inr hfailed.2⟩⟩
  rcases hnext with ⟨at_, -, rfl, -⟩ | ⟨-, error, rfl⟩
  · rfl
  · rfl

/-- A path that is in the set is taken out of it. -/
theorem removeLocalLock_spec {lockedFiles : Finset String} (h : tmp ∈ lockedFiles) : ∃ lockedFiles',
    removeLocalLock tmp lockedFiles = some lockedFiles' ∧
      ∀ name, name ≠ tmp → (name ∈ lockedFiles' ↔ name ∈ lockedFiles) := by
  unfold removeLocalLock
  split_ifs with hempty
  · exact ⟨_, rfl, fun _ _ => Iff.rfl⟩
  · exact ⟨_, rfl, fun name hne => by rw [Finset.mem_erase, and_iff_right hne]⟩

theorem keeps_create (Tmp : String → Prop) (m : Shared) (tmp : String) : ∃ file,
    (m.fs.create tmp).2 = file ∧ (m.fs.create tmp).1.names tmp = some file ∧
      Keeps Tmp m tmp { m with fs := (m.fs.create tmp).1.setFile file [] } := by
  have h := m.fs.create_creates tmp
  refine ⟨_, rfl, h.names_self, fun name _ hne => h.names_ne name hne, fun i hlt hi => ?_, fun i hlt hne => ?_, h.next_le,
    fun _ _ => Iff.rfl⟩
  · obtain rfl := Option.some.inj (h.names_self.symm.trans hi)
    exact h.old_or_new.resolve_right (Nat.ne_of_lt hlt)
  · refine (FileSystem.setFile_files_ne fun heq => ?_).trans (h.files_lt i hlt)
    rcases h.old_or_new with hold | hnew
    · exact hne (heq ▸ hold)
    · exact Nat.ne_of_lt hlt (heq.trans hnew)

/-- No check of a writer fails, and it changes the bytes under its path alone, with its last step. -/
theorem writeStep_goes (native : Except ℕ ℕ) (htmp : Tmp call.tmp) (hpath : ¬ Tmp call.path) (h : Stage m call at_) :
    ∃ m' thread answer, writeStep m call native at_ = some (m', thread, answer) ∧ Goes Tmp m call m' thread answer := by
  have hne : call.tmp ≠ call.path := fun heq => hpath (heq ▸ htmp)
  cases at_ with
  | openTmp =>
    rw [writeStep]
    cases FileFd.open call.tmp toFlags native with
    | error error => exact ⟨_, _, _, rfl, .failed Tmp m call _⟩
    | ok fd =>
      obtain ⟨file, hfile, hname, hkeeps⟩ := keeps_create Tmp m call.tmp
      dsimp only
      rw [hfile]
      refine ⟨_, _, _, rfl, hkeeps, fun path hne => ?_, Or.inl ⟨_, rfl, rfl, hname, FileSystem.setFile_files⟩⟩
      exact (FileSystem.contents_setFile_ne hname hne).trans ((m.fs.create_creates call.tmp).contents_ne hne)
  | createLocalLock fd file tries =>
    rw [writeStep]
    split_ifs with hturns
    · exact ⟨_, _, _, rfl, .turns h⟩
    · by_cases hmem : call.tmp ∈ m.lockedFiles
      · rw [createLocalLock_of_mem hmem]
        exact ⟨_, _, _, rfl, .failed Tmp m call _⟩
      · rw [createLocalLock_of_not_mem hmem]
        refine ⟨_, _, _, rfl, .lockedFiles (fun name hne => ?_) (Or.inl ⟨_, rfl, rfl, h, Finset.mem_insert_self _ _⟩)⟩
        rw [Finset.mem_insert, or_iff_right hne]
  | setLock fd file tries =>
    rw [writeStep]
    split_ifs with hturns
    · exact ⟨_, _, _, rfl, .turns h⟩
    · cases FileFd.setLock call.tmp (fun _ => errnoOf native) 0 1 with
      | error error =>
        obtain ⟨lockedFiles, hremove, hlocked⟩ := removeLocalLock_spec h.2
        dsimp only
        rw [hremove]
        exact ⟨_, _, _, rfl, .lockedFiles hlocked (Or.inr ⟨rfl, error, rfl⟩)⟩
      | ok _ => exact ⟨_, _, _, rfl, .turns h⟩
  | truncate fd file =>
    rw [writeStep]
    cases truncateToCurrentPosition (errnoOf native) with
    | error error => exact ⟨_, _, _, rfl, .failed Tmp m call _⟩
    | ok _ => exact ⟨_, _, _, rfl, .setFile h.1.1 ⟨⟨h.1.1, FileSystem.setFile_files⟩, h.2⟩⟩
  | write fd file =>
    rw [writeStep]
    cases FileFd.write fd native with
    | error error => exact ⟨_, _, _, rfl, .failed Tmp m call _⟩
    | ok bytes =>
      dsimp only
      rw [h.1.2, writeAt_nil]
      split_ifs with hshort
      · exact ⟨_, _, _, rfl, .setFile_failed h.1.1 _⟩
      · have hall : call.data.take bytes = call.data := by
          rw [List.take_eq_self_iff]
          rw [not_not, List.length_take] at hshort
          omega
        exact ⟨_, _, _, rfl, .setFile h.1.1 ⟨⟨h.1.1, by rw [FileSystem.setFile_files, hall]⟩, h.2⟩⟩
  | sync fd file =>
    rw [writeStep]
    cases FileFd.sync (errnoOf native) with
    | error error => exact ⟨_, _, _, rfl, .failed Tmp m call _⟩
    | ok _ => exact ⟨_, _, _, rfl, .turns h⟩
  | setUnlock file tries =>
    rw [writeStep]
    split_ifs with hturns
    · exact ⟨_, _, _, rfl, .turns h⟩
    · obtain ⟨lockedFiles, hremove, hlocked⟩ := removeLocalLock_spec h.2
      rw [hremove]
      exact ⟨_, _, _, rfl, .lockedFiles hlocked (Or.inl ⟨_, rfl, rfl, file, h.1⟩)⟩
  | rename =>
    obtain ⟨file, hname, hbytes⟩ := h
    cases native with
    | error errno => exact ⟨_, _, _, rfl, .failed Tmp m call _⟩
    | ok _ =>
      obtain ⟨fs, hrename, hfs⟩ := FileSystem.rename_renames call.path hname
      rw [writeStep, hrename]
      refine ⟨_, _, _, rfl, ⟨fun name hname hne => ?_, fun i _ hi => ?_, fun i _ _ => ?_, ?_, fun _ _ => Iff.rfl⟩,
        fun path hpath => ?_, Or.inr ⟨rfl, Or.inl rfl⟩⟩
      · exact hfs.names_ne name hne fun heq => hpath (heq ▸ hname)
      · cases (hfs.names_source hne).symm.trans hi
      · exact congrFun hfs.files i
      · exact hfs.next.ge
      · by_cases heq : path = call.path
        · rw [heq, store_written_self]
          exact hfs.contents_target.trans (congrArg some hbytes)
        · exact (hfs.contents_ne hpath heq).trans (store_written_ne _ heq).symm

end Writer

/-! ### Runs -/

/-- A name is for temporary files or for the files of paths, and no two calls that run have one temporary file. -/
def Admits (Tmp : String → Prop) (s : Process ι) : Event ι → Prop
  | .write t call => s.threads t = .idle → Tmp call.tmp ∧ ¬ Tmp call.path ∧
      ∀ t' call' at_, s.threads t' = .writing call' at_ → call'.tmp ≠ call.tmp
  | .read _ call => ¬ Tmp call.path
  | .step .. => True

/-- What is stored under the paths after some events: the data of the last call that returned. -/
def stored (contents : String → Option (List UInt8)) (events : List (Event ι × Answer)) : String → Option (List UInt8) :=
  events.foldl (fun contents e => store contents e.2) contents

/-- A call of the thread goes on. -/
def Quiet (t : ι) (events : List (Event ι × Answer)) : Prop := ∀ e ∈ events, e.1.thread = t → e.2 = .nothing

def Begun (events : List (Event ι × Answer)) (t : ι) (call : ReadCall) : Prop :=
  ∃ before after, events = before ++ (.read t call, .called) :: after ∧ Quiet t after

/-- At a moment since the call has begun, which goes on, these bytes were stored under its path. -/
def Seen (contents : String → Option (List UInt8)) (events : List (Event ι × Answer)) (t : ι) (call : ReadCall)
    (whole : List UInt8) : Prop :=
  ∃ before middle after, events = before ++ (.read t call, .called) :: (middle ++ after) ∧ Quiet t (middle ++ after) ∧
    stored contents (before ++ (.read t call, .called) :: middle) call.path = some whole

/-- What a call of `read_file` returns. -/
def Reads (contents : String → Option (List UInt8)) (events : List (Event ι × Answer)) (t : ι) (call : ReadCall)
    (content : List UInt8) : Prop :=
  ∃ whole, Seen contents events t call whole ∧ 0 ≤ call.offset ∧ call.offset ≤ whole.length ∧ content = call.part whole

/-- No temporary name leads to the file. -/
def Settled (Tmp : String → Prop) (m : Shared) (file : ℕ) : Prop :=
  file < m.fs.next ∧ ∀ name, Tmp name → m.fs.names name ≠ some file

/-- The call that a thread is in after one more event of it. -/
def callAfter (call : Option Call) : Event ι × Answer → Option Call
  | (_, .nothing) => call
  | (event, .called) => event.call
  | _ => none

/-- The call that a thread is in after some events. -/
def callOf [DecidableEq ι] (events : List (Event ι × Answer)) (t : ι) : Option Call :=
  events.foldl (fun call e => if e.1.thread = t then callAfter call e else call) none

/-- An answer is that of the call that the thread is in, and an event begins a call when the thread is in none. -/
def Answered [DecidableEq ι] (contents : String → Option (List UInt8)) (events : List (Event ι × Answer)) (event : Event ι) :
    Answer → Prop
  | .nothing => event.call ≠ none → callOf events event.thread ≠ none
  | .called => event.call ≠ none ∧ callOf events event.thread = none
  | .written call => event.call = none ∧ callOf events event.thread = some (.write call)
  | .read call content => event.call = none ∧ callOf events event.thread = some (.read call) ∧
      Reads contents events event.thread call content
  | .failed _ => event.call = none ∧ callOf events event.thread ≠ none

def ReadStage (Tmp : String → Prop) (contents : String → Option (List UInt8)) (m : Shared)
    (events : List (Event ι × Answer)) (t : ι) (call : ReadCall) : ReadAt → Prop
  | .openFile => Begun events t call
  | .getSize _ file => Settled Tmp m file ∧ Seen contents events t call (m.fs.files file)
  | .pread _ file size => Settled Tmp m file ∧ Seen contents events t call (m.fs.files file) ∧ 0 ≤ call.offset ∧
      call.offset ≤ (m.fs.files file).length ∧
      ((m.fs.files file).drop call.offset.toNat).take size = call.part (m.fs.files file)

structure Agrees [DecidableEq ι] (Tmp : String → Prop) (contents : String → Option (List UInt8)) (events : List (Event ι × Answer))
    (s : Process ι) : Prop where
  writers : ∀ t call at_, s.threads t = .writing call at_ → Tmp call.tmp ∧ ¬ Tmp call.path ∧ Stage s.shared call at_
  apart : ∀ t t' call call' at_ at', s.threads t = .writing call at_ → s.threads t' = .writing call' at' → t ≠ t' →
    call.tmp ≠ call'.tmp
  readers : ∀ t call at_, s.threads t = .reading call at_ →
    ¬ Tmp call.path ∧ ReadStage Tmp contents s.shared events t call at_
  files : ∀ path, ¬ Tmp path → s.shared.fs.contents path = stored contents events path
  calls : ∀ t, callOf events t = (s.threads t).call
  answered : ∀ before e after, events = before ++ e :: after → Answered contents before e.1 e.2

section Runs

variable {Tmp : String → Prop} {contents : String → Option (List UInt8)} {events : List (Event ι × Answer)}
  {e : Event ι × Answer} {t : ι} {call : ReadCall} {whole : List UInt8} {m m' : Shared} {s : Process ι}

theorem store_congr {f g : String → Option (List UInt8)} {path : String} (h : f path = g path) (answer : Answer) :
    store f answer path = store g answer path := by
  cases answer with
  | written call =>
    by_cases heq : path = call.path
    · rw [heq, store_written_self, store_written_self]
    · rw [store_written_ne f heq, store_written_ne g heq, h]
  | _ => exact h

theorem stored_concat : stored contents (events ++ [e]) = store (stored contents events) e.2 := by
  unfold stored
  rw [List.foldl_append]
  rfl

theorem Quiet.concat (h : Quiet t events) (he : e.1.thread = t → e.2 = .nothing) : Quiet t (events ++ [e]) :=
  List.forall_mem_append.mpr ⟨h, List.forall_mem_singleton.mpr he⟩

theorem Begun.concat (h : Begun events t call) (he : e.1.thread = t → e.2 = .nothing) : Begun (events ++ [e]) t call := by
  obtain ⟨before, after, rfl, hquiet⟩ := h
  exact ⟨before, after ++ [e], by rw [List.append_assoc, List.cons_append], hquiet.concat he⟩

theorem Seen.concat (h : Seen contents events t call whole) (he : e.1.thread = t → e.2 = .nothing) :
    Seen contents (events ++ [e]) t call whole := by
  obtain ⟨before, middle, after, rfl, hquiet, hstored⟩ := h
  refine ⟨before, middle, after ++ [e], by simp, ?_, hstored⟩
  rw [← List.append_assoc]
  exact hquiet.concat he

theorem Begun.seen (h : Begun events t call) (hstored : stored contents events call.path = some whole) :
    Seen contents events t call whole := by
  obtain ⟨before, after, rfl, hquiet⟩ := h
  exact ⟨before, after, [], by rw [List.append_nil], by rwa [List.append_nil], hstored⟩

theorem ReadStage.concat {at_ : ReadAt} (h : ReadStage Tmp contents m events t call at_)
    (he : e.1.thread = t → e.2 = .nothing) : ReadStage Tmp contents m (events ++ [e]) t call at_ := by
  cases at_ with
  | openFile => exact Begun.concat h he
  | getSize fd file => exact ⟨h.1, h.2.concat he⟩
  | pread fd file size => exact ⟨h.1, h.2.1.concat he, h.2.2⟩

/-- What readers need of a step. -/
def Saves (Tmp : String → Prop) (m m' : Shared) : Prop :=
  ∀ file, Settled Tmp m file → Settled Tmp m' file ∧ m'.fs.files file = m.fs.files file

theorem Keeps.saves {tmp : String} (h : Keeps Tmp m tmp m') (htmp : Tmp tmp) : Saves Tmp m m' := by
  rintro file ⟨hlt, hnames⟩
  refine ⟨⟨hlt.trans_le h.next, fun name hname hfile => ?_⟩, h.files file hlt (hnames tmp htmp)⟩
  by_cases heq : name = tmp
  · subst heq
    exact hnames name hname (h.own file hlt hfile)
  · exact hnames name hname ((h.names name hname heq).symm.trans hfile)

theorem ReadStage.saves {at_ : ReadAt} (h : ReadStage Tmp contents m events t call at_) (hsaves : Saves Tmp m m') :
    ReadStage Tmp contents m' events t call at_ := by
  cases at_ with
  | openFile => exact h
  | getSize fd file =>
    obtain ⟨hsettled, hfile⟩ := hsaves file h.1
    exact ⟨hsettled, hfile ▸ h.2⟩
  | pread fd file size =>
    obtain ⟨hsettled, hfile⟩ := hsaves file h.1
    exact ⟨hsettled, by rw [hfile]; exact h.2⟩

theorem Saves.refl (Tmp : String → Prop) (m : Shared) : Saves Tmp m m := fun _ h => ⟨h, rfl⟩

variable [DecidableEq ι]

theorem callOf_concat : callOf (events ++ [e]) t = if e.1.thread = t then callAfter (callOf events t) e else callOf events t := by
  unfold callOf
  rw [List.foldl_append]
  rfl

/-- A step of one thread that leaves the others what they need. -/
theorem Agrees.extend (h : Agrees Tmp contents events s) (event : Event ι) {thread : Thread} {answer : Answer}
    (hstages : ∀ t call at_, t ≠ event.thread → s.threads t = .writing call at_ → Stage m' call at_)
    (hsaves : Saves Tmp s.shared m')
    (hfiles : ∀ path, ¬ Tmp path → m'.fs.contents path = store s.shared.fs.contents answer path)
    (hwriting : ∀ call at_, thread = .writing call at_ → Tmp call.tmp ∧ ¬ Tmp call.path ∧ Stage m' call at_ ∧
      ∀ t call' at', t ≠ event.thread → s.threads t = .writing call' at' → call'.tmp ≠ call.tmp)
    (hreading : ∀ call at_, thread = .reading call at_ → ¬ Tmp call.path ∧
      ReadStage Tmp contents m' (events ++ [(event, answer)]) event.thread call at_)
    (hcall : callAfter (callOf events event.thread) (event, answer) = thread.call)
    (hanswered : Answered contents events event answer) :
    Agrees Tmp contents (events ++ [(event, answer)]) ⟨m', Function.update s.threads event.thread thread⟩ := by
  constructor
  · intro t call at_ hat
    by_cases ht : t = event.thread
    · subst ht
      obtain ⟨htmp, hpath, hstage, -⟩ := hwriting call at_ ((Function.update_self _ _ _).symm.trans hat)
      exact ⟨htmp, hpath, hstage⟩
    · have hat : s.threads t = .writing call at_ := (Function.update_of_ne ht _ _).symm.trans hat
      obtain ⟨htmp, hpath, -⟩ := h.writers t call at_ hat
      exact ⟨htmp, hpath, hstages t call at_ ht hat⟩
  · intro t t' call call' at_ at' hat hat' hne
    by_cases ht : t = event.thread
    · subst ht
      have hat' : s.threads t' = .writing call' at' := (Function.update_of_ne (Ne.symm hne) _ _).symm.trans hat'
      obtain ⟨-, -, -, hapart⟩ := hwriting call at_ ((Function.update_self _ _ _).symm.trans hat)
      exact (hapart t' call' at' (Ne.symm hne) hat').symm
    · have hat : s.threads t = .writing call at_ := (Function.update_of_ne ht _ _).symm.trans hat
      by_cases ht' : t' = event.thread
      · subst ht'
        obtain ⟨-, -, -, hapart⟩ := hwriting call' at' ((Function.update_self _ _ _).symm.trans hat')
        exact hapart t call at_ ht hat
      · have hat' : s.threads t' = .writing call' at' := (Function.update_of_ne ht' _ _).symm.trans hat'
        exact h.apart t t' call call' at_ at' hat hat' hne
  · intro t call at_ hat
    by_cases ht : t = event.thread
    · subst ht
      exact hreading call at_ ((Function.update_self _ _ _).symm.trans hat)
    · have hat : s.threads t = .reading call at_ := (Function.update_of_ne ht _ _).symm.trans hat
      obtain ⟨hpath, hstage⟩ := h.readers t call at_ hat
      exact ⟨hpath, (hstage.saves hsaves).concat fun heq => absurd heq.symm ht⟩
  · intro path hpath
    rw [stored_concat, hfiles path hpath]
    exact store_congr (h.files path hpath) answer
  · intro t
    rw [callOf_concat]
    split_ifs with ht
    · subst ht
      exact hcall.trans (congrArg Thread.call (Function.update_self event.thread thread s.threads).symm)
    · exact (h.calls t).trans (congrArg Thread.call (Function.update_of_ne (Ne.symm ht) _ _).symm)
  · intro before e after heq
    rcases List.eq_nil_or_concat after with rfl | ⟨after, last, rfl⟩
    · obtain ⟨rfl, hlast⟩ := List.append_inj' heq rfl
      obtain rfl := List.singleton_inj.mp hlast
      exact hanswered
    · rw [List.concat_eq_append, ← List.cons_append, ← List.append_assoc] at heq
      exact h.answered before e after (List.append_inj' heq rfl).1

/-- A step that nothing changes. -/
theorem Agrees.ignore (h : Agrees Tmp contents events s) (event : Event ι)
    (hbusy : event.call ≠ none → (s.threads event.thread).call ≠ none) :
    Agrees Tmp contents (events ++ [(event, .nothing)]) s := by
  have hsame : Agrees Tmp contents (events ++ [(event, .nothing)])
      ⟨s.shared, Function.update s.threads event.thread (s.threads event.thread)⟩ := by
    refine h.extend event (fun t call at_ _ hat => (h.writers t call at_ hat).2.2) (.refl Tmp _) (fun _ _ => rfl)
      (fun call at_ hat => ?_) (fun call at_ hat => ?_) (h.calls _) fun hbegins => ?_
    · obtain ⟨htmp, hpath, hstage⟩ := h.writers _ call at_ hat
      exact ⟨htmp, hpath, hstage, fun t call' at' hne hat' => h.apart _ _ _ _ _ _ hat' hat hne⟩
    · obtain ⟨hpath, hstage⟩ := h.readers _ call at_ hat
      exact ⟨hpath, hstage.concat fun _ => rfl⟩
    · rw [h.calls]
      exact hbusy hbegins
  rwa [Function.update_eq_self] at hsame

theorem begin_idle (hat : s.threads t = .idle) (thread : Thread) :
    begin_ s t thread = ({ s with threads := Function.update s.threads t thread }, .called) := by
  unfold begin_
  rw [hat]

theorem begin_busy (hat : s.threads t ≠ .idle) (thread : Thread) : begin_ s t thread = (s, .nothing) := by
  unfold begin_
  split
  · next hidle => exact absurd hidle hat
  · rfl

theorem step_idle (hat : s.threads t = .idle) (native : Except ℕ ℕ) : step s (.step t native) = some (s, .nothing) := by
  unfold step
  dsimp only
  rw [hat]

theorem step_writing {call : WriteCall} {at_ : WriteAt} {native : Except ℕ ℕ} {thread : Thread} {answer : Answer}
    (hat : s.threads t = .writing call at_) (hstep : writeStep s.shared call native at_ = some (m', thread, answer)) :
    step s (.step t native) = some (⟨m', Function.update s.threads t thread⟩, answer) := by
  unfold step
  dsimp only
  rw [hat]
  dsimp only
  rw [hstep]
  rfl

theorem step_reading {at_ : ReadAt} {native : Except ℕ ℕ} {thread : Thread} {answer : Answer}
    (hat : s.threads t = .reading call at_) (hstep : readStep s.shared call native at_ = (thread, answer)) :
    step s (.step t native) = some ({ s with threads := Function.update s.threads t thread }, answer) := by
  unfold step
  dsimp only
  rw [hat]
  dsimp only
  rw [hstep]

omit [DecidableEq ι] in
/-- What a reader does next. -/
theorem readStep_goes {at_ : ReadAt} (hfiles : ∀ path, ¬ Tmp path → m.fs.contents path = stored contents events path)
    (hpath : ¬ Tmp call.path) (h : ReadStage Tmp contents m events t call at_) (native : Except ℕ ℕ) :
    (∃ at', readStep m call native at_ = (.reading call at', .nothing) ∧ ReadStage Tmp contents m events t call at') ∨
      (∃ error, readStep m call native at_ = (.idle, .failed error)) ∨
      ∃ content, readStep m call native at_ = (.idle, .read call content) ∧ Reads contents events t call content := by
  cases at_ with
  | openFile =>
    rw [readStep]
    cases FileFd.open call.path readFlags native with
    | error error => exact Or.inr (Or.inl ⟨error, rfl⟩)
    | ok fd =>
      dsimp only
      cases hfile : m.fs.names call.path with
      | none => exact Or.inr (Or.inl ⟨_, rfl⟩)
      | some file =>
        refine Or.inl ⟨_, rfl, ⟨m.fs.names_lt hfile, fun name hname heq => ?_⟩, Begun.seen h ?_⟩
        · exact hpath (m.fs.unique heq hfile ▸ hname)
        · rw [← hfiles call.path hpath, FileSystem.contents_of_names hfile]
  | getSize fd file =>
    cases native with
    | error errno => exact Or.inr (Or.inl ⟨_, rfl⟩)
    | ok _ =>
      rw [readStep]
      dsimp only
      split_ifs with hoffset hsize
      · exact Or.inr (Or.inl ⟨_, rfl⟩)
      · refine Or.inl ⟨_, rfl, h.1, h.2, by omega, by omega, ?_⟩
        have hrest : ((m.fs.files file).drop call.offset.toNat).length = (m.fs.files file).length - call.offset.toNat :=
          List.length_drop
        unfold ReadCall.part
        dsimp only
        split_ifs
        · exact List.take_of_length_le (by omega)
        · rw [List.take_of_length_le (by omega), List.take_of_length_le (by omega)]
      · refine Or.inl ⟨_, rfl, h.1, h.2, by omega, by omega, ?_⟩
        unfold ReadCall.part
        dsimp only
        rw [if_neg (by omega)]
  | pread fd file size =>
    obtain ⟨-, hseen, hoffset, hle, hpart⟩ := h
    cases native with
    | error errno => exact Or.inr (Or.inl ⟨_, rfl⟩)
    | ok bytes =>
      rw [readStep]
      split_ifs with hshort
      · exact Or.inr (Or.inl ⟨_, rfl⟩)
      · refine Or.inr (Or.inr ⟨_, rfl, _, hseen, hoffset, hle, ?_⟩)
        rw [← hpart, List.take_eq_self_iff]
        rw [not_not, List.length_take] at hshort
        have hsize := List.length_take_le size ((m.fs.files file).drop call.offset.toNat)
        omega

/-- Every step that is admitted is answered. -/
theorem Agrees.step (h : Agrees Tmp contents events s) (event : Event ι) (hadmits : Admits Tmp s event) :
    ∃ s' answer, step s event = some (s', answer) ∧ Agrees Tmp contents (events ++ [(event, answer)]) s' := by
  have hcall : ∀ {t : ι} {thread : Thread}, s.threads t = thread → callOf events t = thread.call := fun hat =>
    (h.calls _).trans (congrArg Thread.call hat)
  have hkeep := fun t call at_ hat => (h.writers t call at_ hat).2.2
  cases event with
  | write t call =>
    cases hat : s.threads t with
    | idle =>
      obtain ⟨htmp, hpath, hapart⟩ := hadmits hat
      refine ⟨_, _, congrArg some (begin_idle hat _), h.extend (.write t call) (fun t call at_ _ => hkeep t call at_)
        (.refl Tmp _) (fun _ _ => rfl) (fun call' at_ heq => ?_) nofun rfl ⟨nofun, hcall hat⟩⟩
      obtain ⟨rfl, rfl⟩ := Thread.writing.inj heq
      exact ⟨htmp, hpath, trivial, fun t' call' at' _ hat' => hapart t' call' at' hat'⟩
    | writing call' at_ =>
      exact ⟨_, _, congrArg some (begin_busy (by rw [hat]; nofun) _), h.ignore _ fun _ => by rw [Event.thread, hat]; nofun⟩
    | reading call' at_ =>
      exact ⟨_, _, congrArg some (begin_busy (by rw [hat]; nofun) _), h.ignore _ fun _ => by rw [Event.thread, hat]; nofun⟩
  | read t call =>
    cases hat : s.threads t with
    | idle =>
      refine ⟨_, _, congrArg some (begin_idle hat _), h.extend (.read t call) (fun t call at_ _ => hkeep t call at_)
        (.refl Tmp _) (fun _ _ => rfl) nofun (fun call' at_ heq => ?_) rfl ⟨nofun, hcall hat⟩⟩
      obtain ⟨rfl, rfl⟩ := Thread.reading.inj heq
      exact ⟨hadmits, events, [], rfl, fun _ h => absurd h List.not_mem_nil⟩
    | writing call' at_ =>
      exact ⟨_, _, congrArg some (begin_busy (by rw [hat]; nofun) _), h.ignore _ fun _ => by rw [Event.thread, hat]; nofun⟩
    | reading call' at_ =>
      exact ⟨_, _, congrArg some (begin_busy (by rw [hat]; nofun) _), h.ignore _ fun _ => by rw [Event.thread, hat]; nofun⟩
  | step t native =>
    cases hat : s.threads t with
    | idle => exact ⟨_, _, step_idle hat native, h.ignore _ fun hbegins => absurd rfl hbegins⟩
    | writing call at_ =>
      obtain ⟨htmp, hpath, hstage⟩ := h.writers t call at_ hat
      obtain ⟨m', thread, answer, hstep, hgoes⟩ := writeStep_goes native htmp hpath hstage
      have hstages : ∀ t' call' at', t' ≠ t → s.threads t' = .writing call' at' → Stage m' call' at' := by
        intro t' call' at' hne hat'
        obtain ⟨htmp', -, hstage'⟩ := h.writers t' call' at' hat'
        exact hstage'.keeps hgoes.keeps htmp' (h.apart _ _ _ _ _ _ hat' hat hne)
      have hfiles := fun path (hp : ¬ Tmp path) => hgoes.contents path fun heq => hp (heq ▸ htmp)
      refine ⟨_, _, step_writing hat hstep, ?_⟩
      rcases hgoes.next with ⟨at', rfl, rfl, hstage'⟩ | ⟨rfl, hreturns⟩
      · refine h.extend (.step t native) hstages (hgoes.keeps.saves htmp) hfiles (fun call' at'' heq => ?_) nofun
          ((hcall hat).trans rfl) fun hbegins => absurd rfl hbegins
        obtain ⟨rfl, rfl⟩ := Thread.writing.inj heq
        exact ⟨htmp, hpath, hstage', fun t' call' at' hne hat' => h.apart _ _ _ _ _ _ hat' hat hne⟩
      · rcases hreturns with rfl | ⟨error, rfl⟩
        · exact h.extend (.step t native) hstages (hgoes.keeps.saves htmp) hfiles nofun nofun rfl ⟨rfl, hcall hat⟩
        · exact h.extend (.step t native) hstages (hgoes.keeps.saves htmp) hfiles nofun nofun rfl
            ⟨rfl, by rw [Event.thread, hcall hat]; nofun⟩
    | reading call at_ =>
      obtain ⟨hpath, hstage⟩ := h.readers t call at_ hat
      have hstages := fun (t' : ι) call at_ (_ : t' ≠ t) => hkeep t' call at_
      rcases readStep_goes h.files hpath hstage native with ⟨at', hstep, hstage'⟩ | ⟨error, hstep⟩ | ⟨content, hstep, hreads⟩
      · refine ⟨_, _, step_reading hat hstep, h.extend (.step t native) hstages (.refl Tmp _) (fun _ _ => rfl) nofun
          (fun call' at'' heq => ?_) ((hcall hat).trans rfl) fun hbegins => absurd rfl hbegins⟩
        obtain ⟨rfl, rfl⟩ := Thread.reading.inj heq
        exact ⟨hpath, hstage'.concat fun _ => rfl⟩
      · exact ⟨_, _, step_reading hat hstep, h.extend (.step t native) hstages (.refl Tmp _) (fun _ _ => rfl) nofun nofun rfl
          ⟨rfl, by rw [Event.thread, hcall hat]; nofun⟩⟩
      · exact ⟨_, _, step_reading hat hstep, h.extend (.step t native) hstages (.refl Tmp _) (fun _ _ => rfl) nofun nofun rfl
          ⟨rfl, hcall hat, hreads⟩⟩

theorem agrees_start (Tmp : String → Prop) (m : Shared) : Agrees Tmp m.fs.contents [] (start ι m) :=
  ⟨nofun, nofun, nofun, fun _ _ => rfl, fun _ => rfl, fun _ _ _ heq => nomatch (List.append_eq_nil_iff.mp heq.symm).2⟩

variable (ι) in
/-- **Files are written as a whole or not at all.**  Whatever the threads do in turn and whatever the system answers, with
short writes and errors, no check fails, and at every moment the bytes under each path are the data of the last
`atomic_write_file` that has returned without an error, or what they were at the start.  What a thread is told is about the
call that it is in, and what `read_file` returns is its part of bytes that were stored so at a moment of its call. -/
theorem atomic_files (Tmp : String → Prop) (m : Shared) (events : List (Event ι))
    (hadmits : (machine ι).Along (Admits Tmp) (start ι m) events) : ∃ s answers,
      (machine ι).run (start ι m) events = some (s, answers) ∧
      (∀ path, ¬ Tmp path → s.shared.fs.contents path = stored m.fs.contents (events.zip answers) path) ∧
      ∀ before event answer after, events.zip answers = before ++ (event, answer) :: after →
        Answered m.fs.contents before event answer := by
  obtain ⟨s, answers, hrun, -, h⟩ := Machine.run_history (machine ι) (start ι m) (Admits Tmp) (fun _ => True)
    (fun events answers s => events.length = answers.length ∧ Agrees Tmp m.fs.contents (events.zip answers) s)
    (fun _ _ _ => trivial) ⟨rfl, agrees_start Tmp m⟩ (by
      rintro events answers s event - hadmits ⟨hlen, h⟩
      obtain ⟨s', answer, hstep, h'⟩ := h.step event hadmits
      refine ⟨s', answer, hstep, by rw [List.length_append, List.length_append, hlen]; rfl, ?_⟩
      rwa [List.zip_append hlen]) events trivial hadmits
  exact ⟨s, answers, hrun, h.files, fun before event answer after => h.answered before (event, answer) after⟩

end Runs

/-- No files, and no locks. -/
def noFiles : Shared := ⟨⟨fun _ => [], fun _ => none, 0, nofun, nofun⟩, ∅⟩

/-- A thread writes the path `a` and another one asks for it.  The first `open` of the reader finds no file, the second one
comes when the new file has its name. -/
def writeAndRead : List (Event Bool) :=
  [.write false ⟨"a", [1, 2, 3], ""⟩, .read true ⟨"a", -1, 1⟩, .step false (.ok 3), .step false (.ok 0), .step false (.ok 0), .step true (.ok 4),
    .step false (.ok 0), .step false (.ok 3), .read true ⟨"a", -1, 1⟩, .step false (.ok 0), .step false (.ok 0), .step false (.ok 0),
    .step true (.ok 4), .step true (.ok 0), .step true (.ok 2)]

theorem atomic_files_two : ∃ s answers, (machine Bool).run (start Bool noFiles) writeAndRead = some (s, answers) ∧
    (∀ path, ¬ path = "a.tmp" → s.shared.fs.contents path = stored noFiles.fs.contents (writeAndRead.zip answers) path) ∧
    (∀ before event answer after, writeAndRead.zip answers = before ++ (event, answer) :: after →
      Answered noFiles.fs.contents before event answer) ∧
    answers.drop 11 = [.written ⟨"a", [1, 2, 3], ""⟩, .nothing, .nothing, .read ⟨"a", -1, 1⟩ [2, 3]] := by
  have hpath : ¬ "a" = "a.tmp" := by decide
  have hadmits : (machine Bool).Along (Admits (· = "a.tmp")) (start Bool noFiles) writeAndRead := by
    refine ⟨fun _ => ⟨rfl, hpath, nofun⟩, hpath, trivial, trivial, trivial, trivial, trivial, trivial, hpath, trivial, trivial,
      trivial, trivial, trivial, trivial, trivial⟩
  obtain ⟨s, answers, hrun, hfiles, hanswered⟩ := atomic_files Bool (· = "a.tmp") noFiles writeAndRead hadmits
  refine ⟨s, answers, hrun, hfiles, hanswered, ?_⟩
  obtain ⟨t, answers', hrun', hlast⟩ : ∃ t answers',
      (machine Bool).run (start Bool noFiles) writeAndRead = some (t, answers') ∧
        answers'.drop 11 = [.written ⟨"a", [1, 2, 3], ""⟩, .nothing, .nothing, .read ⟨"a", -1, 1⟩ [2, 3]] :=
    ⟨_, _, rfl, rfl⟩
  obtain ⟨-, rfl⟩ := Prod.mk.inj (Option.some.inj (hrun.symm.trans hrun'))
  exact hlast

/-- Two writers of one path have one temporary file.  The second one opens it, and takes its bytes away, when the first one
has written it and gives its lock back; the first one returns without an error, and its path has no bytes. -/
theorem same_tmp_loses_data : ∃ s answers,
    (machine Bool).run (start Bool noFiles)
      [.write false ⟨"a", [1, 2], ""⟩, .step false (.ok 3), .step false (.ok 0), .step false (.ok 0), .step false (.ok 0), .step false (.ok 2),
        .step false (.ok 0), .write true ⟨"a", [3], ""⟩, .step true (.ok 4), .step false (.ok 0), .step false (.ok 0)] = some (s, answers) ∧
    answers.getLast? = some (.written ⟨"a", [1, 2], ""⟩) ∧ s.shared.fs.contents "a" = some [] :=
  ⟨_, _, rfl, rfl, rfl⟩

end AtomicWrite

end TdUtils.Filesystem
