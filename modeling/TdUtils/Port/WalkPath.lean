import TdUtils.Lib.Bytes
import TdUtils.Port.FileFd

/-!
# Port.WalkPath — walks through the directories of POSIX

The functions under `WalkPath::run` share one path, which is extended for an entry and resized behind it.  What they ask
the system is answered by `System`, and what it answers for a tree is `Stands`: an entry whose type `readdir` does not
know is opened, and so a symbolic link is followed.
-/

namespace TdUtils

open Lib Bytes

namespace WalkPath

inductive Action
  | continue_
  | abort
  | skipDir
deriving DecidableEq

inductive Kind
  | enterDir
  | exitDir
  | notDir
deriving DecidableEq

/-- `d_type`. -/
inductive DType
  | unknown
  | dir
  | reg
  /-- A symbolic link, a device, a pipe or a socket. -/
  | other
deriving DecidableEq

/-- What `readdir` returns. -/
structure DirEntry where
  name : List UInt8
  type : DType
deriving DecidableEq

/-- A `DIR`: the entries that are still to be read, and what `readdir` sets `errno` to behind them. -/
structure Dir where
  entries : List DirEntry
  errno : Option ℕ

structure Stat where
  isDir : Bool
  isReg : Bool

/-- The answers of the system, and those of `FileFd::open` and `FileFd::stat`; errors of the system by their number. -/
structure System where
  Fd : Type
  open_ : List UInt8 → Except StatusError Fd
  stat : Fd → Except StatusError Stat
  fdopendir : Fd → Except ℕ Dir
  opendir : List UInt8 → Except ℕ Dir

def slash : UInt8 := ch '/'

/-- `.` and `..`. -/
def isDots (name : List UInt8) : Bool := name = [ch '.'] ∨ name = [ch '.', ch '.']

/-- `path.resize(size)`. -/
def resize (path : List UInt8) (size : ℕ) : List UInt8 := path.take size ++ List.replicate (size - path.length) 0

/-- `Result<bool>`, the path and the state of the program after a call; nothing when the bound of the recursion was too
low. -/
abbrev Outcome (σ : Type) := Option (Except StatusError Bool × List UInt8 × σ)

section Functions

variable {σ : Type} (sys : System) (func : List UInt8 → Kind → σ → Action × σ)

/-- `walk_path_file`. -/
def walkPathFile (path : List UInt8) (s : σ) : Outcome σ :=
  match func path .notDir s with
  | (.abort, s) => some (.ok false, path, s)
  | (_, s) => some (.ok true, path, s)

section Directories

variable (walkPathSubdir : Dir → List UInt8 → σ → Outcome σ)

/-- `walk_path_dir` of a `DIR`. -/
def walkPathDir (subdir : Dir) (path : List UInt8) (s : σ) : Outcome σ :=
  match func path .enterDir s with
  | (.abort, s) => some (.ok false, path, s)
  | (.skipDir, s) => some (.ok true, path, s)
  | (.continue_, s) =>
    match walkPathSubdir subdir path s with
    | some (.ok true, path, s) =>
      match func path .exitDir s with
      | (.abort, s) => some (.ok false, path, s)
      | (_, s) => some (.ok true, path, s)
    | outcome => outcome

/-- `walk_path_dir` of a `FileFd`. -/
def walkPathDirFd (fd : sys.Fd) (path : List UInt8) (s : σ) : Outcome σ :=
  match sys.fdopendir fd with
  | .error errno => some (.error (osError errno "fdopendir"), path, s)
  | .ok subdir => walkPathDir func walkPathSubdir subdir path s

/-- `walk_path_dir` of a path. -/
def walkPathDirPath (path : List UInt8) (s : σ) : Outcome σ :=
  match sys.opendir path with
  | .error errno => some (.error (osError errno ("[opendir:" ++ String.join (path.map toText) ++ "]")), path, s)
  | .ok subdir => walkPathDir func walkPathSubdir subdir path s

/-- `walk_path`. -/
def walkPath (path : List UInt8) (s : σ) : Outcome σ :=
  match sys.open_ path with
  | .error e => some (.error e, path, s)
  | .ok fd =>
    match sys.stat fd with
    | .error e => some (.error e, path, s)
    | .ok stat =>
      if stat.isDir then walkPathDirFd sys func walkPathSubdir fd path s
      else if stat.isReg then walkPathFile func path s
      else some (.ok true, path, s)

/-- What is done with an entry. -/
def walkEntry (type : DType) (path : List UInt8) (s : σ) : Outcome σ :=
  match type with
  | .unknown => walkPath sys func walkPathSubdir path s
  | .dir => walkPathDirPath sys func walkPathSubdir path s
  | .reg => walkPathFile func path s
  | .other => some (.ok true, path, s)

end Directories

/-- The path of an entry. -/
def entryPath (path name : List UInt8) : List UInt8 :=
  (if path.getLast? ≠ some slash then path ++ [slash] else path) ++ name

/-- `walk_path_subdir`, with a bound for the rounds of its loop and the depth of the directories. -/
def walkPathSubdir : ℕ → Dir → List UInt8 → σ → Outcome σ
  | 0, _, _, _ => none
  | fuel + 1, dir, path, s =>
    match dir.entries with
    | [] =>
      match dir.errno with
      | some errno => some (.error (osError errno "readdir"), path, s)
      | none => some (.ok true, path, s)
    | entry :: entries =>
      if isDots entry.name then walkPathSubdir fuel ⟨entries, dir.errno⟩ path s
      else
        match walkEntry sys func (walkPathSubdir fuel) entry.type (entryPath path entry.name) s with
        | some (.ok true, path', s) => walkPathSubdir fuel ⟨entries, dir.errno⟩ (resize path' path.length) s
        | some (status, path', s) => some (status, resize path' path.length, s)
        | none => none

/-- `WalkPath::do_run`; an error is returned, if there is one. -/
def doRun (fuel : ℕ) (path : List UInt8) (s : σ) : Option (Option StatusError × σ) :=
  match walkPath sys func (walkPathSubdir sys func fuel) path s with
  | some (.ok _, _, s) => some (none, s)
  | some (.error e, _, s) => some (some e, s)
  | none => none

end Functions

/-! ### Trees -/

mutual

/-- What stands at a path. -/
inductive Node
  | reg
  | directory (entries : Entries)
  /-- Neither of them, and no symbolic link. -/
  | other
  /-- A symbolic link, and what it leads to. -/
  | link (target : Node)

/-- The entries of a directory, as `readdir` reports them; it knows their types or does not. -/
inductive Entries
  | nil
  | cons (name : List UInt8) (known : Bool) (node : Node) (rest : Entries)

end

def Node.type : Node → DType
  | .reg => .reg
  | .directory _ => .dir
  | .other => .other
  | .link _ => .other

/-- What `readdir` returns for the entries. -/
def Entries.listing : Entries → List DirEntry
  | .nil => []
  | .cons name known node rest => ⟨name, if known then node.type else .unknown⟩ :: rest.listing

/-- `.` and `..` stand anywhere between the entries. -/
def Lists (dir : Dir) (entries : Entries) : Prop :=
  dir.errno = none ∧ dir.entries.filter (fun entry => !isDots entry.name) = entries.listing

section Trees

variable (sys : System)

mutual

/-- No call of the system fails for what stands at the path: if its type is known a directory can be listed, and if not
it can be opened, and a link leads to what it leads to. -/
def Stands : Bool → Node → List UInt8 → Prop
  | true, .directory entries, path => ∃ dir, sys.opendir path = .ok dir ∧ Lists dir entries ∧ StandBelow path entries
  | true, _, _ => True
  | false, .reg, path => ∃ fd, sys.open_ path = .ok fd ∧ sys.stat fd = .ok ⟨false, true⟩
  | false, .other, path => ∃ fd, sys.open_ path = .ok fd ∧ sys.stat fd = .ok ⟨false, false⟩
  | false, .link target, path => Stands false target path
  | false, .directory entries, path => ∃ fd dir, sys.open_ path = .ok fd ∧ sys.stat fd = .ok ⟨true, false⟩ ∧
      sys.fdopendir fd = .ok dir ∧ Lists dir entries ∧ StandBelow path entries

def StandBelow (path : List UInt8) : Entries → Prop
  | .nil => True
  | .cons name known node rest => Stands known node (entryPath path name) ∧ StandBelow path rest

end

end Trees

/-! ### Traversals -/

section Traversals

variable {σ : Type} (func : List UInt8 → Kind → σ → Action × σ)

mutual

/-- The depth-first traversal: whether it goes on, and the state behind it. -/
def visit : Node → List UInt8 → σ → Bool × σ
  | .reg, path, s =>
    match func path .notDir s with
    | (.abort, s) => (false, s)
    | (_, s) => (true, s)
  | .directory entries, path, s =>
    match func path .enterDir s with
    | (.abort, s) => (false, s)
    | (.skipDir, s) => (true, s)
    | (.continue_, s) =>
      match visitBelow path entries s with
      | (false, s) => (false, s)
      | (true, s) =>
        match func path .exitDir s with
        | (.abort, s) => (false, s)
        | (_, s) => (true, s)
  | .other, _, s => (true, s)
  | .link _, _, s => (true, s)

def visitBelow (path : List UInt8) : Entries → σ → Bool × σ
  | .nil, s => (true, s)
  | .cons name _ node rest, s =>
    match visit node (entryPath path name) s with
    | (false, s) => (false, s)
    | (true, s) => visitBelow path rest s

end

end Traversals

mutual

/-- What the code takes the node for: a link is what it leads to where the type is not known. -/
def followed : Bool → Node → Node
  | _, .reg => .reg
  | _, .other => .other
  | _, .directory entries => .directory (followedBelow entries)
  | true, .link target => .link target
  | false, .link target => followed false target

def followedBelow : Entries → Entries
  | .nil => .nil
  | .cons name known node rest => .cons name known (followed known node) (followedBelow rest)

end

/-! ### Walks -/

section Walks

variable {σ : Type} {sys : System} {func : List UInt8 → Kind → σ → Action × σ}

theorem resize_entryPath (path name : List UInt8) : resize (entryPath path name) path.length = path := by
  have hprefix : path <+: entryPath path name := by
    unfold entryPath
    split_ifs
    · rw [List.append_assoc]
      exact List.prefix_append path _
    · exact List.prefix_append path _
  rw [resize, List.prefix_iff_eq_take.mp hprefix |>.symm, Nat.sub_eq_zero_of_le hprefix.length_le]
  simp

/-- The outcome of a call that has gone on as the traversal, and has left the path as it was. -/
def done (path : List UInt8) (r : Bool × σ) : Outcome σ := some (.ok r.1, path, r.2)

theorem walkPathFile_eq (path : List UInt8) (s : σ) : walkPathFile func path s = done path (visit func .reg path s) := by
  unfold walkPathFile visit
  rcases func path .notDir s with ⟨- | - | -, t⟩ <;> rfl

/-- A directory is visited if its entries are. -/
theorem walkPathDir_eq {subdir : Dir → List UInt8 → σ → Outcome σ} {dir : Dir} {path : List UInt8} {entries : Entries}
    (h : ∀ s, subdir dir path s = done path (visitBelow func path entries s)) (s : σ) :
    walkPathDir func subdir dir path s = done path (visit func (.directory entries) path s) := by
  unfold walkPathDir visit
  rcases func path .enterDir s with ⟨- | - | -, t⟩
  · dsimp only
    rw [h]
    rcases visitBelow func path entries t with ⟨- | -, u⟩
    · rfl
    · dsimp only [done]
      rcases func path .exitDir u with ⟨- | - | -, v⟩ <;> rfl
  · rfl
  · rfl

theorem walkPathSubdir_dots (errno : Option ℕ) (rest : List DirEntry) (path : List UInt8) (s : σ) (fuel : ℕ) :
    ∀ {dots : List DirEntry}, (∀ entry ∈ dots, isDots entry.name = true) →
      walkPathSubdir sys func (fuel + dots.length) ⟨dots ++ rest, errno⟩ path s =
        walkPathSubdir sys func fuel ⟨rest, errno⟩ path s
  | [], _ => rfl
  | entry :: dots, hdots => by
    obtain ⟨hentry, hdots⟩ := List.forall_mem_cons.mp hdots
    change walkPathSubdir sys func (fuel + dots.length + 1) _ _ _ = _
    rw [walkPathSubdir, List.cons_append]
    dsimp only
    rw [if_pos hentry]
    exact walkPathSubdir_dots errno rest path s fuel hdots

mutual

/-- What stands at a path is walked through as the tree that it is taken for. -/
theorem walkEntry_stands : ∀ (known : Bool) (node : Node) (path : List UInt8), Stands sys known node path →
    ∃ n, ∀ fuel ≥ n, ∀ s : σ,
      walkEntry sys func (walkPathSubdir sys func fuel) (if known then node.type else .unknown) path s =
        done path (visit func (followed known node) path s)
  | true, .reg, path, _ => ⟨0, fun fuel _ s => walkPathFile_eq path s⟩
  | true, .other, path, _ => ⟨0, fun fuel _ s => rfl⟩
  | true, .link _, path, _ => ⟨0, fun fuel _ s => rfl⟩
  | true, .directory entries, path, h => by
    obtain ⟨dir, hdir, hlists, hbelow⟩ := h
    obtain ⟨n, hwalk⟩ := walkPathSubdir_stand entries path hbelow dir hlists
    refine ⟨n, fun fuel hfuel s => ?_⟩
    have hentry := walkPathDir_eq (hwalk fuel hfuel) s
    rw [followed, ← hentry]
    change walkPathDirPath sys func _ path s = _
    unfold walkPathDirPath
    rw [hdir]
  | false, .reg, path, h => by
    obtain ⟨fd, hopen, hstat⟩ := h
    refine ⟨0, fun fuel _ s => ?_⟩
    change walkPath sys func _ path s = _
    unfold walkPath
    rw [hopen]
    dsimp only
    rw [hstat]
    exact walkPathFile_eq path s
  | false, .other, path, h => by
    obtain ⟨fd, hopen, hstat⟩ := h
    refine ⟨0, fun fuel _ s => ?_⟩
    change walkPath sys func _ path s = _
    unfold walkPath
    rw [hopen]
    dsimp only
    rw [hstat]
    rfl
  | false, .link target, path, h => walkEntry_stands false target path h
  | false, .directory entries, path, h => by
    obtain ⟨fd, dir, hopen, hstat, hdir, hlists, hbelow⟩ := h
    obtain ⟨n, hwalk⟩ := walkPathSubdir_stand entries path hbelow dir hlists
    refine ⟨n, fun fuel hfuel s => ?_⟩
    have hentry := walkPathDir_eq (hwalk fuel hfuel) s
    rw [followed, ← hentry]
    change walkPath sys func _ path s = _
    unfold walkPath walkPathDirFd
    rw [hopen]
    dsimp only
    rw [hstat]
    dsimp only
    rw [if_pos rfl, hdir]

theorem walkPathSubdir_stand : ∀ (entries : Entries) (path : List UInt8), StandBelow sys path entries →
    ∀ (dir : Dir), Lists dir entries → ∃ n, ∀ fuel ≥ n, ∀ s : σ,
      walkPathSubdir sys func fuel dir path s = done path (visitBelow func path (followedBelow entries) s)
  | .nil, path, _, dir, hlists => by
    obtain ⟨entries, errno⟩ := dir
    obtain ⟨rfl, hlisting⟩ := hlists
    refine ⟨entries.length + 1, fun fuel hfuel s => ?_⟩
    obtain ⟨m, rfl⟩ := Nat.exists_eq_add_of_le hfuel
    have hdots : ∀ entry ∈ entries, isDots entry.name = true := by
      simpa using List.filter_eq_nil_iff.mp hlisting
    rw [show entries.length + 1 + m = m + 1 + entries.length by omega]
    have hrun := @walkPathSubdir_dots σ sys func none [] path s (m + 1) entries hdots
    rw [List.append_nil] at hrun
    exact hrun
  | .cons name known node rest, path, h, dir, hlists => by
    obtain ⟨entries, errno⟩ := dir
    obtain ⟨rfl, hlisting⟩ := hlists
    obtain ⟨hnode, hrest⟩ := h
    obtain ⟨dots, behind, rfl, hdots, hname, hbehind⟩ := List.filter_eq_cons_iff.mp hlisting
    obtain ⟨n, hentry⟩ := walkEntry_stands known node (entryPath path name) hnode
    obtain ⟨m, hsubdir⟩ := walkPathSubdir_stand rest path hrest ⟨behind, none⟩ ⟨rfl, hbehind⟩
    refine ⟨dots.length + 1 + max n m, fun fuel hfuel s => ?_⟩
    obtain ⟨k, rfl⟩ := Nat.exists_eq_add_of_le hfuel
    have hdots' : ∀ entry ∈ dots, isDots entry.name = true := by simpa using hdots
    have hname' : isDots name = false := by simpa using hname
    rw [show dots.length + 1 + max n m + k = max n m + k + 1 + dots.length by omega, walkPathSubdir_dots _ _ _ _ _ hdots',
      walkPathSubdir, followedBelow, visitBelow]
    dsimp only
    rw [if_neg (by rw [hname']; exact Bool.false_ne_true), hentry _ (by omega)]
    rcases visit func (followed known node) (entryPath path name) s with ⟨- | -, t⟩
    · dsimp only [done]
      rw [resize_entryPath]
    · dsimp only [done]
      rw [resize_entryPath, hsubdir _ (by omega)]
      rfl

end

theorem walkPath_stands (func : List UInt8 → Kind → σ → Action × σ) {root : Node} {path : List UInt8}
    (h : Stands sys false root path) : ∃ n, ∀ fuel ≥ n, ∀ s : σ,
    walkPath sys func (walkPathSubdir sys func fuel) path s = done path (visit func (followed false root) path s) :=
  walkEntry_stands false root path h

theorem doRun_eq {fuel : ℕ} {path : List UInt8} {s : σ} {r : Bool × σ}
    (h : walkPath sys func (walkPathSubdir sys func fuel) path s = done path r) :
    doRun sys func fuel path s = some (none, r.2) := by
  unfold doRun
  rw [h]
  rfl

end Walks

/-! ### The path -/

/-- Whatever comes of a call, it leaves the path as it was. -/
def Restores {σ : Type} (call : List UInt8 → σ → Outcome σ) : Prop :=
  ∀ path s, ∀ outcome ∈ call path s, outcome.2.1 = path

section Paths

variable {σ : Type} {sys : System} {func : List UInt8 → Kind → σ → Action × σ} {subdir : Dir → List UInt8 → σ → Outcome σ}

theorem walkPathFile_restores : Restores (walkPathFile func) := by
  intro path s
  rw [walkPathFile_eq]
  rintro outcome ⟨⟩
  rfl

theorem walkPathDir_restores (h : ∀ dir, Restores (subdir dir)) (dir : Dir) : Restores (walkPathDir func subdir dir) := by
  intro path s
  unfold walkPathDir
  rcases func path .enterDir s with ⟨- | - | -, t⟩
  · have hsubdir := h dir path t
    dsimp only
    rcases hrun : subdir dir path t with - | ⟨e | - | -, path₁, u⟩
    · rintro outcome ⟨⟩
    · rintro outcome ⟨⟩
      exact hsubdir _ hrun
    · rintro outcome ⟨⟩
      exact hsubdir _ hrun
    · obtain rfl : path₁ = path := hsubdir _ hrun
      dsimp only
      rcases func path₁ .exitDir u with ⟨- | - | -, v⟩ <;> rintro outcome ⟨⟩ <;> rfl
  · rintro outcome ⟨⟩
    rfl
  · rintro outcome ⟨⟩
    rfl

theorem walkPath_restores (h : ∀ dir, Restores (subdir dir)) : Restores (walkPath sys func subdir) := by
  intro path s
  unfold walkPath
  rcases sys.open_ path with e | fd
  · rintro outcome ⟨⟩
    rfl
  dsimp only
  rcases sys.stat fd with e | stat
  · rintro outcome ⟨⟩
    rfl
  dsimp only
  split_ifs
  · unfold walkPathDirFd
    rcases sys.fdopendir fd with errno | dir
    · rintro outcome ⟨⟩
      rfl
    · exact walkPathDir_restores h dir path s
  · exact walkPathFile_restores path s
  · rintro outcome ⟨⟩
    rfl

theorem walkEntry_restores (h : ∀ dir, Restores (subdir dir)) (type : DType) :
    Restores (walkEntry sys func subdir type) := by
  intro path s
  cases type with
  | unknown => exact walkPath_restores h path s
  | dir =>
    unfold walkEntry walkPathDirPath
    dsimp only
    rcases sys.opendir path with errno | dir
    · rintro outcome ⟨⟩
      rfl
    · exact walkPathDir_restores h dir path s
  | reg => exact walkPathFile_restores path s
  | other =>
    rintro outcome ⟨⟩
    rfl

/-- The scope guards restore the path also behind an error, an abort and a link that is followed. -/
theorem walkPathSubdir_restores : ∀ (fuel : ℕ) (dir : Dir), Restores (walkPathSubdir sys func fuel dir)
  | 0, dir => by
    rintro path s outcome ⟨⟩
  | fuel + 1, dir => by
    intro path s
    rw [walkPathSubdir]
    rcases dir.entries with - | ⟨entry, entries⟩
    · rcases dir.errno with - | errno <;> rintro outcome ⟨⟩ <;> rfl
    dsimp only
    split_ifs
    · exact walkPathSubdir_restores fuel _ path s
    · have hcall : Restores (walkEntry sys func (walkPathSubdir sys func fuel) entry.type) :=
        walkEntry_restores (walkPathSubdir_restores fuel) entry.type
      have hentry := hcall (entryPath path entry.name) s
      rcases hrun : walkEntry sys func (walkPathSubdir sys func fuel) entry.type (entryPath path entry.name) s with
        - | ⟨e | - | -, path₁, t⟩
      · rintro outcome ⟨⟩
      · obtain rfl : path₁ = _ := hentry _ hrun
        rintro outcome ⟨⟩
        exact resize_entryPath path entry.name
      · obtain rfl : path₁ = _ := hentry _ hrun
        rintro outcome ⟨⟩
        exact resize_entryPath path entry.name
      · obtain rfl : path₁ = _ := hentry _ hrun
        dsimp only
        rw [resize_entryPath]
        exact walkPathSubdir_restores fuel _ path t

end Paths

/-! ### Links that are followed -/

/-- Opened, it is neither a directory nor a regular file. -/
def Skipped : Node → Prop
  | .reg => False
  | .directory _ => False
  | .other => True
  | .link target => Skipped target

mutual

/-- No symbolic link that leads to a directory or a regular file has a type that `readdir` does not know. -/
def NoneFollowed : Bool → Node → Prop
  | _, .reg => True
  | _, .other => True
  | _, .directory entries => NoneFollowedBelow entries
  | true, .link _ => True
  | false, .link target => Skipped target

def NoneFollowedBelow : Entries → Prop
  | .nil => True
  | .cons _ known node rest => NoneFollowed known node ∧ NoneFollowedBelow rest

end

section Followed

variable {σ : Type} {func : List UInt8 → Kind → σ → Action × σ}

theorem visit_skipped : ∀ (node : Node) (path : List UInt8) (s : σ), Skipped node →
    visit func (followed false node) path s = (true, s)
  | .other, _, _, _ => rfl
  | .link target, path, s, h => visit_skipped target path s h

mutual

theorem visit_followed : ∀ (known : Bool) (node : Node) (path : List UInt8) (s : σ), NoneFollowed known node →
    visit func (followed known node) path s = visit func node path s
  | known, .reg, path, s, _ => by cases known <;> rfl
  | known, .other, path, s, _ => by cases known <;> rfl
  | true, .link _, path, s, _ => rfl
  | false, .link target, path, s, h => visit_skipped target path s h
  | known, .directory entries, path, s, h => by
    have hbelow : NoneFollowedBelow entries := by cases known <;> exact h
    have hsame : followed known (.directory entries) = .directory (followedBelow entries) := by cases known <;> rfl
    rw [hsame]
    unfold visit
    rcases func path .enterDir s with ⟨- | - | -, t⟩
    · dsimp only
      rw [visitBelow_followed entries path t hbelow]
    · rfl
    · rfl

theorem visitBelow_followed : ∀ (entries : Entries) (path : List UInt8) (s : σ), NoneFollowedBelow entries →
    visitBelow func path (followedBelow entries) s = visitBelow func path entries s
  | .nil, _, _, _ => rfl
  | .cons name known node rest, path, s, h => by
    rw [followedBelow, visitBelow, visitBelow, visit_followed known node _ s h.1]
    rcases visit func node (entryPath path name) s with ⟨- | -, t⟩
    · rfl
    · exact visitBelow_followed rest path t h.2

end

end Followed

/-! ### The calls of a whole traversal -/

mutual

/-- Each directory on entry and on exit, and each regular file. -/
def traversal : Node → List UInt8 → List (List UInt8 × Kind)
  | .reg, path => [(path, .notDir)]
  | .directory entries, path => (path, .enterDir) :: (traversalBelow path entries ++ [(path, .exitDir)])
  | .other, _ => []
  | .link _, _ => []

def traversalBelow (path : List UInt8) : Entries → List (List UInt8 × Kind)
  | .nil => []
  | .cons name _ node rest => traversal node (entryPath path name) ++ traversalBelow path rest

end

/-- A callback that notes its calls, and goes on. -/
def record (path : List UInt8) (kind : Kind) (calls : List (List UInt8 × Kind)) : Action × List (List UInt8 × Kind) :=
  (.continue_, calls ++ [(path, kind)])

mutual

theorem visit_record : ∀ (node : Node) (path : List UInt8) (calls : List (List UInt8 × Kind)),
    visit record node path calls = (true, calls ++ traversal node path)
  | .reg, _, _ => rfl
  | .other, _, calls => by rw [visit, traversal, List.append_nil]
  | .link _, _, calls => by rw [visit, traversal, List.append_nil]
  | .directory entries, path, calls => by
    unfold visit
    dsimp only [record]
    rw [visitBelow_record entries path]
    dsimp only
    rw [traversal, List.append_assoc, List.append_assoc]
    rfl

theorem visitBelow_record : ∀ (entries : Entries) (path : List UInt8) (calls : List (List UInt8 × Kind)),
    visitBelow record path entries calls = (true, calls ++ traversalBelow path entries)
  | .nil, _, calls => by rw [visitBelow, traversalBelow, List.append_nil]
  | .cons name _ node rest, path, calls => by
    rw [visitBelow, visit_record node]
    dsimp only
    rw [visitBelow_record rest path, traversalBelow, List.append_assoc]

end

theorem traversal_pos : ∀ (node : Node) (path : List UInt8), ¬ Skipped node →
    0 < (traversal (followed false node) path).length
  | .reg, _, _ => Nat.one_pos
  | .directory _, _, _ => Nat.succ_pos _
  | .other, _, h => absurd trivial h
  | .link target, path, h => traversal_pos target path h

mutual

/-- Links that are followed give more calls. -/
theorem traversal_followed : ∀ (known : Bool) (node : Node) (path : List UInt8),
    (traversal node path).length ≤ (traversal (followed known node) path).length ∧
      ((traversal (followed known node) path).length ≤ (traversal node path).length → NoneFollowed known node)
  | known, .reg, path => by cases known <;> exact ⟨Nat.le_refl _, fun _ => trivial⟩
  | known, .other, path => by cases known <;> exact ⟨Nat.le_refl _, fun _ => trivial⟩
  | true, .link _, path => ⟨Nat.le_refl _, fun _ => trivial⟩
  | false, .link target, path => by
    refine ⟨Nat.zero_le _, fun hle => by_contra fun hskipped => ?_⟩
    exact absurd (traversal_pos target path hskipped) (Nat.not_lt.mpr hle)
  | known, .directory entries, path => by
    obtain ⟨hle, hnone⟩ := traversalBelow_followed entries path
    have hsame : followed known (.directory entries) = .directory (followedBelow entries) := by cases known <;> rfl
    rw [hsame]
    simp only [traversal, List.length_cons, List.length_append, List.length_nil]
    refine ⟨by omega, fun hge => ?_⟩
    have hbelow := hnone (by omega)
    cases known <;> exact hbelow

theorem traversalBelow_followed : ∀ (entries : Entries) (path : List UInt8),
    (traversalBelow path entries).length ≤ (traversalBelow path (followedBelow entries)).length ∧
      ((traversalBelow path (followedBelow entries)).length ≤ (traversalBelow path entries).length →
        NoneFollowedBelow entries)
  | .nil, _ => ⟨Nat.le_refl _, fun _ => trivial⟩
  | .cons name known node rest, path => by
    obtain ⟨hle, hnone⟩ := traversal_followed known node (entryPath path name)
    obtain ⟨hle', hnone'⟩ := traversalBelow_followed rest path
    rw [followedBelow, traversalBelow, traversalBelow, List.length_append, List.length_append]
    exact ⟨by omega, fun hge => ⟨hnone (by omega), hnone' (by omega)⟩⟩

end

/-! ### The whole walk -/

/-- The walk from the path of a directory is the depth-first traversal of its tree, and every call restores the path. -/
structure Traverses (sys : System) (entries : Entries) (path : List UInt8) : Prop where
  visits : ∀ {σ : Type} (func : List UInt8 → Kind → σ → Action × σ), ∃ n, ∀ fuel ≥ n, ∀ s : σ,
    walkPath sys func (walkPathSubdir sys func fuel) path s = done path (visit func (.directory entries) path s) ∧
      doRun sys func fuel path s = some (none, (visit func (.directory entries) path s).2)
  restores : ∀ {σ : Type} (func : List UInt8 → Kind → σ → Action × σ) (fuel : ℕ),
    (∀ type, Restores (walkEntry sys func (walkPathSubdir sys func fuel) type)) ∧
      ∀ dir, Restores (walkPathSubdir sys func fuel dir)

section Whole

variable {sys : System} {entries : Entries} {path : List UInt8}

theorem traverses_of_noneFollowed (h : Stands sys false (.directory entries) path) (hnone : NoneFollowedBelow entries) :
    Traverses sys entries path := by
  refine ⟨fun func => ?_, fun func fuel => ⟨walkEntry_restores (walkPathSubdir_restores fuel), walkPathSubdir_restores fuel⟩⟩
  obtain ⟨n, hwalk⟩ := walkPath_stands func h
  refine ⟨n, fun fuel hfuel s => ?_⟩
  have hrun := hwalk fuel hfuel s
  rw [visit_followed false (.directory entries) path s hnone] at hrun
  exact ⟨hrun, doRun_eq hrun⟩

/-- With a callback that notes its calls, a link that is followed is noticed. -/
theorem noneFollowed_of_traverses (h : Stands sys false (.directory entries) path) (htraverses : Traverses sys entries path) :
    NoneFollowedBelow entries := by
  obtain ⟨n, hwalk⟩ := walkPath_stands record h
  obtain ⟨m, hvisits⟩ := htraverses.visits record
  have hsame := (hwalk (max n m) (Nat.le_max_left n m) []).symm.trans (hvisits (max n m) (Nat.le_max_right n m) []).1
  rw [visit_record, visit_record] at hsame
  have hcalls : traversal (followed false (.directory entries)) path = traversal (.directory entries) path :=
    (Prod.mk.inj (Prod.mk.inj (Option.some.inj hsame)).2).2
  exact (traversal_followed false (.directory entries) path).2 (by rw [hcalls])

/-- **Walks.**  The callback gets the depth-first traversal exactly when no symbolic link to a directory or a regular file
has a type that `readdir` does not know. -/
theorem traverses_iff (h : Stands sys false (.directory entries) path) :
    Traverses sys entries path ↔ NoneFollowedBelow entries :=
  ⟨noneFollowed_of_traverses h, traverses_of_noneFollowed h⟩

end Whole

/-- A directory `a`, and directories with a file `x` wherever else a path leads. -/
def aDirectory (entries : List DirEntry) : System where
  Fd := List UInt8
  open_ path := .ok path
  stat _ := .ok ⟨true, false⟩
  fdopendir path := .ok ⟨if path = chs ['a'] then entries else [⟨chs ['x'], .reg⟩], none⟩
  opendir path := .ok ⟨if path = chs ['a'] then entries else [⟨chs ['x'], .reg⟩], none⟩

/-- A directory in the directory `a`. -/
theorem traverses_iff_two :
    Traverses (aDirectory [⟨chs ['.'], .dir⟩, ⟨chs ['b'], .dir⟩])
        (.cons (chs ['b']) true (.directory (.cons (chs ['x']) true .reg .nil)) .nil) (chs ['a']) ↔
      NoneFollowedBelow (.cons (chs ['b']) true (.directory (.cons (chs ['x']) true .reg .nil)) .nil) :=
  traverses_iff ⟨chs ['a'], _, rfl, rfl, rfl, ⟨rfl, rfl⟩, ⟨_, rfl, ⟨rfl, rfl⟩, trivial, trivial⟩, trivial⟩

/-- The link `l` in the directory `a` leads to a directory with the file `x`, and its type is not known. -/
theorem unknown_link_followed : ¬ ∀ (sys : System) (entries : Entries) (path : List UInt8),
    Stands sys false (.directory entries) path → Traverses sys entries path := by
  intro hall
  have hstands : Stands (aDirectory [⟨chs ['l'], .unknown⟩]) false
      (.directory (.cons (chs ['l']) false (.link (.directory (.cons (chs ['x']) true .reg .nil))) .nil)) (chs ['a']) :=
    ⟨chs ['a'], _, rfl, rfl, rfl, ⟨rfl, rfl⟩, ⟨_, _, rfl, rfl, rfl, ⟨rfl, rfl⟩, trivial, trivial⟩, trivial⟩
  exact (noneFollowed_of_traverses hstands (hall _ _ _ hstands)).1

/-- The callback gets what is behind the link. -/
example : doRun (aDirectory [⟨chs ['l'], .unknown⟩]) record 4 (chs ['a']) [] = some (none,
    [(chs ['a'], .enterDir), (chs ['a', '/', 'l'], .enterDir), (chs ['a', '/', 'l', '/', 'x'], .notDir),
      (chs ['a', '/', 'l'], .exitDir), (chs ['a'], .exitDir)]) := rfl

end WalkPath

end TdUtils
