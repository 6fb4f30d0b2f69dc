import Mathlib.Logic.Function.Basic
import TdUtils.Lib.Part

/-!
# Lib.FileSystem — names and files

A name leads to a file or to none, and no two names lead to one file.  A file has bytes, and keeps them when its name is taken
away; what has opened a file knows it by its number.
-/

namespace TdUtils.Lib

universe u v

/-- What is written to a file from a place on; a gap in front of it is filled with zeros. -/
def writeAt {β : Type v} (zero : β) (bytes : List β) (offset : ℕ) (piece : List β) : List β :=
  overwrite (bytes ++ List.replicate (offset - bytes.length) zero) offset piece

theorem writeAt_length {β : Type v} (zero : β) (bytes piece : List β) :
    writeAt zero bytes bytes.length piece = bytes ++ piece := by
  simp [writeAt, overwrite]

theorem writeAt_nil {β : Type v} (zero : β) (piece : List β) : writeAt zero [] 0 piece = piece := writeAt_length zero [] piece

structure FileSystem (ν : Type u) (β : Type v) where
  files : ℕ → List β
  names : ν → Option ℕ
  /-- The number of the next file. -/
  next : ℕ
  names_lt : ∀ {name i}, names name = some i → i < next
  unique : ∀ {name name' i}, names name = some i → names name' = some i → name = name'

namespace FileSystem

variable {ν : Type u} {β : Type v}

def contents (fs : FileSystem ν β) (name : ν) : Option (List β) := (fs.names name).map fs.files

def setFile (fs : FileSystem ν β) (i : ℕ) (bytes : List β) : FileSystem ν β :=
  { fs with files := Function.update fs.files i bytes }

section Files

variable {fs : FileSystem ν β} {i j : ℕ} {bytes : List β}

@[simp] theorem setFile_names : (fs.setFile i bytes).names = fs.names := rfl

@[simp] theorem setFile_files : (fs.setFile i bytes).files i = bytes := Function.update_self _ _ _

theorem setFile_files_ne (h : j ≠ i) : (fs.setFile i bytes).files j = fs.files j := Function.update_of_ne h _ _

theorem contents_of_names {name : ν} (h : fs.names name = some i) : fs.contents name = some (fs.files i) := by
  rw [contents, h, Option.map_some]

theorem contents_setFile {name : ν} (h : fs.names name ≠ some i) :
    (fs.setFile i bytes).contents name = fs.contents name := by
  unfold contents
  rw [setFile_names]
  cases hname : fs.names name with
  | none => rfl
  | some j => exact congrArg some (setFile_files_ne fun heq => h (heq ▸ hname))

end Files

section Changes

variable {fs fs' : FileSystem ν β} {i : ℕ} {name name' source target : ν}

/-- What `create` makes and what it keeps. -/
structure Creates (fs : FileSystem ν β) (name : ν) (fs' : FileSystem ν β) (i : ℕ) : Prop where
  names_self : fs'.names name = some i
  names_ne : ∀ name', name' ≠ name → fs'.names name' = fs.names name'
  files_lt : ∀ j, j < fs.next → fs'.files j = fs.files j
  next_le : fs.next ≤ fs'.next
  old_or_new : fs.names name = some i ∨ i = fs.next

/-- What `rename` makes and what it keeps. -/
structure Renames (fs : FileSystem ν β) (source target : ν) (i : ℕ) (fs' : FileSystem ν β) : Prop where
  files : fs'.files = fs.files
  next : fs'.next = fs.next
  names_target : fs'.names target = some i
  names_source : source ≠ target → fs'.names source = none
  names_ne : ∀ name, name ≠ source → name ≠ target → fs'.names name = fs.names name

theorem Renames.contents_target (h : Renames fs source target i fs') :
    fs'.contents target = some (fs.files i) := by
  rw [contents_of_names h.names_target, h.files]

theorem Renames.contents_ne (h : Renames fs source target i fs') (hs : name ≠ source)
    (ht : name ≠ target) : fs'.contents name = fs.contents name := by
  rw [contents, h.names_ne name hs ht, h.files]
  rfl

/-- A new name, or new bytes of the file of one name, leave the bytes under the others. -/
theorem Creates.contents_ne (h : Creates fs name fs' i) (hne : name' ≠ name) :
    fs'.contents name' = fs.contents name' := by
  unfold contents
  rw [h.names_ne name' hne]
  cases hname : fs.names name' with
  | none => rfl
  | some j => exact congrArg some (h.files_lt j (fs.names_lt hname))

theorem contents_setFile_ne {bytes : List β} (h : fs.names name = some i) (hne : name' ≠ name) :
    (fs.setFile i bytes).contents name' = fs.contents name' :=
  contents_setFile fun hname => hne (fs.unique hname h)

end Changes

variable [DecidableEq ν]

/-- A new file without bytes under a name. -/
def add (fs : FileSystem ν β) (name : ν) : FileSystem ν β where
  files := Function.update fs.files fs.next []
  names := Function.update fs.names name (some fs.next)
  next := fs.next + 1
  names_lt {name' i} h := by
    by_cases heq : name' = name
    · rw [heq, Function.update_self] at h
      exact Option.some.inj h ▸ Nat.lt_succ_self _
    · rw [Function.update_of_ne heq] at h
      exact Nat.lt_succ_of_lt (fs.names_lt h)
  unique {name₁ name₂ i} h₁ h₂ := by
    by_cases heq₁ : name₁ = name
    · by_cases heq₂ : name₂ = name
      · exact heq₁.trans heq₂.symm
      · rw [heq₁, Function.update_self] at h₁
        rw [Function.update_of_ne heq₂, ← h₁] at h₂
        exact absurd (fs.names_lt h₂) (Nat.lt_irrefl _)
    · rw [Function.update_of_ne heq₁] at h₁
      by_cases heq₂ : name₂ = name
      · rw [heq₂, Function.update_self, ← h₁] at h₂
        exact absurd (fs.names_lt h₂.symm) (Nat.lt_irrefl _)
      · rw [Function.update_of_ne heq₂] at h₂
        exact fs.unique h₁ h₂

/-- The file of a name, which is made when there is none. -/
def create (fs : FileSystem ν β) (name : ν) : FileSystem ν β × ℕ :=
  match fs.names name with
  | some i => (fs, i)
  | none => (fs.add name, fs.next)

/-- A file under its new name, in place of the one that has it. -/
def move (fs : FileSystem ν β) (source target : ν) (i : ℕ) (hsource : fs.names source = some i) : FileSystem ν β where
  files := fs.files
  names := Function.update (Function.update fs.names source none) target (some i)
  next := fs.next
  names_lt {name j} h := by
    by_cases htarget : name = target
    · rw [htarget, Function.update_self] at h
      exact Option.some.inj h ▸ fs.names_lt hsource
    · rw [Function.update_of_ne htarget] at h
      by_cases hname : name = source
      · rw [hname, Function.update_self] at h
        cases h
      · rw [Function.update_of_ne hname] at h
        exact fs.names_lt h
  unique {name₁ name₂ j} h₁ h₂ := by
    -- no other name leads to the file that is moved
    have hother : ∀ name, name ≠ target →
        Function.update (Function.update fs.names source none) target (some i) name ≠ some i := by
      intro name hname h
      rw [Function.update_of_ne hname] at h
      by_cases hsame : name = source
      · rw [hsame, Function.update_self] at h
        cases h
      · rw [Function.update_of_ne hsame] at h
        exact hsame (fs.unique h hsource)
    by_cases heq₁ : name₁ = target
    · by_cases heq₂ : name₂ = target
      · exact heq₁.trans heq₂.symm
      · rw [heq₁, Function.update_self] at h₁
        exact absurd (h₂.trans h₁.symm) (hother _ heq₂)
    · by_cases heq₂ : name₂ = target
      · rw [heq₂, Function.update_self] at h₂
        exact absurd (h₁.trans h₂.symm) (hother _ heq₁)
      · rw [Function.update_of_ne heq₁] at h₁
        rw [Function.update_of_ne heq₂] at h₂
        by_cases hs₁ : name₁ = source
        · rw [hs₁, Function.update_self] at h₁
          cases h₁
        · by_cases hs₂ : name₂ = source
          · rw [hs₂, Function.update_self] at h₂
            cases h₂
          · rw [Function.update_of_ne hs₁] at h₁
            rw [Function.update_of_ne hs₂] at h₂
            exact fs.unique h₁ h₂

def rename (fs : FileSystem ν β) (source target : ν) : Option (FileSystem ν β) :=
  match h : fs.names source with
  | none => none
  | some i => some (fs.move source target i h)

variable {fs : FileSystem ν β} {i : ℕ} {source target : ν}

theorem create_creates (fs : FileSystem ν β) (name : ν) : Creates fs name (fs.create name).1 (fs.create name).2 := by
  unfold create
  split
  · next i h => exact ⟨h, fun _ _ => rfl, fun _ _ => rfl, Nat.le_refl _, Or.inl h⟩
  · next h =>
    exact ⟨Function.update_self _ _ _, fun _ hne => Function.update_of_ne hne _ _,
      fun _ hlt => Function.update_of_ne (Nat.ne_of_lt hlt) _ _, Nat.le_succ _, Or.inr rfl⟩

theorem rename_renames (target : ν) (h : fs.names source = some i) :
    ∃ fs', fs.rename source target = some fs' ∧ Renames fs source target i fs' := by
  unfold rename
  split
  · next hnone => cases h.symm.trans hnone
  · next j hj =>
    obtain rfl := Option.some.inj (h.symm.trans hj)
    refine ⟨_, rfl, rfl, rfl, Function.update_self _ _ _, fun hne => ?_, fun name hs ht => ?_⟩
    · exact (Function.update_of_ne hne _ _).trans (Function.update_self _ _ _)
    · exact (Function.update_of_ne ht _ _).trans (Function.update_of_ne hs _ _)

end FileSystem

end TdUtils.Lib
