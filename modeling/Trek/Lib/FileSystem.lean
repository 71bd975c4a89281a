/-
# Where a path leads

A file system as its nodes by canonical path, `path.resolve` on the text of a path, and
the walk along a path that follows symbolic links. `realpath` is that walk where every
component must exist; `location` is where a file opened for writing is, or would be
created. The two agree on what exists.
-/
import Mathlib.Data.List.Basic

namespace Trek

/-- A path from the root, by its components. -/
abbrev Path := List String

/-- What a path can name. -/
inductive Node
  | file
  | directory
  | symlink (target : String)
  deriving DecidableEq

/-- The nodes by canonical path; the root is a directory. -/
abbrev FileSystem := Path → Option Node

/-- Why a path leads nowhere. -/
inductive Errno
  | ENOENT
  | ENOTDIR
  | ELOOP
  deriving DecidableEq

/-- The components of the text of a path. -/
def components (path : String) : List String := (path.toList.splitOn '/').map String.ofList

/-- The text of a path starts at the root. -/
def isAbsolute (path : String) : Bool := path.toList.head? = some '/'

/-- The components that lead nowhere else. -/
def isDot (s : String) : Bool := s = "" || s = "."

/-- Components taken as they are written. -/
def normalize : Path → List String → Path
  | done, [] => done
  | done, s :: rest =>
    if isDot s then normalize done rest
    else if s = ".." then normalize done.dropLast rest
    else normalize (done ++ [s]) rest

/-- `path.resolve(cwd, path)`. -/
def resolve (cwd : Path) (path : String) : Path :=
  normalize (if isAbsolute path then [] else cwd) (components path)

section

variable (missing : Path → List String → Except Errno Path)

/-- The walk along the components up to a symbolic link, which `follow` goes on with; `missing`
says what becomes of a component that does not exist. -/
def walk (fs : FileSystem) (follow : Path → List String → Except Errno Path) : Path → List String → Except Errno Path
  | done, [] => .ok done
  | done, s :: rest =>
    if isDot s then walk fs follow done rest
    else if s = ".." then walk fs follow done.dropLast rest
    else
      match fs (done ++ [s]) with
      | none => missing (done ++ [s]) rest
      | some .file => if rest = [] then .ok (done ++ [s]) else .error .ENOTDIR
      | some .directory => walk fs follow (done ++ [s]) rest
      | some (.symlink target) => follow (if isAbsolute target then [] else done) (components target ++ rest)

/-- The walk through so many symbolic links. -/
def walkLinks (fs : FileSystem) : ℕ → Path → List String → Except Errno Path
  | 0 => walk missing fs fun _ _ => .error .ELOOP
  | links + 1 => walk missing fs (walkLinks fs links)

end

/-- The number of symbolic links one path can go through. -/
def MAXSYMLINKS : ℕ := 40

/-- `realpath`. -/
def realpath (fs : FileSystem) (p : Path) : Except Errno Path :=
  walkLinks (fun _ _ => .error .ENOENT) fs MAXSYMLINKS [] p

/-- What a missing component and those after it would be created as. -/
def createdAt (done : Path) (rest : List String) : Except Errno Path :=
  if ".." ∈ rest then .error .ENOENT else .ok (done ++ rest.filter (!isDot ·))

/-- The file that is written when a path is opened for writing. -/
def location (fs : FileSystem) (p : Path) : Except Errno Path := walkLinks createdAt fs MAXSYMLINKS [] p

/-! ### Two walks -/

section

variable {missing missing' : Path → List String → Except Errno Path} {fs : FileSystem}

theorem walk_mono {follow follow' : Path → List String → Except Errno Path}
    (hm : ∀ done rest p, missing done rest = .ok p → missing' done rest = .ok p)
    (hf : ∀ done rest p, follow done rest = .ok p → follow' done rest = .ok p) :
    ∀ (rest : List String) (done : Path) {p : Path}, walk missing fs follow done rest = .ok p →
      walk missing' fs follow' done rest = .ok p
  | [], done, p, h => h
  | s :: rest, done, p, h => by
    unfold walk at h ⊢
    by_cases hdot : isDot s = true
    · rw [if_pos hdot] at h ⊢
      exact walk_mono hm hf rest done h
    · rw [if_neg hdot] at h ⊢
      by_cases hup : s = ".."
      · rw [if_pos hup] at h ⊢
        exact walk_mono hm hf rest _ h
      · rw [if_neg hup] at h ⊢
        cases hnode : fs (done ++ [s]) with
        | none =>
          rw [hnode] at h
          exact hm _ _ _ h
        | some node =>
          rw [hnode] at h
          cases node with
          | file => exact h
          | directory => exact walk_mono hm hf rest _ h
          | symlink target => exact hf _ _ _ h

/-- A walk that ends well does not depend on what becomes of missing components. -/
theorem walkLinks_mono (hm : ∀ done rest p, missing done rest = .ok p → missing' done rest = .ok p) :
    ∀ (links : ℕ) (done : Path) (rest : List String) {p : Path}, walkLinks missing fs links done rest = .ok p →
      walkLinks missing' fs links done rest = .ok p
  | 0, done, rest, _, h => walk_mono hm (fun _ _ _ he => by cases he) rest done h
  | links + 1, done, rest, _, h =>
    walk_mono hm (fun done rest _ he => walkLinks_mono hm links done rest he) rest done h

end

/-- What exists is where it is written. -/
theorem location_of_realpath {fs : FileSystem} {p q : Path} (h : realpath fs p = .ok q) : location fs p = .ok q :=
  walkLinks_mono (fun _ _ _ he => by cases he) MAXSYMLINKS [] p h

/-- A file is created where nothing is. -/
def FileSystem.create (fs : FileSystem) (l : Path) : FileSystem := fun p => if p = l then some .file else fs p

end Trek
