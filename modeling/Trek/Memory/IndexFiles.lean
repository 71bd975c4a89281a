/-
# Files of the project index

Which files of a project the memory index takes: the walk of the project, which follows
`.gitignore`, the files under a path that was added by hand, and the lists of added and
removed paths. The chunker, the situating headers and the reading of `.gitignore` are
another package's, and are parameters.
-/
import Trek.Lib.FileSystem
import Trek.Lib.OrdMap
import Trek.Lib.Text

namespace Trek.Memory

/-! ### The project directory -/

/-- What `statSync` and `readFileSync` say of a file. -/
structure File where
  bytes : List UInt8
  mtimeMs : ℕ
  deriving DecidableEq

/-- `st.size`. -/
def File.size (f : File) : ℕ := f.bytes.length

/-- The entries of a directory, in the order of `readdirSync`. What is neither a file nor a
directory has its name alone. -/
inductive Dir
  | nil
  | file (name : String) (f : File) (rest : Dir)
  | dir (name : String) (entries : Dir) (rest : Dir)
  | other (name : String) (rest : Dir)

/-- A file or a directory. -/
inductive Node
  | file (f : File)
  | dir (entries : Dir)

/-- A path inside the project, as its names. The index calls it by its names joined by `/`. -/
abbrev RelPath := List String

namespace Dir

/-- What is at a path below the directory. -/
def get? : Dir → RelPath → Option Node
  | nil, _ => none
  | file name f rest, path => if path = [name] then some (.file f) else rest.get? path
  | dir name entries rest, path =>
    match path with
    | [] => none
    | n :: ns => if n = name then (if ns = [] then some (.dir entries) else entries.get? ns) else rest.get? path
  | other _ rest, path => rest.get? path

/-- The directory has an entry of that name. -/
def has : Dir → String → Bool
  | nil, _ => false
  | file name _ rest, n | dir name _ rest, n | other name rest, n => name = n || rest.has n

end Dir

/-- The names joined by `/`. -/
def relName (path : RelPath) : String := "/".intercalate path

/-! ### What another package does -/

/-- A row of `chunksForFile`. -/
structure IndexedChunk where
  embed : String
  stored : String
  deriving DecidableEq

/-- The parts that come from elsewhere. `Frame` is `IgnoreFrame`; the walk hands the frames of
the directories above and the entries of the directory to `maybePushLocalGitignore`. -/
structure Env where
  /-- the project's directory -/
  cwd : Path
  homedir : Path
  Frame : Type
  rootStack : Dir → List Frame
  maybePushLocalGitignore : List Frame → RelPath → Dir → List Frame
  isIgnoredByStack : List Frame → RelPath → Bool → Bool
  /-- `chunk` and `annotateFile`, on the text of the bytes -/
  chunk : RelPath → List UInt8 → List IndexedChunk
  /-- the id that `db.put` gives the next row, with those of the live rows at hand -/
  fresh : List ℕ → ℕ
  fresh_not_mem : ∀ ids, fresh ids ∉ ids

theorem le_foldr_max : ∀ {ids : List ℕ} {id : ℕ}, id ∈ ids → id ≤ ids.foldr max 0
  | i :: ids, id, h => by
    rw [List.foldr_cons]
    rcases List.mem_cons.mp h with rfl | h
    · exact Nat.le_max_left _ _
    · exact Nat.le_trans (le_foldr_max h) (Nat.le_max_right _ _)

/-- A project below `/home/user` with no `.gitignore`, whose files are one chunk each. -/
def Env.plain : Env where
  cwd := ["home", "user", "project"]
  homedir := ["home", "user"]
  Frame := Unit
  rootStack := fun _ => []
  maybePushLocalGitignore := fun stack _ _ => stack
  isIgnoredByStack := fun _ _ _ => false
  chunk := fun path bytes =>
    let text := String.ofList (bytes.map fun b => Char.ofNat b.toNat)
    [⟨relName path ++ "\n" ++ text, "[kind:file][file:" ++ relName path ++ "][lines:1-1]\n" ++ text⟩]
  fresh := fun ids => ids.foldr max 0 + 1
  fresh_not_mem := fun _ h => Nat.not_succ_le_self _ (le_foldr_max h)

/-! ### Names -/

def MARKERS : List String :=
  [".git", "package.json", "pyproject.toml", "Cargo.toml", "go.mod", "CMakeLists.txt", "Makefile", ".hg"]

def SKIP_DIRS : List String := [".git", "node_modules", "dist", ".trek", "coverage", ".next", "target"]

def TEXT_EXT : List String :=
  [".ts", ".tsx", ".js", ".jsx", ".mjs", ".cjs", ".py", ".go", ".rs", ".java", ".md", ".txt", ".json", ".yaml",
    ".yml", ".toml", ".sh", ".lean", ".css", ".html", ".c", ".h", ".cpp", ".rb", ".php"]

def MAX_BYTES : ℕ := 200000

def BLOCKED : List String := [".git", "node_modules", ".trek", "dist"]

/-- The last dot of a name and what follows it; none where no character comes before the dot. -/
def extension (name : String) : Option String :=
  let ext := (name.toList.reverse.takeWhile (· ≠ '.')).reverse
  if ext.length + 1 < name.toList.length then some (String.ofList ('.' :: ext)) else none

/-- `isTextName`. -/
def isTextName (name : String) : Bool :=
  if ".lock".toList.isSuffixOf name.toList || name = "package-lock.json" || name = "npm-shrinkwrap.json" then false
  else (extension name).any fun ext => ext.map Char.toLower ∈ TEXT_EXT

/-- `isIndexableProject`. -/
def isIndexableProject (env : Env) (root : Dir) : Bool :=
  if env.cwd = env.homedir || env.cwd.length < 2 then false else MARKERS.any root.has

/-- `chunksForFile`. -/
def chunksForFile (env : Env) (path : RelPath) (f : File) : List IndexedChunk :=
  if MAX_BYTES < f.size || (0 : UInt8) ∈ f.bytes.take 8192 then [] else env.chunk path f.bytes

/-! ### The walk -/

/-- `walk`, from the directory's entries on. -/
def walkEntries (env : Env) (stack : List env.Frame) (here : RelPath) : Dir → List RelPath
  | .nil => []
  | .file name f rest =>
    (if name ∈ SKIP_DIRS || env.isIgnoredByStack stack (here ++ [name]) false || !isTextName name || MAX_BYTES < f.size
      then [] else [here ++ [name]]) ++ walkEntries env stack here rest
  | .dir name entries rest =>
    (if name ∈ SKIP_DIRS || env.isIgnoredByStack stack (here ++ [name]) true then []
      else walkEntries env (env.maybePushLocalGitignore stack (here ++ [name]) entries) (here ++ [name]) entries) ++
        walkEntries env stack here rest
  | .other _ rest => walkEntries env stack here rest

/-- `walk`. -/
def walk (env : Env) (stack : List env.Frame) (path : RelPath) (entries : Dir) : List RelPath :=
  walkEntries env (env.maybePushLocalGitignore stack path entries) path entries

/-- `listProjectFiles`. -/
def listProjectFiles (env : Env) (root : Dir) : List RelPath :=
  if isIndexableProject env root then walk env (env.rootStack root) [] root else []

/-- `filesAt`. -/
def filesAt (env : Env) (root : Dir) (path : RelPath) : List RelPath :=
  match root.get? path with
  | none => []
  | some (.file f) =>
    if !(path.getLast?.any isTextName) || MAX_BYTES < f.size || (0 : UInt8) ∈ f.bytes.take 8192 then [] else [path]
  | some (.dir entries) => walk env [] path entries

/-! ### Added and removed paths -/

/-- `IndexPathLists`. -/
structure IndexPathLists where
  includePaths : List String
  excludePaths : List String

/-- `resolveProjectPath`. -/
def resolveProjectPath (env : Env) (input : String) : Except String RelPath :=
  let trimmed := jsTrim input
  if trimmed = "" then .error "path required"
  else
    let abs := resolve env.cwd trimmed
    let rel := abs.drop env.cwd.length
    if !env.cwd.isPrefixOf abs || rel.isEmpty then .error "path must stay inside the project"
    else if rel.any (· ∈ BLOCKED) then .error "that path is not indexed"
    else .ok rel

/-- The files under a path of the lists, if it is still a path of the project. -/
def filesUnder (env : Env) (root : Dir) (extra : String) : List RelPath :=
  match resolveProjectPath env extra with
  | .ok path => filesAt env root path
  | .error _ => []

/-- `coversPath`. -/
def coversPath (root file : String) : Bool := file = root || (root ++ "/").toList.isPrefixOf file.toList

/-- `pathIsExcluded`: the longest path that covers the file decides, and exclusion on a tie. -/
def pathIsExcluded (path : RelPath) (lists : IndexPathLists) : Bool :=
  let rel := relName path
  let best := lists.includePaths.foldl (fun best p =>
    if coversPath p rel && best.all (fun b => jsLength b.1 < jsLength p) then some (p, false) else best)
    (none : Option (String × Bool))
  let best := lists.excludePaths.foldl (fun best p =>
    if coversPath p rel && best.all (fun b => jsLength b.1 ≤ jsLength p) then some (p, true) else best) best
  best.any (·.2)

/-- A path as the lists keep it. -/
def normalizeListed (path : String) : String :=
  let cs := path.toList.map fun c => if c = '\\' then '/' else c
  let cs := if ['.', '/'].isPrefixOf cs then cs.drop 2 else cs
  String.ofList (if cs.getLast? = some '/' then cs.dropLast else cs)

/-- `uniquePaths`, less the sorting: nothing reads the order. -/
def uniquePaths (paths : List String) : List String := ((paths.map normalizeListed).filter (· ≠ "")).dedup

end Trek.Memory
