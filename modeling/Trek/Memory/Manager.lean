/-
# The project memory

`MemoryManager` keeps the rows of the project's files in a vector store and, in a
manifest, for each file its size and time when it was indexed and the ids of its rows.
What changes them runs in one queue, file by file; between two files the file system and
the lists of added and removed paths may change.
-/
import Trek.Lib.Machine
import Trek.Memory.IndexFiles

namespace Trek.Memory

/-- A live row of the project store. `file` is not in the store: the file the row was put for,
none for a lesson. -/
structure Row where
  id : ℕ
  embed : String
  stored : String
  file : Option RelPath

/-- What a row holds. -/
def Row.content (r : Row) : IndexedChunk := ⟨r.embed, r.stored⟩

/-- An entry of the manifest's `files`. -/
structure ManifestEntry where
  mtimeMs : ℕ
  size : ℕ
  chunkSize : ℕ
  chunkMode : String
  chunkContext : String
  ids : List ℕ

/-- A job's next step in the queue. -/
inductive Task
  | indexProject
  | indexOne (path : RelPath) (force : Bool)
  /-- the files under a path of the lists, as they are when their turn comes -/
  | indexAt (extra : String)
  /-- rows of what these lists exclude, or the lists of the moment -/
  | deleteCovered (lists : Option IndexPathLists)

/-- The project's files, the lists of `paths.json`, and the rows and the manifest of the store. -/
structure Index where
  root : Dir
  lists : IndexPathLists
  rows : List Row
  manifest : OrdMap RelPath ManifestEntry

/-- The index and the queue of the jobs that change it. -/
structure MemoryManager where
  index : Index
  queue : List Task

namespace Index

/-! ### Rows -/

/-- `db.delete` of each id. -/
def deleteRows (ids : List ℕ) (rows : List Row) : List Row :=
  ids.foldl (fun rows id => rows.filter (·.id ≠ id)) rows

/-- `put` of each chunk, and the new ids. -/
def putAll (env : Env) (file : Option RelPath) : List IndexedChunk → List Row → List Row × List ℕ
  | [], rows => (rows, [])
  | c :: cs, rows =>
    let id := env.fresh (rows.map Row.id)
    let r := putAll env file cs (rows ++ [⟨id, c.embed, c.stored, file⟩])
    (r.1, id :: r.2)

/-- The rows that were put for a file. -/
def rowsOf (x : Index) (path : RelPath) : List Row := x.rows.filter (·.file = some path)

/-! ### The jobs -/

/-- `prev` was indexed as the file is now. -/
def upToDate (prev : ManifestEntry) (f : File) : Bool :=
  prev.size = f.size && prev.mtimeMs = f.mtimeMs && prev.chunkMode = "auto" && prev.chunkContext = "header"

/-- `indexOne`. What it reads it reads at once; while it waits for the embedder no other job
runs. -/
def indexOne (env : Env) (x : Index) (path : RelPath) (force : Bool) : Index :=
  match x.root.get? path with
  | some (.file f) =>
    if pathIsExcluded path x.lists then x
    else
      let prev := x.manifest.get? path
      if !force && prev.any (upToDate · f) then x
      else
        let rows := deleteRows ((prev.map ManifestEntry.ids).getD []) x.rows
        let put := putAll env (some path) (chunksForFile env path f) rows
        { x with rows := put.1, manifest := x.manifest.set path ⟨f.mtimeMs, f.size, 800, "auto", "header", put.2⟩ }
  | _ => x

/-- One turn of the loop of `deleteCovered`. -/
def dropFile (lists : IndexPathLists) (x : Index) (path : RelPath) : Index :=
  if pathIsExcluded path lists then
    match x.manifest.get? path with
    | some prev => { x with rows := deleteRows prev.ids x.rows, manifest := x.manifest.delete path }
    | none => x
  else x

/-- `deleteCovered`. -/
def deleteCovered (x : Index) (lists : IndexPathLists) : Index := x.manifest.keys.foldl (dropFile lists) x

/-- `saveIndexPaths`. -/
def saveIndexPaths (x : Index) (lists : IndexPathLists) : Index :=
  { x with lists := ⟨uniquePaths lists.includePaths, uniquePaths lists.excludePaths⟩ }

end Index

namespace MemoryManager

/-- A project with an empty store. -/
def new (root : Dir) : MemoryManager := ⟨⟨root, ⟨[], []⟩, [], OrdMap.empty⟩, []⟩

/-- The tasks of `indexProject`'s job. -/
def projectTasks (env : Env) (x : Index) : List Task :=
  (listProjectFiles env x.root).map (Task.indexOne · false) ++
    (x.lists.includePaths.map .indexAt ++ [Task.deleteCovered (some x.lists)])

/-- The head of the queue goes on: a task is done, or its own tasks take its place. -/
def work (env : Env) (m : MemoryManager) : Option MemoryManager :=
  match m.queue with
  | [] => none
  | .indexProject :: queue => some { m with queue := projectTasks env m.index ++ queue }
  | .indexOne path force :: queue => some ⟨m.index.indexOne env path force, queue⟩
  | .indexAt extra :: queue => some { m with queue := (filesUnder env m.index.root extra).map (.indexOne · false) ++ queue }
  | .deleteCovered lists :: queue => some ⟨m.index.deleteCovered (lists.getD m.index.lists), queue⟩

/-! ### The calls -/

/-- The paths of a list that `rel` does not cover. -/
def uncovered (rel : String) (paths : List String) : List String :=
  paths.filter fun path => path ≠ rel && !coversPath rel path

/-- `if (!paths.includes(rel)) paths.push(rel)`. -/
def withPath (rel : String) (paths : List String) : List String := if rel ∈ paths then paths else paths ++ [rel]

/-- `addIndexedPath` up to its job. -/
def addIndexedPath (env : Env) (m : MemoryManager) (input : String) : MemoryManager :=
  match resolveProjectPath env input with
  | .error _ => m
  | .ok path =>
    let files := filesAt env m.index.root path
    if (m.index.root.get? path).isNone || files.isEmpty then m
    else
      let lists := m.index.lists
      ⟨m.index.saveIndexPaths
        ⟨withPath (relName path) lists.includePaths, uncovered (relName path) lists.excludePaths⟩,
        m.queue ++ files.map (.indexOne · true)⟩

/-- `removeIndexedPath` up to its job. -/
def removeIndexedPath (env : Env) (m : MemoryManager) (input : String) : MemoryManager :=
  match resolveProjectPath env input with
  | .error _ => m
  | .ok path =>
    let lists := m.index.lists
    ⟨m.index.saveIndexPaths
      ⟨uncovered (relName path) lists.includePaths, withPath (relName path) lists.excludePaths⟩,
      m.queue ++ [.deleteCovered none]⟩

/-- `indexProject` up to its job. -/
def indexProject (env : Env) (m : MemoryManager) : MemoryManager :=
  if isIndexableProject env m.index.root then { m with queue := m.queue ++ [.indexProject] } else m

end MemoryManager

/-- What happens to the project and its memory. -/
inductive MemoryStep
  /-- files are created, changed or deleted -/
  | change (root : Dir)
  | addIndexedPath (input : String)
  | removeIndexedPath (input : String)
  /-- the watcher has seen a change at the path -/
  | indexFile (path : RelPath)
  | indexProject
  /-- a row that is not a file's -/
  | remember (row : IndexedChunk)
  | work

namespace MemoryManager

/-- A step. -/
def step (env : Env) (m : MemoryManager) : MemoryStep → Option MemoryManager
  | .change root => some { m with index := { m.index with root } }
  | .addIndexedPath input => some (m.addIndexedPath env input)
  | .removeIndexedPath input => some (m.removeIndexedPath env input)
  | .indexFile path => some { m with queue := m.queue ++ [.indexOne path true] }
  | .indexProject => some (m.indexProject env)
  | .remember row => some { m with index := { m.index with rows := (Index.putAll env none [row] m.index.rows).1 } }
  | .work => m.work env

/-- A run. -/
abbrev run (env : Env) : MemoryManager → List MemoryStep → Option MemoryManager := Machine.run (step env)

end MemoryManager

/-! ### What the index is for -/

namespace Index

/-- A file that the index is to have: it exists, the walk lists it or a path of the lists leads
to it, and it is not excluded. -/
def Wanted (env : Env) (x : Index) (path : RelPath) : Prop :=
  (∃ f, x.root.get? path = some (.file f)) ∧
    (path ∈ listProjectFiles env x.root ∨ ∃ extra ∈ x.lists.includePaths, path ∈ filesUnder env x.root extra) ∧
    pathIsExcluded path x.lists = false

/-- The rows of files are the chunks of the wanted files, and the manifest has their ids. -/
structure Current (env : Env) (x : Index) : Prop where
  rows : ∀ path f, x.Wanted env path → x.root.get? path = some (.file f) →
    (x.rowsOf path).map Row.content = chunksForFile env path f
  wanted : ∀ r ∈ x.rows, ∀ path, r.file = some path → x.Wanted env path
  ids : ∀ path prev, x.manifest.get? path = some prev → prev.ids = (x.rowsOf path).map Row.id
  listed : ∀ r ∈ x.rows, ∀ path, r.file = some path → (x.manifest.get? path).isSome = true

end Index

end Trek.Memory
