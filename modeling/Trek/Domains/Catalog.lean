/-
# The workflow of a domain and its history

`addDomain`, `saveDomainWorkflow` and `restoreDomainWorkflow` of
`packages/coding-agent/src/core/domains/catalog.ts` on one domain: the workflow files and
those of `history/` as files on disk, the manifest `domain.json` as the workflow it names,
and the index of the history. `addDomain` knows no history; it writes the workflow and the
manifest and leaves the index as it is.

Of the catalog only this domain is modelled. The titles and terms of domains and which of
them are disabled are left out, and so are failures of the disk other than a file or a
directory that is missing or in the way.
-/
import Trek.Domains.Archon
import Trek.Lib.Join

namespace Trek.Domains

/-! ### Files -/

/-- What a path names on disk. -/
inductive DiskNode
  | file (text : String)
  | directory
  deriving DecidableEq

/-- The files and directories by their paths. -/
abbrev Disk := OrdMap Path DiskNode

/-- One directory of `mkdirSync`. -/
def mkdirOne (nodes : Disk) (p : Path) : Except String Disk :=
  match nodes.get? p with
  | none => .ok (nodes.set p .directory)
  | some .directory => .ok nodes
  | some (.file _) => .error "EEXIST"

/-- `mkdirSync(path, { recursive: true })`; a file on the way has its directories, so that nothing
has been created then. -/
def mkdirSync (nodes : Disk) (path : Path) : Except String Disk := path.inits.foldlM mkdirOne nodes

/-- `writeFileSync`. -/
def writeFileSync (nodes : Disk) (path : Path) (text : String) : Except String Disk :=
  match nodes.get? path, nodes.get? path.dropLast with
  | some .directory, _ => .error "EISDIR"
  | _, some .directory => .ok (nodes.set path (.file text))
  | _, _ => .error "ENOENT"

/-- `readFileSync`. -/
def readFileSync (nodes : Disk) (path : Path) : Except String String :=
  match nodes.get? path with
  | some (.file text) => .ok text
  | some .directory => .error "EISDIR"
  | none => .error "ENOENT"

/-- `unlinkSync`, if the file is there. -/
def unlinkIfThere (nodes : Disk) (path : Path) : Disk :=
  match nodes.get? path with
  | some (.file _) => nodes.delete path
  | _ => nodes

/-! ### A domain -/

/-- `ID_PATTERN`. -/
def isId (s : String) : Bool :=
  match s.toList with
  | [] => false
  | c :: cs =>
    ('a' ≤ c && c ≤ 'z') && cs.length ≤ 40 && cs.all fun c => ('a' ≤ c && c ≤ 'z') || c.isDigit || c = '-'

/-- `text.endsWith("\n")`. -/
def endsWithNewline (text : String) : Bool := text.toList.getLast? = some '\n'

/-- `ensureNewline`. -/
def ensureNewline (text : String) : String := if endsWithNewline text then text else text ++ "\n"

/-- `HistoryIndex`. -/
structure HistoryIndex where
  order : List String
  position : ℕ
  deriving DecidableEq

/-- The project, the domain, what the YAML parser makes of a text, and the workflow of the package
if the domain is an initial one. -/
structure Env where
  cwd : Path
  id : String
  yaml : String → Except String Json
  bundled : Option String

/-- The domain's directory. -/
def Env.dir (env : Env) : Path := env.cwd ++ [".trek", "domains", env.id]

def Env.history (env : Env) : Path := env.dir ++ ["history"]

/-- The files of the domain: on disk, the workflow that `domain.json` names, and
`history/index.json`. -/
structure DomainFiles where
  nodes : Disk
  manifest : Option String
  index : Option HistoryIndex

/-- The domain in the catalog: the name of its workflow, and its text. -/
structure Current where
  workflowName : String
  yaml : String

/-- The date in the name of a history file: digits and two letters. -/
structure Stamp where
  text : String
  plain : IsPlain text
  long : 2 ≤ text.toList.length

namespace DomainFiles

/-- `readHistory`. -/
def readHistory (s : DomainFiles) : Option HistoryIndex := s.index.filter fun index => index.position < index.order.length

/-- The domain as `loadDomainCatalog` finds it: the one under `.trek/domains`, or the package's. -/
def current (env : Env) (s : DomainFiles) : Except String (Option Current) :=
  match s.manifest with
  | some workflow => do
    let yaml ← readFileSync s.nodes (join env.dir workflow)
    let parsed ← parseArchonWorkflow env.yaml yaml (some workflow)
    .ok (some ⟨parsed.name, yaml⟩)
  | none =>
    match env.bundled with
    | some yaml => do
      let parsed ← parseArchonWorkflow env.yaml yaml none
      .ok (some ⟨parsed.name, yaml⟩)
    | none => .ok none

/-! ### Adding a domain -/

/-- What `addDomain` checks before it writes: the workflow file as it is read, and its workflow. -/
def addChecks (env : Env) (workflowFile : String) (content : Option String) : Except String (String × ArchonWorkflow) :=
  if isId env.id = false then .error "domain id must be lowercase letters, numbers, and hyphens"
  else if env.bundled.isSome then .error s!"{env.id} is already an initial domain"
  else
    match content with
    | none => .error "ENOENT"
    | some yaml => do
      let workflow ← parseArchonWorkflow env.yaml yaml (some workflowFile)
      .ok (yaml, workflow)

/-- `addDomain`. -/
def addDomain (env : Env) (s : DomainFiles) (workflowFile : String) (content : Option String) :
    DomainFiles × Except String String :=
  match addChecks env workflowFile content with
  | .error e => (s, .error e)
  | .ok (yaml, workflow) =>
    match mkdirSync s.nodes env.dir with
    | .error e => (s, .error e)
    | .ok nodes =>
      let fileName := workflow.name ++ ".yaml"
      match writeFileSync nodes (join env.dir fileName) (ensureNewline yaml) with
      | .error e => ({ s with nodes }, .error e)
      | .ok nodes => ({ s with nodes, manifest := some fileName }, .ok fileName)

/-! ### Saving a workflow -/

/-- The `n`th name that `writeHistoryFile` tries. -/
def historyFileName (stamp : Stamp) (name : String) (n : ℕ) : String :=
  (stamp.text ++ "-") ++ name ++ (if n = 1 then ".yaml" else "-" ++ toString n ++ ".yaml")

/-- `writeHistoryFile`. -/
def writeHistoryFile (env : Env) (nodes : Disk) (stamp : Stamp) (name text : String) : Except String (Disk × String) :=
  let path := fun n => join env.history (historyFileName stamp name n)
  let file := historyFileName stamp name (nodes.firstFree path nodes.size 1)
  (writeFileSync nodes (join env.history file) text).map fun nodes => (nodes, file)

/-- The history before the save; a first one gets the current workflow. -/
def seedHistory (env : Env) (nodes : Disk) (index : Option HistoryIndex) (current : Option Current) (stamp : Stamp) :
    Except String (Disk × HistoryIndex) :=
  let index := index.getD ⟨[], 0⟩
  match current, index.order with
  | some current, [] =>
    (writeHistoryFile env nodes stamp current.workflowName (ensureNewline current.yaml)).map fun p => (p.1, ⟨[p.2], 0⟩)
  | _, _ => .ok (nodes, index)

/-- The workflow file, the removal of the one before it, and the manifest. -/
def replaceWorkflow (env : Env) (s : DomainFiles) (name text : String) : Except String DomainFiles :=
  let fileName := name ++ ".yaml"
  (writeFileSync s.nodes (join env.dir fileName) text).map fun nodes =>
    { s with
      nodes := match s.manifest with
        | some previousFile => if previousFile ≠ fileName then unlinkIfThere nodes (join env.dir previousFile) else nodes
        | none => nodes
      manifest := some fileName }

/-- `SavedWorkflow`. -/
structure SavedWorkflow where
  name : String
  created : Bool
  backedUp : Bool

/-- What `saveDomainWorkflow` checks, with the workflow and what is saved before. -/
def saveChecks (env : Env) (s : DomainFiles) (yamlText : String) : Except String (ArchonWorkflow × Option Current) :=
  if isId env.id = false then .error "domain id must be lowercase letters, numbers, and hyphens"
  else do
    let workflow ← parseArchonWorkflow env.yaml yamlText none
    if isId workflow.name = false then .error "workflow name must be lowercase letters, numbers, and hyphens"
    else
      match workflow.nodes.find? fun node => node.kind ≠ .prompt ∧ node.kind ≠ .bash with
      | some node => .error s!"node {node.id} must be a prompt or bash step"
      | none => do
        let current ← s.current env
        .ok (workflow, current)

/-- The number of versions that stay, and the disk without the others. -/
def dropRedo (env : Env) (nodes : Disk) (index : HistoryIndex) : ℕ × Disk :=
  let kept := if index.order.length = 0 then 0 else index.position + 1
  (kept, (index.order.drop kept).foldl (fun nodes name => unlinkIfThere nodes (join env.history name)) nodes)

/-- `saveDomainWorkflow`, with the dates of the two history files it may write. -/
def saveDomainWorkflow (env : Env) (s : DomainFiles) (yamlText : String) (seedStamp stamp : Stamp) :
    DomainFiles × Except String SavedWorkflow :=
  match s.saveChecks env yamlText with
  | .error e => (s, .error e)
  | .ok (workflow, current) =>
    let text := ensureNewline yamlText
    if current.any fun c => jsTrim c.yaml = jsTrim text then (s, .ok ⟨workflow.name, false, false⟩)
    else
      match mkdirSync s.nodes env.history with
      | .error e => (s, .error e)
      | .ok nodes =>
        match seedHistory env nodes s.readHistory current seedStamp with
        | .error e => ({ s with nodes }, .error e)
        | .ok (nodes, index) =>
          let (kept, nodes) := dropRedo env nodes index
          match writeHistoryFile env nodes stamp workflow.name text with
          | .error e => ({ s with nodes }, .error e)
          | .ok (nodes, file) =>
            match replaceWorkflow env { s with nodes } workflow.name text with
            | .error e => ({ s with nodes }, .error e)
            | .ok s =>
              let order := index.order.take kept ++ [file]
              ({ s with index := some ⟨order, order.length - 1⟩ },
                .ok ⟨workflow.name, current.isNone, current.isSome⟩)

/-! ### Restoring a workflow -/

/-- `restoreDomainWorkflow`: the name of the workflow. -/
def restoreDomainWorkflow (env : Env) (s : DomainFiles) : DomainFiles × Except String String :=
  match s.current env with
  | .error e => (s, .error e)
  | .ok none => (s, .error s!"unknown domain {env.id}")
  | .ok (some _) =>
    match s.readHistory with
    | none => (s, .error s!"no previous {env.id} workflow")
    | some index =>
      if index.position = 0 then (s, .error s!"no previous {env.id} workflow")
      else
        let position := index.position - 1
        match readFileSync s.nodes (join env.history ((index.order[position]?).getD "")) with
        | .error e => (s, .error e)
        | .ok yaml =>
          match parseArchonWorkflow env.yaml yaml none with
          | .error e => (s, .error e)
          | .ok workflow =>
            match mkdirSync s.nodes env.dir with
            | .error e => (s, .error e)
            | .ok nodes =>
              match replaceWorkflow env { s with nodes } workflow.name (ensureNewline yaml) with
              | .error e => ({ s with nodes }, .error e)
              | .ok s => ({ s with index := some ⟨index.order, position⟩ }, .ok workflow.name)

/-! ### Calls -/

/-- A call of one of the three functions. -/
inductive Call
  | add (workflowFile : String) (content : Option String)
  | save (yamlText : String) (seedStamp stamp : Stamp)
  | restore

/-- A call: what it leaves, and whether it throws. -/
def call (env : Env) (s : DomainFiles) : Call → DomainFiles × Bool
  | .add workflowFile content => ((s.addDomain env workflowFile content).1, (s.addDomain env workflowFile content).2.toBool)
  | .save yamlText seedStamp stamp =>
    let r := s.saveDomainWorkflow env yamlText seedStamp stamp
    (r.1, r.2.toBool)
  | .restore => ((s.restoreDomainWorkflow env).1, (s.restoreDomainWorkflow env).2.toBool)

end DomainFiles

end Trek.Domains
