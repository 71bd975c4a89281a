/-
# Archon workflows

`packages/coding-agent/src/core/domains/archon.ts`: what a workflow file has to hold, with
the errors that a file gives that does not, and the order in which its nodes run. What the
YAML parser makes of a text is a parameter; its objects, lists and scalars are JSON values.
-/
import Trek.Lib.OrdMap
import Trek.Lib.Text
import Trek.Messages

namespace Trek.Domains

/-! ### Workflows -/

/-- `ArchonNodeKind`. -/
inductive ArchonNodeKind
  | prompt | command | bash | script | loop
  deriving DecidableEq

/-- The key of a kind in a node. -/
def ArchonNodeKind.key : ArchonNodeKind → String
  | .prompt => "prompt"
  | .command => "command"
  | .bash => "bash"
  | .script => "script"
  | .loop => "loop"

/-- `ARCHON_NODE_KINDS`. -/
def ARCHON_NODE_KINDS : List ArchonNodeKind := [.prompt, .command, .bash, .script, .loop]

/-- `loop` of a node. -/
structure ArchonLoop where
  stopWhen : String
  maxIterations : ℕ
  deriving DecidableEq

/-- `ArchonNode`. -/
structure ArchonNode where
  id : String
  kind : ArchonNodeKind
  body : String
  dependsOn : List String
  allowedTools : Option (List String)
  loop : Option ArchonLoop
  deriving DecidableEq

/-- `ArchonWorkflow`. -/
structure ArchonWorkflow where
  name : String
  description : String
  nodes : List ArchonNode
  deriving DecidableEq

/-! ### The order of the nodes -/

/-- `new Map(pairs)`. -/
def mapOf {ν : Type*} (pairs : List (String × ν)) : OrdMap String ν := pairs.foldl (fun m p => m.set p.1 p.2) .empty

/-- The ids whose dependencies have all run, in file order. -/
def readyIds (index : OrdMap String ℕ) (remaining : List (String × List String)) : List String :=
  ((remaining.filter (·.2.isEmpty)).map (·.1)).mergeSort fun a b => (index.get? a).getD 0 ≤ (index.get? b).getD 0

/-- The loop of `orderNodes`, with the number of nodes that are not ordered yet. -/
def orderLoop (byId : OrdMap String ArchonNode) (index : OrdMap String ℕ) :
    ℕ → List (String × List String) → List ArchonNode → Except String (List ArchonNode)
  | 0, _, ordered => .ok ordered
  | n + 1, remaining, ordered =>
    match readyIds index remaining with
    | [] => .error "workflow has a cycle"
    | id :: _ =>
      if id = "" then .ok ordered
      else
        match byId.get? id with
        | none => .error s!"missing node {id}"
        | some node =>
          let rest := remaining.filter (·.1 ≠ id)
          orderLoop byId index n (rest.map fun p => (p.1, p.2.filter (· ≠ id))) (ordered ++ [node])

/-- `orderNodes`. -/
def orderNodes (nodes : List ArchonNode) : Except String (List ArchonNode) :=
  orderLoop (mapOf (nodes.map fun node => (node.id, node)))
    (mapOf (nodes.zipIdx.map fun p => (p.1.id, p.2))) nodes.length
    (mapOf (nodes.map fun node => (node.id, node.dependsOn))).pairs []

/-! ### Reading a workflow -/

/-- The text of a value that is a string. -/
def stringOf : Option Json → Option String
  | some (.str s) => some s
  | _ => none

/-- The text of a value that is a string and not blank. -/
def textOf (value : Option Json) : Option String := (stringOf value).filter fun s => jsTrim s ≠ ""

/-- A list of strings. -/
def stringsOf : List Json → Option (List String)
  | [] => some []
  | .str s :: xs => (stringsOf xs).map (s :: ·)
  | _ :: _ => none

/-- The properties of an object that is not an array. -/
def recordOf : Option Json → Option Json
  | some (.obj fields) => some (.obj fields)
  | _ => none

/-- `presentKinds`. -/
def presentKinds (record : Json) : List ArchonNodeKind :=
  ARCHON_NODE_KINDS.filter fun kind =>
    match kind with
    | .loop => (record.get? kind.key).isSome
    | _ => (textOf (record.get? kind.key)).isSome

/-- `readLoop`: the prompt, and the loop. -/
def readLoop (value : Option Json) (nodeId : String) : Except String (String × ArchonLoop) :=
  match recordOf value with
  | none => .error s!"node {nodeId} loop is an object with prompt, until, and max_iterations"
  | some loop =>
    match textOf (loop.get? "prompt"), textOf (loop.get? "until"), loop.get? "max_iterations" with
    | none, _, _ => .error s!"node {nodeId} loop.prompt is required"
    | some _, none, _ => .error s!"node {nodeId} loop.until is required"
    | some prompt, some stopWhen, some (.num n) =>
      if n.den = 1 ∧ 1 ≤ n.num then .ok (jsTrim prompt, ⟨jsTrim stopWhen, n.num.toNat⟩)
      else .error s!"node {nodeId} loop.max_iterations must be a positive integer"
    | some _, some _, _ => .error s!"node {nodeId} loop.max_iterations must be a positive integer"

/-- `readAllowedTools`. -/
def readAllowedTools (value : Option Json) (nodeId : String) : Except String (Option (List String)) :=
  match value with
  | none => .ok none
  | some (.arr xs) =>
    match stringsOf xs with
    | some tools => .ok (some tools)
    | none => .error s!"node {nodeId} allowed_tools must be a list of tool names"
  | some _ => .error s!"node {nodeId} allowed_tools must be a list of tool names"

/-- `stringList`; what is `undefined` has been replaced by the empty list. -/
def stringList (value : Json) (nodeId : String) : Except String (List String) :=
  match value with
  | .arr xs =>
    match stringsOf xs with
    | some ids =>
      if ids.any fun s => jsTrim s = "" then .error s!"node {nodeId} depends_on must be a list of ids"
      else .ok (ids.map jsTrim)
    | none => .error s!"node {nodeId} depends_on must be a list of ids"
  | _ => .error s!"node {nodeId} depends_on must be a list of ids"

/-- `parseNode`. -/
def parseNode (value : Json) (index : ℕ) : Except String ArchonNode :=
  match recordOf (some value) with
  | none => .error s!"node {index} must be an object"
  | some record =>
    match textOf (record.get? "id") with
    | none => .error s!"node {index} id is required"
    | some rawId =>
      let id := jsTrim rawId
      match presentKinds record with
      | [kind] => do
        let dependsOn ← stringList ((record.get? "depends_on").getD (.arr [])) id
        let allowedTools ← readAllowedTools (record.get? "allowed_tools") id
        if kind = .loop then
          let (prompt, loop) ← readLoop (record.get? "loop") id
          .ok { id, kind, body := prompt, dependsOn, allowedTools, loop := some loop }
        else if kind = .script ∧ record.get? "runtime" ≠ some (.str "bun") ∧ record.get? "runtime" ≠ some (.str "uv") then
          .error s!"node {id} script requires runtime bun or uv"
        else
          .ok { id, kind, body := jsTrim ((stringOf (record.get? kind.key)).getD ""), dependsOn, allowedTools, loop := none }
      | _ => .error s!"node {id} needs one of prompt, command, bash, script, or loop"

/-- The nodes of a workflow, each with its position. -/
def parseNodes : ℕ → List Json → Except String (List ArchonNode)
  | _, [] => .ok []
  | index, value :: values => do
    let node ← parseNode value index
    let nodes ← parseNodes (index + 1) values
    .ok (node :: nodes)

/-- The first id that a node before it has. -/
def duplicateId : List String → List String → Option String
  | _, [] => none
  | seen, id :: ids => if id ∈ seen then some id else duplicateId (id :: seen) ids

/-- The first node that depends on an id that no node has, with that id. -/
def unknownDep (nodes : List ArchonNode) : Option (String × String) :=
  (nodes.flatMap fun node => node.dependsOn.map fun dep => (node.id, dep)).find? fun p => p.2 ∉ nodes.map (·.id)

/-- `parseArchonWorkflow` of the file at a path, or of a text alone. -/
def parseArchonWorkflow (yaml : String → Except String Json) (text : String) (sourcePath : Option String) :
    Except String ArchonWorkflow :=
  if sourcePath.any fun path => "SKILL.md".toList.isSuffixOf path.toList then .error "SKILL.md is not a workflow"
  else
    match yaml text with
    | .error e => .error e
    | .ok raw =>
      match recordOf (some raw) with
      | none => .error "workflow must be a YAML object"
      | some record =>
        match textOf (record.get? "name"), textOf (record.get? "description"), record.get? "nodes" with
        | none, _, _ => .error "workflow name is required"
        | some _, none, _ => .error "workflow description is required"
        | some name, some description, some (.arr (value :: values)) => do
          let nodes ← parseNodes 0 (value :: values)
          match duplicateId [] (nodes.map (·.id)), unknownDep nodes with
          | some id, _ => .error s!"duplicate node id {id}"
          | none, some (id, dep) => .error s!"node {id} depends on unknown id {dep}"
          | none, none =>
            let _ ← orderNodes nodes
            .ok ⟨jsTrim name, jsTrim description, nodes⟩
        | some _, some _, _ => .error "workflow nodes are required"

end Trek.Domains
