/-
# Running a workflow

`packages/coding-agent/src/core/domains/run.ts`: a prompt node is one model step, a bash node one shell step, and
`$USER_MESSAGE` and `$id.output` in their bodies are replaced by the user turn and by the replies of earlier nodes. The model
and the shell are parameters. A run also says which prompts the model was given, and after which replies.
-/
import Trek.Domains.Order
import Trek.Lib.Replace

namespace Trek.Domains

/-! ### Tokens -/

/-- What `TOKEN` matches. -/
inductive Token
  | userMessage
  | output (id : String)
  deriving DecidableEq

/-- `[A-Za-z_]`. -/
def isIdStart (c : Char) : Bool := c.isAlpha || c = '_'

/-- `[A-Za-z0-9_-]`. -/
def isIdChar (c : Char) : Bool := isWordChar c || c = '-'

/-- `TOKEN`. An id ends where its characters end, since `.` is none of them. -/
def TOKEN : Pattern Token
  | [] => none
  | c :: text =>
    if c = '$' then
      let id := text.takeWhile isIdChar
      let rest := text.dropWhile isIdChar
      if id.head?.any isIdStart && startsWithWord ".output" rest then some (.output (String.ofList id), rest.drop 7)
      else if startsWithWord "USER_MESSAGE" text then some (.userMessage, text.drop 12)
      else none
    else none

/-- The text of the token of a node. -/
def tokenOf (id : String) : String := "$" ++ id ++ ".output"

/-- What `substitute` puts in the place of a match. -/
def insertToken (workflow : ArchonWorkflow) (nodeId userMessage : String) (outputs : OrdMap String String) :
    Token → Except String (List Char)
  | .userMessage => .ok userMessage.toList
  | .output id =>
    if id ∉ workflow.nodes.map (·.id) then .ok (tokenOf id).toList
    else
      match outputs.get? id with
      | none => .error s!"node {nodeId} reads ${id}.output before that node has completed"
      | some output => .ok output.toList

/-- `substitute`. -/
def substitute (text : String) (workflow : ArchonWorkflow) (nodeId userMessage : String)
    (outputs : OrdMap String String) : Except String String :=
  (replaceEach TOKEN (insertToken workflow nodeId userMessage outputs) text.toList).map String.ofList

/-! ### Prompts -/

/-- The lines a prompt has for a dependency whose token is not in the body. -/
def replyLines (body : String) (outputs : OrdMap String String) (dep : String) : List String :=
  if (tokenOf dep).toList <:+: body.toList then []
  else
    let reply := jsTrim ((outputs.get? dep).getD "")
    ["", tokenOf dep ++ ":", if reply ≠ "" then reply else "(none)"]

/-- `renderPrompt`. -/
def renderPrompt (workflow : ArchonWorkflow) (node : ArchonNode) (userMessage : String) (outputs : OrdMap String String)
    (facts : List (String × String)) : Except String String := do
  let body ← substitute node.body workflow node.id userMessage outputs
  .ok <| "\n".intercalate <|
    ["Answer only this Archon node.",
      "One line. No preamble.",
      "Do not call a tool. The earlier node replies are below.",
      "If a fact is not in the user turn, the known facts, or an earlier reply, say it is not in the turn.",
      "",
      "User turn:",
      userMessage] ++
    (if facts = [] then [] else ["", "Known facts:"] ++ facts.map fun fact => s!"{fact.1}: {fact.2}") ++
    ["", s!"Node {node.id}:", body] ++
    node.dependsOn.flatMap (replyLines node.body outputs)

/-! ### Runs -/

/-- One of `words`, and no letter, digit or underscore around it, whatever the case of its letters. -/
def startsWithAny (words : List String) (text : List Char) : Bool :=
  words.any fun word => startsWithWord word (text.map Char.toLower)

/-- The text goes on with a word and white space after it; what comes then. -/
def afterWordAndSpace (word : String) (text : List Char) : Option (List Char) :=
  match dropWord word.toList text with
  | some (c :: rest) => if isJsSpace c then some (rest.dropWhile isJsSpace) else none
  | _ => none

/-- `REFUSED_BASH.test(script)`. -/
def refusedBash (script : String) : Bool :=
  (positions none script.toList).any fun (before, text) =>
    (!before.any isWordChar && (startsWithAny ["sudo", "curl", "wget", "mkfs", "nc", "netcat"] text ||
      (afterWordAndSpace "rm" text).any (·.head? = some '-') || (afterWordAndSpace "dd" text).isSome)) ||
    (afterWordAndSpace "git" text).any (fun rest => (dropWord "push".toList rest).isSome) ||
    (afterWordAndSpace "chmod" text).any (fun rest => (dropWord "777".toList rest).isSome)

/-- `RunArchonOptions`, with what `execFile` returns for a script in the directory of the run. -/
structure RunArchonOptions where
  userMessage : Option String
  facts : Option (List (String × String))
  runPrompt : Option (String → ArchonNode → Except String String)
  execFile : String → Except String String

/-- A prompt the model was given, and the replies there were. -/
structure PromptCall where
  node : ArchonNode
  outputs : OrdMap String String
  prompt : String

/-- `callNode`, with the call of the model it makes. -/
def callNode (workflow : ArchonWorkflow) (node : ArchonNode) (options : RunArchonOptions) (outputs : OrdMap String String) :
    List PromptCall × Except String String :=
  match node.kind with
  | .prompt =>
    match options.runPrompt with
    | none => ([], .error s!"prompt node {node.id} is an AI step and needs a model call")
    | some runPrompt =>
      match renderPrompt workflow node (options.userMessage.getD "") outputs (options.facts.getD []) with
      | .error e => ([], .error e)
      | .ok prompt => ([⟨node, outputs, prompt⟩], (runPrompt prompt node).map jsTrim)
  | .bash =>
    match substitute node.body workflow node.id (options.userMessage.getD "") outputs with
    | .error e => ([], .error e)
    | .ok script =>
      if refusedBash script then ([], .error s!"refused bash node {node.id}")
      else ([], (options.execFile script).map jsTrim)
  | .command => ([], .error s!"command node {node.id} names a command file. This release calls prompt and bash nodes.")
  | .script =>
    ([], .error s!"script node {node.id} is not called in this release. This release calls prompt and bash nodes.")
  | .loop =>
    let stopWhen := (node.loop.map (·.stopWhen)).getD "COMPLETE"
    ([], .error s!"loop node {node.id} repeats until {stopWhen}. This release calls prompt and bash nodes.")

/-- The loop of `runArchonWorkflow`. A result is an id and an output. -/
def runNodes (workflow : ArchonWorkflow) (options : RunArchonOptions) :
    List ArchonNode → OrdMap String String → List PromptCall × Except String (List (String × String))
  | [], _ => ([], .ok [])
  | node :: nodes, outputs =>
    match callNode workflow node options outputs with
    | (calls, .error e) => (calls, .error e)
    | (calls, .ok output) =>
      let (calls', results) := runNodes workflow options nodes (outputs.set node.id output)
      (calls ++ calls', results.map ((node.id, output) :: ·))

/-- `runArchonWorkflow`. -/
def runArchonWorkflow (workflow : ArchonWorkflow) (options : RunArchonOptions) :
    List PromptCall × Except String (List (String × String)) :=
  match orderNodes workflow.nodes with
  | .error e => ([], .error e)
  | .ok ordered => runNodes workflow options ordered .empty

end Trek.Domains
