/-
# The conversation as text

A summary is asked for with the conversation as one text: `convertToLlm` of `core/messages.ts` turns
the messages of the agent into messages of a language model, and `serializeConversation` of
`core/compaction/utils.ts` writes these down. A text that is cut between the halves of a character
beyond the basic plane ends with the replacement character.
-/
import Trek.Compaction.Prepare
import Trek.Lib.Utf16

namespace Trek

/-! ### Messages of the language model -/

/-- `Message`. -/
inductive LlmMessage
  | user (content : UserContent) (timestamp : ℤ)
  | assistant (message : AssistantMessage)
  | toolResult (message : ToolResultMessage)
  deriving DecidableEq

def IDEMPOTENT_RESULT_PREFIX : List Char := "[idempotent]".toList

/-- `stripIdempotentPrefix`. -/
def stripIdempotentPrefix (text : String) : String :=
  if (text.toList.take IDEMPOTENT_RESULT_PREFIX.length).map Char.toLower = IDEMPOTENT_RESULT_PREFIX then
    String.ofList ((text.toList.drop IDEMPOTENT_RESULT_PREFIX.length).dropWhile isJsSpace)
  else text

/-- `stripIdempotentToolResult`. -/
def stripIdempotentToolResult (message : ToolResultMessage) : ToolResultMessage :=
  { message with
    content := message.content.map fun
      | .text text => .text (stripIdempotentPrefix text)
      | part => part }

def COMPACTION_SUMMARY_PREFIX : String :=
  "The conversation history before this point was compacted into the following summary:\n\n<summary>\n"

def COMPACTION_SUMMARY_SUFFIX : String := "\n</summary>"

def BRANCH_SUMMARY_PREFIX : String :=
  "The following is a summary of a branch that this conversation came back from:\n\n<summary>\n"

def BRANCH_SUMMARY_SUFFIX : String := "</summary>"

/-- `bashExecutionToText`. -/
def bashExecutionToText (m : BashExecutionMessage) : String :=
  "Ran `" ++ m.command ++ "`\n" ++
    (if truthy m.output then "```\n" ++ m.output ++ "\n```" else "(no output)") ++
    (if m.cancelled then "\n\n(command cancelled)"
      else match m.exitCode with
        | some exitCode => if exitCode ≠ 0 then "\n\nCommand exited with code " ++ toString exitCode else ""
        | none => "") ++
    (match m.fullOutputPath with
      | some path =>
        if m.truncated && truthy path then "\n\n[Output truncated. Full output: " ++ path ++ "]" else ""
      | none => "")

/-- The message of the language model that a message of the agent becomes. -/
def toLlm : AgentMessage → Option LlmMessage
  | .bashExecution m =>
    if m.excludeFromContext.getD false then none else some (.user (.blocks [.text (bashExecutionToText m)]) m.timestamp)
  | .custom m =>
    some (.user
      (match m.content with
        | .text text => .blocks [.text text]
        | content => content)
      m.timestamp)
  | .branchSummary summary _ timestamp =>
    some (.user (.blocks [.text (BRANCH_SUMMARY_PREFIX ++ summary ++ BRANCH_SUMMARY_SUFFIX)]) timestamp)
  | .compactionSummary summary _ timestamp =>
    some (.user (.blocks [.text (COMPACTION_SUMMARY_PREFIX ++ summary ++ COMPACTION_SUMMARY_SUFFIX)]) timestamp)
  | .user content timestamp => some (.user content timestamp)
  | .assistant m => some (.assistant m)
  | .toolResult m => some (.toolResult (stripIdempotentToolResult m))
  | .hookMessage _ => none

/-- `convertToLlm`. -/
def convertToLlm (messages : List AgentMessage) : List LlmMessage := messages.filterMap toLlm

/-! ### Text -/

/-- `text.slice(0, n)`. -/
def sliceStart : List Char → ℕ → List Char
  | [], _ => []
  | c :: cs, n =>
    if n = 0 then []
    else if c.toNat < 0x10000 then c :: sliceStart cs (n - 1)
    else if n = 1 then [replacement]
    else c :: sliceStart cs (n - 2)

def TOOL_RESULT_MAX_CHARS : ℕ := 2000

/-- `truncateForSummary`. -/
def truncateForSummary (text : String) (maxChars : ℕ) : String :=
  if jsLength text ≤ maxChars then text
  else
    String.ofList (sliceStart text.toList maxChars) ++ "\n\n[... " ++ toString (jsLength text - maxChars) ++
      " more characters truncated]"

/-- The text blocks of a content. -/
def blockTexts (content : List ContentBlock) : List String :=
  content.filterMap fun
    | .text text => some text
    | .image .. => none

section

variable (stringify : Json → String)

/-- A tool call as text; `stringify` is `JSON.stringify`. -/
def toolCallText (call : ToolCall) : String :=
  let args := match call.arguments with
    | .obj fields => fields.map fun field => field.1 ++ "=" ++ stringify field.2
    | _ => []
  call.name ++ "(" ++ String.intercalate ", " args ++ ")"

/-- One section of the text, if there is anything in it. -/
def part (label separator : String) (texts : List String) : List String :=
  if texts.isEmpty then [] else [label ++ String.intercalate separator texts]

/-- The sections a message adds. -/
def serializeMessage : LlmMessage → List String
  | .user content _ =>
    let text := match content with
      | .text text => text
      | .blocks blocks => String.join (blockTexts blocks)
    if truthy text then ["[User]: " ++ text] else []
  | .assistant m =>
    let thinkingParts := m.content.filterMap fun
      | .thinking thinking => some thinking
      | _ => none
    let textParts := m.content.filterMap fun
      | .text text => some text
      | _ => none
    part "[Assistant thinking]: " "\n" thinkingParts ++ part "[Assistant]: " "\n" textParts ++
      part "[Assistant tool calls]: " "; " (m.toolCalls.map (toolCallText stringify))
  | .toolResult m =>
    let content := String.join (blockTexts m.content)
    if truthy content then ["[Tool result]: " ++ truncateForSummary content TOOL_RESULT_MAX_CHARS] else []

/-- `serializeConversation`. -/
def serializeConversation (messages : List LlmMessage) : String :=
  String.intercalate "\n\n" (messages.flatMap (serializeMessage stringify))

end

/-! ### Lists of files -/

/-- `files.sort()`. -/
def sortFiles (files : List String) : List String := files.mergeSort fun a b => utf16 a.toList ≤ utf16 b.toList

/-- `computeFileLists`. -/
def computeFileLists (fileOps : FileOperations) : List String × List String :=
  let modified := (fileOps.edited ++ fileOps.written).foldl setAdd []
  (sortFiles (fileOps.read.filter (· ∉ modified)), sortFiles modified)

/-- `formatFileOperations`. -/
def formatFileOperations (readFiles modifiedFiles : List String) : String :=
  let sections :=
    (if readFiles.isEmpty then [] else ["<read-files>\n" ++ String.intercalate "\n" readFiles ++ "\n</read-files>"]) ++
    (if modifiedFiles.isEmpty then []
      else ["<modified-files>\n" ++ String.intercalate "\n" modifiedFiles ++ "\n</modified-files>"])
  if sections.isEmpty then "" else "\n\n" ++ String.intercalate "\n\n" sections

end Trek
