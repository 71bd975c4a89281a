/-
# Messages

The message types of `packages/ai/src/types.ts` and
`packages/coding-agent/src/core/messages.ts`, with the fields the modelled code
reads: what a user, an assistant, a tool and an extension put into a
conversation, and the summary messages that stand for what was cut out of it.
An absent optional field is `none`. `unknown` payloads (tool arguments,
`details`, extension data) are JSON values.
-/
import Mathlib.Data.Rat.Defs

namespace Trek

/-! ### JSON values -/

/-- A JSON value. -/
inductive Json
  | null
  | bool (b : Bool)
  | num (n : ℚ)
  | str (s : String)
  | arr (xs : List Json)
  | obj (fields : List (String × Json))

namespace Json

mutual

/-- Equality of JSON values is decidable. -/
def decEq : (a b : Json) → Decidable (a = b)
  | .null, .null => isTrue rfl
  | .bool x, .bool y => decidable_of_iff (x = y) (by simp)
  | .num x, .num y => decidable_of_iff (x = y) (by simp)
  | .str x, .str y => decidable_of_iff (x = y) (by simp)
  | .arr x, .arr y => @decidable_of_iff _ (x = y) (by simp) (decEqList x y)
  | .obj x, .obj y => @decidable_of_iff _ (x = y) (by simp) (decEqFields x y)
  | .null, .bool _ | .null, .num _ | .null, .str _ | .null, .arr _ | .null, .obj _
  | .bool _, .null | .bool _, .num _ | .bool _, .str _ | .bool _, .arr _ | .bool _, .obj _
  | .num _, .null | .num _, .bool _ | .num _, .str _ | .num _, .arr _ | .num _, .obj _
  | .str _, .null | .str _, .bool _ | .str _, .num _ | .str _, .arr _ | .str _, .obj _
  | .arr _, .null | .arr _, .bool _ | .arr _, .num _ | .arr _, .str _ | .arr _, .obj _
  | .obj _, .null | .obj _, .bool _ | .obj _, .num _ | .obj _, .str _ | .obj _, .arr _ =>
    isFalse (by simp)

/-- Equality of lists of JSON values is decidable. -/
def decEqList : (a b : List Json) → Decidable (a = b)
  | [], [] => isTrue rfl
  | x :: xs, y :: ys =>
    @decidable_of_iff _ (x = y ∧ xs = ys) (by simp) (@instDecidableAnd _ _ (decEq x y) (decEqList xs ys))
  | [], _ :: _ | _ :: _, [] => isFalse (by simp)

/-- Equality of the fields of JSON objects is decidable. -/
def decEqFields : (a b : List (String × Json)) → Decidable (a = b)
  | [], [] => isTrue rfl
  | (k, x) :: xs, (l, y) :: ys =>
    @decidable_of_iff _ (k = l ∧ x = y ∧ xs = ys) (by simp [and_assoc])
      (@instDecidableAnd _ _ _ (@instDecidableAnd _ _ (decEq x y) (decEqFields xs ys)))
  | [], _ :: _ | _ :: _, [] => isFalse (by simp)

end

instance : DecidableEq Json := decEq

/-- `value[key]`; `none` is `undefined`. -/
def get? (key : String) : Json → Option Json
  | .obj fields => (fields.find? (·.1 = key)).map (·.2)
  | _ => none

end Json

/-! ### Content blocks -/

/-- `TextContent | ImageContent`. -/
inductive ContentBlock
  | text (text : String)
  | image (data mimeType : String)
  deriving DecidableEq

/-- `string | (TextContent | ImageContent)[]`. -/
inductive UserContent
  | text (text : String)
  | blocks (blocks : List ContentBlock)
  deriving DecidableEq

/-- `ToolCall`. -/
structure ToolCall where
  id : String
  name : String
  arguments : Json
  deriving DecidableEq

/-- `TextContent | ThinkingContent | ToolCall`, the content of an assistant. -/
inductive AssistantBlock
  | text (text : String)
  | thinking (thinking : String)
  | toolCall (call : ToolCall)
  deriving DecidableEq

/-- `Usage`, without the costs. -/
structure Usage where
  input : ℕ
  output : ℕ
  cacheRead : ℕ
  cacheWrite : ℕ
  totalTokens : ℕ
  deriving DecidableEq

/-- `StopReason`. -/
inductive StopReason
  | stop | length | toolUse | error | aborted
  deriving DecidableEq

/-! ### Messages -/

/-- `AssistantMessage`. -/
structure AssistantMessage where
  content : List AssistantBlock
  api : String
  provider : String
  model : String
  usage : Option Usage
  stopReason : StopReason
  errorMessage : Option String
  timestamp : ℤ
  deriving DecidableEq

/-- `message.content.filter((c) => c.type === "toolCall")`. -/
def AssistantMessage.toolCalls (m : AssistantMessage) : List ToolCall :=
  m.content.filterMap fun
    | .toolCall c => some c
    | _ => none

/-- `ToolResultMessage`. -/
structure ToolResultMessage where
  toolCallId : String
  toolName : String
  content : List ContentBlock
  details : Option Json
  isError : Bool
  timestamp : ℤ
  deriving DecidableEq

/-- `BashExecutionMessage`. -/
structure BashExecutionMessage where
  command : String
  output : String
  exitCode : Option ℤ
  cancelled : Bool
  truncated : Bool
  fullOutputPath : Option String
  timestamp : ℤ
  excludeFromContext : Option Bool
  deriving DecidableEq

/-- `CustomMessage`. -/
structure CustomMessage where
  customType : String
  content : UserContent
  display : Bool
  details : Option Json
  timestamp : ℤ
  deriving DecidableEq

/-- `AgentMessage`, told apart by `role`. `hookMessage` is the role a custom
message has in session files before version 3. -/
inductive AgentMessage
  | user (content : UserContent) (timestamp : ℤ)
  | assistant (message : AssistantMessage)
  | toolResult (message : ToolResultMessage)
  | bashExecution (message : BashExecutionMessage)
  | custom (message : CustomMessage)
  | hookMessage (message : CustomMessage)
  | branchSummary (summary fromId : String) (timestamp : ℤ)
  | compactionSummary (summary : String) (tokensBefore : ℕ) (timestamp : ℤ)
  deriving DecidableEq

/-- `message.role === "assistant"`. -/
def AgentMessage.isAssistant : AgentMessage → Bool
  | .assistant _ => true
  | _ => false

/-! ### Messages made from entries

`getTime` is `new Date(timestamp).getTime()`. -/

variable (getTime : String → ℤ)

/-- `createBranchSummaryMessage`. -/
def createBranchSummaryMessage (summary fromId timestamp : String) : AgentMessage :=
  .branchSummary summary fromId (getTime timestamp)

/-- `createCompactionSummaryMessage`. -/
def createCompactionSummaryMessage (summary : String) (tokensBefore : ℕ) (timestamp : String) :
    AgentMessage :=
  .compactionSummary summary tokensBefore (getTime timestamp)

/-- `createCustomMessage`. -/
def createCustomMessage (customType : String) (content : UserContent) (display : Bool)
    (details : Option Json) (timestamp : String) : AgentMessage :=
  .custom ⟨customType, content, display, details, getTime timestamp⟩

end Trek
