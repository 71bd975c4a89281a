/-
# Messages made fit for a provider

`transformMessages` of `@trek/ai` rewrites a history before it is sent to a model.
A first pass replaces images the model cannot see, turns the thinking of another
model into text and normalises the ids of tool calls, keeping a map of the ids it
changed. A second pass drops the assistant messages that failed and inserts a
result for every call that has none.
-/
import Trek.Lib.OrdMap
import Trek.Lib.Text
import Trek.Messages

namespace Trek.Ai

/-! ### Messages -/

/-- `TextContent`. -/
structure TextContent where
  text : String
  textSignature : Option String
  deriving DecidableEq

/-- `TextContent | ImageContent`. -/
inductive ContentBlock
  | text (block : TextContent)
  | image (data mimeType : String)
  deriving DecidableEq

/-- `ThinkingContent`. -/
structure ThinkingContent where
  thinking : String
  thinkingSignature : Option String
  redacted : Option Bool
  deriving DecidableEq

/-- `ToolCall`. -/
structure ToolCall where
  id : String
  name : String
  arguments : Json
  thoughtSignature : Option String
  deriving DecidableEq

/-- `TextContent | ThinkingContent | ToolCall`. -/
inductive AssistantBlock
  | text (block : TextContent)
  | thinking (block : ThinkingContent)
  | toolCall (call : ToolCall)
  deriving DecidableEq

/-- `string | (TextContent | ImageContent)[]`. -/
inductive UserContent
  | text (text : String)
  | blocks (blocks : List ContentBlock)
  deriving DecidableEq

/-- `AssistantMessage`. -/
structure AssistantMessage where
  content : List AssistantBlock
  api : String
  provider : String
  model : String
  responseModel : Option String
  responseId : Option String
  usage : Usage
  stopReason : StopReason
  errorMessage : Option String
  timestamp : ℤ
  deriving DecidableEq

/-- `ToolResultMessage`. -/
structure ToolResultMessage where
  toolCallId : String
  toolName : String
  content : List ContentBlock
  details : Option Json
  isError : Bool
  timestamp : ℤ
  deriving DecidableEq

/-- `Message`, told apart by `role`. -/
inductive Message
  | user (content : UserContent) (timestamp : ℤ)
  | assistant (message : AssistantMessage)
  | toolResult (message : ToolResultMessage)
  deriving DecidableEq

/-- What `transformMessages` reads of a `Model`. -/
structure Model where
  id : String
  api : String
  provider : String
  input : List String
  deriving DecidableEq

/-- A call, if the block is one. -/
def AssistantBlock.call? : AssistantBlock → Option ToolCall
  | .toolCall c => some c
  | _ => none

/-- `assistantMsg.content.filter((b) => b.type === "toolCall")`. -/
def AssistantMessage.toolCalls (m : AssistantMessage) : List ToolCall := m.content.filterMap AssistantBlock.call?

/-- `stopReason === "error" || stopReason === "aborted"`. -/
def AssistantMessage.failed (m : AssistantMessage) : Bool := m.stopReason = .error || m.stopReason = .aborted

/-- An optional text read as a condition. -/
def isSet (s : Option String) : Bool := s.any (· ≠ "")

/-! ### Images a model cannot see -/

def NON_VISION_USER_IMAGE_PLACEHOLDER : String := "(image omitted: model does not support images)"

def NON_VISION_TOOL_IMAGE_PLACEHOLDER : String := "(tool image omitted: model does not support images)"

/-- The loop of `replaceImagesWithPlaceholder`. -/
def replaceImagesFrom (placeholder : String) (previousWasPlaceholder : Bool) : List ContentBlock → List ContentBlock
  | [] => []
  | .image _ _ :: content =>
    let rest := replaceImagesFrom placeholder true content
    if previousWasPlaceholder then rest else .text ⟨placeholder, none⟩ :: rest
  | .text block :: content => .text block :: replaceImagesFrom placeholder (block.text = placeholder) content

/-- `replaceImagesWithPlaceholder`. -/
def replaceImagesWithPlaceholder (content : List ContentBlock) (placeholder : String) : List ContentBlock :=
  replaceImagesFrom placeholder false content

/-- What `downgradeUnsupportedImages` makes of a message when the model takes no images. -/
def downgradeMessage : Message → Message
  | .user (.blocks content) timestamp =>
    .user (.blocks (replaceImagesWithPlaceholder content NON_VISION_USER_IMAGE_PLACEHOLDER)) timestamp
  | .toolResult m =>
    .toolResult { m with content := replaceImagesWithPlaceholder m.content NON_VISION_TOOL_IMAGE_PLACEHOLDER }
  | msg => msg

/-- What a message becomes for a model with the given inputs. -/
def imageAware (model : Model) (msg : Message) : Message :=
  if model.input.contains "image" then msg else downgradeMessage msg

/-- `downgradeUnsupportedImages`. -/
def downgradeUnsupportedImages (messages : List Message) (model : Model) : List Message :=
  messages.map (imageAware model)

/-! ### The first pass -/

/-- `normalizeToolCallId`, with the model it is given. -/
abbrev Normalizer := String → Model → AssistantMessage → String

section

variable (model : Model) (normalizeToolCallId : Option Normalizer)

/-- `isSameModel`. -/
def isSameModel (m : AssistantMessage) : Bool :=
  m.provider = model.provider && m.api = model.api && m.model = model.id

/-- A thinking block, kept, dropped or turned into text. -/
def transformThinking (sameModel : Bool) (block : ThinkingContent) : List AssistantBlock :=
  if block.redacted = some true then if sameModel then [.thinking block] else []
  else if sameModel && isSet block.thinkingSignature then [.thinking block]
  else if block.thinking = "" || jsTrim block.thinking = "" then []
  else if sameModel then [.thinking block]
  else [.text ⟨block.thinking, none⟩]

/-- A tool call, and the map of ids after it. -/
def transformCall (source : AssistantMessage) (toolCallIdMap : OrdMap String String) (toolCall : ToolCall) :
    OrdMap String String × ToolCall :=
  let sameModel := isSameModel model source
  let normalized :=
    if !sameModel && isSet toolCall.thoughtSignature then { toolCall with thoughtSignature := none } else toolCall
  match normalizeToolCallId with
  | none => (toolCallIdMap, normalized)
  | some normalize =>
    if sameModel then (toolCallIdMap, normalized)
    else
      let normalizedId := normalize toolCall.id model source
      if normalizedId ≠ toolCall.id then
        (toolCallIdMap.set toolCall.id normalizedId, { normalized with id := normalizedId })
      else (toolCallIdMap, normalized)

/-- `assistantMsg.content.flatMap(...)`, and the map of ids after it. -/
def transformContent (source : AssistantMessage) (toolCallIdMap : OrdMap String String) :
    List AssistantBlock → OrdMap String String × List AssistantBlock
  | [] => (toolCallIdMap, [])
  | .thinking block :: content =>
    let (ids, rest) := transformContent source toolCallIdMap content
    (ids, transformThinking (isSameModel model source) block ++ rest)
  | .text block :: content =>
    let (ids, rest) := transformContent source toolCallIdMap content
    (ids, .text (if isSameModel model source then block else ⟨block.text, none⟩) :: rest)
  | .toolCall toolCall :: content =>
    let (ids, normalized) := transformCall model normalizeToolCallId source toolCallIdMap toolCall
    let (ids, rest) := transformContent source ids content
    (ids, .toolCall normalized :: rest)

/-- A result under the id its call has now. The map is asked by truth, so an empty id
counts as none. -/
def transformResult (toolCallIdMap : OrdMap String String) (m : ToolResultMessage) : ToolResultMessage :=
  match toolCallIdMap.get? m.toolCallId with
  | some normalizedId =>
    if normalizedId ≠ "" ∧ normalizedId ≠ m.toolCallId then { m with toolCallId := normalizedId } else m
  | none => m

/-- The first pass from a map of ids on. -/
def transformFrom (toolCallIdMap : OrdMap String String) : List Message → List Message
  | [] => []
  | .user content timestamp :: messages => .user content timestamp :: transformFrom toolCallIdMap messages
  | .toolResult m :: messages => .toolResult (transformResult toolCallIdMap m) :: transformFrom toolCallIdMap messages
  | .assistant m :: messages =>
    let (ids, content) := transformContent model normalizeToolCallId m toolCallIdMap m.content
    .assistant { m with content } :: transformFrom ids messages

end

/-! ### The second pass -/

/-- The variables of the second pass. -/
structure Repair where
  result : List Message
  pendingToolCalls : List ToolCall
  existingToolResultIds : List String

namespace Repair

variable (now : ℕ → ℤ)

/-- The result made up for a call, at the time of the reading of the clock. -/
def noResult (toolCall : ToolCall) (timestamp : ℤ) : Message :=
  .toolResult ⟨toolCall.id, toolCall.name, [.text ⟨"No result provided", none⟩], none, true, timestamp⟩

/-- `result.push(msg)`. -/
def push (s : Repair) (msg : Message) : Repair := { s with result := s.result ++ [msg] }

/-- `insertSyntheticToolResults`. `now k` is the clock when `k` messages are in the result. -/
def insertSyntheticToolResults (s : Repair) : Repair :=
  if s.pendingToolCalls ≠ [] then
    let s' := s.pendingToolCalls.foldl (fun s' toolCall =>
      if toolCall.id ∈ s.existingToolResultIds then s' else s'.push (noResult toolCall (now s'.result.length))) s
    { s' with pendingToolCalls := [], existingToolResultIds := [] }
  else s

/-- The body of the loop. -/
def step (s : Repair) : Message → Repair
  | .assistant m =>
    let s := s.insertSyntheticToolResults now
    if m.failed then s
    else
      let s := if m.toolCalls ≠ [] then { s with pendingToolCalls := m.toolCalls, existingToolResultIds := [] } else s
      s.push (.assistant m)
  | .toolResult m => { s with existingToolResultIds := s.existingToolResultIds ++ [m.toolCallId] }.push (.toolResult m)
  | .user content timestamp => (s.insertSyntheticToolResults now).push (.user content timestamp)

end Repair

/-- `transformMessages`. `now k` is `Date.now()` when `k` messages are in the result. -/
def transformMessages (now : ℕ → ℤ) (messages : List Message) (model : Model)
    (normalizeToolCallId : Option Normalizer) : List Message :=
  let transformed := transformFrom model normalizeToolCallId .empty (downgradeUnsupportedImages messages model)
  ((transformed.foldl (Repair.step now) ⟨[], [], []⟩).insertSyntheticToolResults now).result

end Trek.Ai
