/-
# The stream of a chat completion

`streamOpenAICompletions` of `providers/openai-completions.ts`, from its first event on: the chunks of
a response are put together to an assistant message, and what is put together is pushed as events. The
blocks of the message are objects that grow while they are streamed; blocks are only ever appended, so
an object is its position, which is also its `contentIndex`. The `partial` of an event is the message
itself and left out.
-/
import Mathlib.Data.List.Infix
import Trek.Ai.TransformMessages
import Trek.Lib.Firsts

namespace Trek.Ai.Completions

/-! ### Chunks -/

/-- A delta of a tool call, with the fields of its `function`. -/
structure ToolCallDelta where
  index : Option ℤ
  id : Option String
  name : Option String
  arguments : Option String
  deriving DecidableEq

/-- An entry of `reasoning_details`. -/
structure ReasoningDetail where
  type : Option String
  id : Option String
  data : Option String
  deriving DecidableEq

/-- `choice.delta`. -/
structure Delta where
  content : Option String
  reasoningContent : Option String
  reasoning : Option String
  reasoningText : Option String
  toolCalls : List ToolCallDelta
  reasoningDetails : List ReasoningDetail
  deriving DecidableEq

/-- `chunk.choices[0]`. -/
structure Choice (RawUsage : Type*) where
  usage : Option RawUsage
  finishReason : Option String
  delta : Option Delta
  deriving DecidableEq

/-- `ChatCompletionChunk`. -/
structure Chunk (RawUsage : Type*) where
  id : Option String
  systemFingerprint : Option String
  model : Option String
  usage : Option RawUsage
  choice : Option (Choice RawUsage)
  deriving DecidableEq

/-! ### The message and its events -/

/-- `StreamingToolCallBlock`. -/
structure StreamingToolCall where
  id : String
  name : String
  arguments : Json
  partialArgs : Option String
  streamIndex : Option ℤ
  thoughtSignature : Option String
  deriving DecidableEq

/-- `StreamingBlock`. -/
inductive StreamingBlock
  | text (text : String)
  | thinking (thinking thinkingSignature : String)
  | toolCall (call : StreamingToolCall)
  deriving DecidableEq

/-- `output`, without the fields that name the model. -/
structure Output (Usage : Type*) where
  content : List StreamingBlock
  usage : Usage
  stopReason : StopReason
  errorMessage : Option String
  responseId : Option String
  systemFingerprint : Option String
  responseModel : Option String
  deriving DecidableEq

/-- `AssistantMessageEvent`. -/
inductive Event (Usage : Type*)
  | start
  | textStart (contentIndex : ℕ)
  | textDelta (contentIndex : ℕ) (delta : String)
  | textEnd (contentIndex : ℕ) (content : String)
  | thinkingStart (contentIndex : ℕ)
  | thinkingDelta (contentIndex : ℕ) (delta : String)
  | thinkingEnd (contentIndex : ℕ) (content : String)
  | toolcallStart (contentIndex : ℕ)
  | toolcallDelta (contentIndex : ℕ) (delta : String)
  | toolcallEnd (contentIndex : ℕ) (toolCall : StreamingToolCall)
  | done (reason : StopReason) (message : Output Usage)
  | error (reason : StopReason) (error : Output Usage)
  deriving DecidableEq

/-- An error with its message and the metadata some providers give. -/
structure Thrown where
  message : String
  rawMetadata : Option String
  deriving DecidableEq

variable {RawUsage Usage : Type*}

/-- What the loop is given: the model, and the functions it calls. -/
structure Env (RawUsage Usage : Type*) where
  provider : String
  modelId : String
  baseUrl : Option String
  parseChunkUsage : RawUsage → Usage
  parseStreamingJson : String → Json
  isRepetitiveStreamText : String → Bool
  stringify : ReasoningDetail → String

/-- The variables of the loop. -/
structure Loop (Usage : Type*) where
  output : Output Usage
  textBlock : Option ℕ
  thinkingBlock : Option ℕ
  hasFinishReason : Bool
  textRepetition : String
  thinkingRepetition : String
  toolCallBlocksByIndex : OrdMap ℤ ℕ
  toolCallBlocksById : OrdMap String ℕ
  events : List (Event Usage)

/-! ### Blocks -/

/-- A text that is there and not empty. -/
def given (s : Option String) : Option String := s.filter (· ≠ "")

namespace Loop

/-- `stream.push(event)`. -/
def push (s : Loop Usage) (event : Event Usage) : Loop Usage := { s with events := s.events ++ [event] }

/-- `blocks.push(block)`. -/
def pushBlock (s : Loop Usage) (block : StreamingBlock) : Loop Usage :=
  { s with output := { s.output with content := s.output.content ++ [block] } }

/-- An assignment to the fields of a block. -/
def updateBlock (s : Loop Usage) (block : ℕ) (f : StreamingBlock → StreamingBlock) : Loop Usage :=
  { s with output := { s.output with content := s.output.content.modify block f } }

/-- `ensureTextBlock`. -/
def ensureTextBlock (s : Loop Usage) : ℕ × Loop Usage :=
  match s.textBlock with
  | some block => (block, s)
  | none =>
    let block := s.output.content.length
    (block, { (s.pushBlock (.text "")).push (.textStart block) with textBlock := some block })

/-- `ensureThinkingBlock`. -/
def ensureThinkingBlock (s : Loop Usage) (thinkingSignature : String) : ℕ × Loop Usage :=
  match s.thinkingBlock with
  | some block => (block, s)
  | none =>
    let block := s.output.content.length
    (block, { (s.pushBlock (.thinking "" thinkingSignature)).push (.thinkingStart block) with
      thinkingBlock := some block })

/-- `toolCallBlocksByIndex.set(streamIndex, block)`. -/
def setByIndex (s : Loop Usage) (streamIndex : ℤ) (block : ℕ) : Loop Usage :=
  { s with toolCallBlocksByIndex := s.toolCallBlocksByIndex.set streamIndex block }

/-- `toolCallBlocksById.set(id, block)`. -/
def setById (s : Loop Usage) (id : String) (block : ℕ) : Loop Usage :=
  { s with toolCallBlocksById := s.toolCallBlocksById.set id block }

/-- The tool call a block is. -/
def callAt (s : Loop Usage) (block : ℕ) : Option StreamingToolCall :=
  match s.output.content[block]? with
  | some (.toolCall call) => some call
  | _ => none

/-- The block the two maps have for a delta. -/
def findToolCallBlock (s : Loop Usage) (toolCall : ToolCallDelta) : Option ℕ :=
  (toolCall.index.bind s.toolCallBlocksByIndex.get?).or ((given toolCall.id).bind s.toolCallBlocksById.get?)

/-- The block that is made for a delta. -/
def newToolCall (toolCall : ToolCallDelta) : StreamingToolCall :=
  ⟨toolCall.id.getD "", toolCall.name.getD "", .obj [], some "", toolCall.index, none⟩

/-- The maps after a block is made. -/
def registerBlock (s : Loop Usage) (toolCall : ToolCallDelta) (block : ℕ) : Loop Usage :=
  let s := match toolCall.index with
    | some streamIndex => s.setByIndex streamIndex block
    | none => s
  match given toolCall.id with
  | some id => s.setById id block
  | none => s

/-- A block that had no index gets that of the delta. -/
def adoptIndex (s : Loop Usage) (toolCall : ToolCallDelta) (block : ℕ) : Loop Usage :=
  match toolCall.index with
  | some streamIndex =>
    if ((s.callAt block).bind StreamingToolCall.streamIndex).isNone then
      (s.updateBlock block fun
        | .toolCall call => .toolCall { call with streamIndex := some streamIndex }
        | other => other).setByIndex streamIndex block
    else s
  | none => s

/-- `ensureToolCallBlock`. -/
def ensureToolCallBlock (s : Loop Usage) (toolCall : ToolCallDelta) : ℕ × Loop Usage :=
  let (block, s) := match s.findToolCallBlock toolCall with
    | some block => (block, s)
    | none =>
      let block := s.output.content.length
      (block, ((s.registerBlock toolCall block).pushBlock (.toolCall (newToolCall toolCall))).push (.toolcallStart block))
  let s := s.adoptIndex toolCall block
  (block, match given toolCall.id with
    | some id => s.setById id block
    | none => s)

end Loop

/-! ### Deltas -/

/-- `REPETITIVE_STREAM_ERROR`. -/
def REPETITIVE_STREAM_ERROR : String := "Model entered a repetitive thinking loop; generation stopped."

section

variable (env : Env RawUsage Usage)

/-- `choice.delta.content`. The guard is asked after the block has grown. -/
def onContent (s : Loop Usage) (delta : String) : Except (Thrown × Loop Usage) (Loop Usage) :=
  let (block, s) := s.ensureTextBlock
  let s := s.updateBlock block fun
    | .text text => .text (text ++ delta)
    | other => other
  let s := { s with textRepetition := s.textRepetition ++ delta }
  if env.isRepetitiveStreamText s.textRepetition then .error (⟨REPETITIVE_STREAM_ERROR, none⟩, s)
  else .ok (s.push (.textDelta block delta))

/-- `foundReasoningField` with its value: the first of the three that is not empty. -/
def foundReasoning (delta : Delta) : Option (String × String) :=
  (((given delta.reasoningContent).map ("reasoning_content", ·)).or
    ((given delta.reasoning).map ("reasoning", ·))).or ((given delta.reasoningText).map ("reasoning_text", ·))

/-- `thinkingSignature`. -/
def thinkingSignature (field : String) : String :=
  if env.provider = "opencode-go" ∧ field = "reasoning" then "reasoning_content" else field

/-- A delta of the reasoning. -/
def onReasoning (s : Loop Usage) (field delta : String) : Except (Thrown × Loop Usage) (Loop Usage) :=
  let (block, s) := s.ensureThinkingBlock (thinkingSignature env field)
  let s := s.updateBlock block fun
    | .thinking thinking signature => .thinking (thinking ++ delta) signature
    | other => other
  let s := { s with thinkingRepetition := s.thinkingRepetition ++ delta }
  if env.isRepetitiveStreamText s.thinkingRepetition then .error (⟨REPETITIVE_STREAM_ERROR, none⟩, s)
  else .ok (s.push (.thinkingDelta block delta))

/-- `block.id = toolCall.id`, where the block has no id and the delta has one. -/
def fillId (s : Loop Usage) (block : ℕ) (toolCall : ToolCallDelta) : Loop Usage :=
  match given toolCall.id with
  | some id =>
    if (s.callAt block).any (·.id = "") then
      (s.updateBlock block fun
        | .toolCall call => .toolCall { call with id := id }
        | other => other).setById id block
    else s
  | none => s

/-- `block.name = toolCall.function.name`, where the block has no name and the delta has one. -/
def fillName (s : Loop Usage) (block : ℕ) (toolCall : ToolCallDelta) : Loop Usage :=
  match given toolCall.name with
  | some name =>
    s.updateBlock block fun
      | .toolCall call => .toolCall (if call.name = "" then { call with name := name } else call)
      | other => other
  | none => s

/-- The arguments grow by those of the delta. -/
def growArguments (s : Loop Usage) (block : ℕ) (toolCall : ToolCallDelta) : Loop Usage :=
  match given toolCall.arguments with
  | some delta =>
    s.updateBlock block fun
      | .toolCall call =>
        let partialArgs := call.partialArgs.getD "" ++ delta
        .toolCall { call with partialArgs := some partialArgs, arguments := env.parseStreamingJson partialArgs }
      | other => other
  | none => s

/-- A delta of a tool call. -/
def onToolCall (s : Loop Usage) (toolCall : ToolCallDelta) : Loop Usage :=
  let (block, s) := s.ensureToolCallBlock toolCall
  let s := growArguments env (fillName (fillId s block toolCall) block toolCall) block toolCall
  s.push (.toolcallDelta block ((given toolCall.arguments).getD ""))

/-- The first tool call with the id of an encrypted reasoning detail gets its signature. -/
def onReasoningDetail (s : Loop Usage) (detail : ReasoningDetail) : Loop Usage :=
  match given detail.id with
  | none => s
  | some id =>
    if detail.type = some "reasoning.encrypted" ∧ (given detail.data).isSome then
      let matching := s.output.content.findIdx fun
        | .toolCall call => call.id = id
        | _ => false
      s.updateBlock matching fun
        | .toolCall call => .toolCall { call with thoughtSignature := some (env.stringify detail) }
        | other => other
    else s

/-- The text of a delta, if there is some. -/
def readContent (s : Loop Usage) (delta : Delta) : Except (Thrown × Loop Usage) (Loop Usage) :=
  match given delta.content with
  | some content => onContent env s content
  | none => .ok s

/-- The reasoning of a delta, if there is some. -/
def readReasoning (s : Loop Usage) (delta : Delta) : Except (Thrown × Loop Usage) (Loop Usage) :=
  match foundReasoning delta with
  | some (field, text) => onReasoning env s field text
  | none => .ok s

/-- `choice.delta`. -/
def onDelta (s : Loop Usage) (delta : Delta) : Except (Thrown × Loop Usage) (Loop Usage) := do
  let s ← readContent env s delta
  let s ← readReasoning env s delta
  let s := delta.toolCalls.foldl (onToolCall env) s
  .ok (delta.reasoningDetails.foldl (onReasoningDetail env) s)

/-! ### Chunks and the end of the stream -/

/-- `a ||= b`. -/
def orAssign (a b : Option String) : Option String := if isSet a then a else b

/-- `mapStopReason` of a reason that is there. -/
def mapStopReason (reason : String) : StopReason × Option String :=
  if reason = "stop" ∨ reason = "end" then (.stop, none)
  else if reason = "length" then (.length, none)
  else if reason = "function_call" ∨ reason = "tool_calls" then (.toolUse, none)
  else (.error, some ("Provider finish_reason: " ++ reason))

/-- What a chunk says of the response. -/
def readChunk (output : Output Usage) (chunk : Chunk RawUsage) : Output Usage :=
  { output with
    responseId := orAssign output.responseId chunk.id
    systemFingerprint := match given chunk.systemFingerprint with
      | some fingerprint => orAssign output.systemFingerprint (some fingerprint)
      | none => output.systemFingerprint
    responseModel := match (given chunk.model).filter (· ≠ env.modelId) with
      | some model => orAssign output.responseModel (some model)
      | none => output.responseModel
    usage := match chunk.usage with
      | some usage => env.parseChunkUsage usage
      | none => output.usage }

/-- `choice.usage`, which some providers send instead. -/
def readChoiceUsage (output : Output Usage) (chunk : Chunk RawUsage) (choice : Choice RawUsage) : Output Usage :=
  match chunk.usage, choice.usage with
  | none, some usage => { output with usage := env.parseChunkUsage usage }
  | _, _ => output

/-- `choice.finish_reason`. -/
def readFinishReason (s : Loop Usage) (choice : Choice RawUsage) : Loop Usage :=
  match given choice.finishReason with
  | none => s
  | some reason =>
    let result := mapStopReason reason
    { s with
      hasFinishReason := true
      output := { s.output with stopReason := result.1, errorMessage := result.2.or s.output.errorMessage } }

/-- The body of the loop over the chunks. -/
def onChunk (s : Loop Usage) (chunk : Chunk RawUsage) : Except (Thrown × Loop Usage) (Loop Usage) :=
  let s := { s with output := readChunk env s.output chunk }
  match chunk.choice with
  | none => .ok s
  | some choice =>
    let s := readFinishReason { s with output := readChoiceUsage env s.output chunk choice } choice
    match choice.delta with
    | none => .ok s
    | some delta => onDelta env s delta

/-- What `finishBlock` makes of a block. -/
def finished : StreamingBlock → StreamingBlock
  | .toolCall call => .toolCall
    { call with
      arguments := env.parseStreamingJson (call.partialArgs.getD "")
      partialArgs := none
      streamIndex := none }
  | other => other

/-- The last event of a block. -/
def endEvent (contentIndex : ℕ) : StreamingBlock → Event Usage
  | .text text => .textEnd contentIndex text
  | .thinking thinking _ => .thinkingEnd contentIndex thinking
  | .toolCall call => .toolcallEnd contentIndex call

/-- `finishBlock`. -/
def finishBlock (s : Loop Usage) (contentIndex : ℕ) : Loop Usage :=
  match s.output.content[contentIndex]? with
  | none => s
  | some block => (s.updateBlock contentIndex (finished env)).push (endEvent contentIndex (finished env block))

/-- The loop that finishes the blocks. -/
def finishBlocks (s : Loop Usage) : Loop Usage := (List.range s.output.content.length).foldl (finishBlock env) s

/-- `hasOutput`. -/
def hasOutput (content : List StreamingBlock) : Bool :=
  content.any fun
    | .text text => text ≠ ""
    | .thinking thinking _ => thinking ≠ ""
    | .toolCall _ => true

/-- `/127\.0\.0\.1|localhost/.test(model.baseUrl ?? "")`. -/
def localHost : Bool :=
  "127.0.0.1".toList <:+: (env.baseUrl.getD "").toList || "localhost".toList <:+: (env.baseUrl.getD "").toList

/-- What is thrown after the last chunk, or the reason the stream is done for. -/
def verdict (s : Loop Usage) (aborted : Bool) : Except Thrown StopReason :=
  if aborted ∨ s.output.stopReason = .aborted then .error ⟨"Request was aborted", none⟩
  else if s.output.stopReason = .error then
    .error ⟨(given s.output.errorMessage).getD "Provider returned an error stop reason", none⟩
  else if s.hasFinishReason then .ok s.output.stopReason
  else if localHost env ∧ hasOutput s.output.content then .ok .stop
  else .error ⟨"Stream ended without finish_reason", none⟩

/-- A block without its scratch fields. -/
def stripped : StreamingBlock → StreamingBlock
  | .toolCall call => .toolCall { call with partialArgs := none, streamIndex := none }
  | other => other

/-- The `catch` of the function. -/
def fail (s : Loop Usage) (aborted : Bool) (e : Thrown) : Loop Usage :=
  let stopReason : StopReason := if aborted then .aborted else .error
  let errorMessage := e.message ++ ((given e.rawMetadata).map ("\n" ++ ·)).getD ""
  let output := { s.output with
    content := s.output.content.map stripped
    stopReason := stopReason
    errorMessage := some errorMessage }
  { s with output := output }.push (.error stopReason output)

/-- The loop before the first chunk. -/
def Loop.new (usage : Usage) : Loop Usage :=
  ⟨⟨[], usage, .stop, none, none, none, none⟩, none, none, false, "", "", .empty, .empty, [.start]⟩

/-- `streamOpenAICompletions` of chunks after which the stream throws or ends, where `aborted` is what
`options.signal` says then. -/
def streamOpenAICompletions (usage : Usage) (chunks : List (Chunk RawUsage)) (thrown : Option Thrown)
    (aborted : Bool) : Loop Usage :=
  match chunks.foldlM (onChunk env) (Loop.new usage) with
  | .error (e, s) => fail s aborted e
  | .ok s =>
    match thrown with
    | some e => fail s aborted e
    | none =>
      let s := finishBlocks env s
      match verdict env s aborted with
      | .error e => fail s aborted e
      | .ok reason =>
        let output := { s.output with stopReason := reason }
        { s with output := output }.push (.done reason output)

end

end Trek.Ai.Completions
