/-
# The messages of the Responses API

`providers/openai-responses-shared.ts`, both ways: `processResponsesStream` puts the output items of a response together to
an assistant message, and `convertResponsesMessages` turns a history into the items of the next request. What an item is
known by has no field in a message of ours, so the reader packs it into strings (the two ids of a call are joined, the id
and the phase of a message are a JSON text, a reasoning item is kept as it came) and the converter takes it out again.
-/
import Mathlib.Data.Nat.Digits.Defs
import Trek.Ai.JsonCodec
import Trek.Ai.RepairJson
import Trek.Ai.TransformMessages

namespace Trek.Ai.Responses

open JsonCodec (NumberText)

/-! ### Texts -/

/-- `sanitizeSurrogates` on the code units of a text; the unit before them is given. -/
def sanitizeUnits (before : Option ℕ) : List ℕ → List ℕ
  | [] => []
  | unit :: rest =>
    let unpaired := (isHighSurrogate unit && !rest.head?.any isLowSurrogate) ||
      (isLowSurrogate unit && !before.any isHighSurrogate)
    if unpaired then sanitizeUnits (some unit) rest else unit :: sanitizeUnits (some unit) rest

/-- `sanitizeSurrogates`. -/
def sanitizeSurrogates (text : String) : String :=
  String.ofList (utf16ToString (sanitizeUnits none (utf16 text.toList)))

/-- `n.toString(36)`. -/
def toString36 (n : ℕ) : String :=
  if n = 0 then "0"
  else String.ofList ((Nat.digits 36 n).reverse.map fun d => "0123456789abcdefghijklmnopqrstuvwxyz".toList.getD d '0')

/-- `shortHash`. Its numbers are read modulo `2 ^ 32` wherever they are used. -/
def shortHash (str : String) : String :=
  let (h1, h2) := (utf16 str.toList).foldl (fun (h : UInt32 × UInt32) ch =>
    ((h.1 ^^^ UInt32.ofNat ch) * 2654435761, (h.2 ^^^ UInt32.ofNat ch) * 1597334677)) (0xdeadbeef, 0x41c6ce57)
  let h1 : UInt32 := ((h1 ^^^ (h1 >>> 16)) * (2246822507 : UInt32)) ^^^ ((h2 ^^^ (h2 >>> 13)) * (3266489909 : UInt32))
  let h2 : UInt32 := ((h2 ^^^ (h2 >>> 16)) * (2246822507 : UInt32)) ^^^ ((h1 ^^^ (h1 >>> 13)) * (3266489909 : UInt32))
  toString36 h2.toNat ++ toString36 h1.toNat

/-- `text.startsWith(start)`. -/
def startsWith (start text : String) : Bool := start.toList.isPrefixOf text.toList

/-- `text.split("|")`. -/
def splitBar (text : String) : List String := (text.toList.splitOn '|').map String.ofList

/-- `normalizeIdPart`. -/
def normalizeIdPart (part : String) : String :=
  let sanitized := (utf16 part.toList).map fun unit =>
    let c := Char.ofNat unit
    if isAlnum c || c = '_' || c = '-' then c else '_'
  let normalized := if 64 < sanitized.length then sanitized.take 64 else sanitized
  String.ofList ((normalized.reverse.dropWhile (· = '_')).reverse)

/-- `buildForeignResponsesItemId`. -/
def buildForeignResponsesItemId (itemId : String) : String :=
  let normalized := "fc_" ++ shortHash itemId
  if 64 < jsLength normalized then String.ofList (normalized.toList.take 64) else normalized

/-! ### What a message is known by -/

/-- `TextSignatureV1["phase"]`. -/
inductive Phase
  | commentary | finalAnswer
  deriving DecidableEq

def Phase.text : Phase → String
  | .commentary => "commentary"
  | .finalAnswer => "final_answer"

/-- `TextSignatureV1`. -/
structure TextSignature where
  id : String
  phase : Option Phase
  deriving DecidableEq

section

variable (N : NumberText)

/-- `encodeTextSignatureV1`. -/
def encodeTextSignatureV1 (id : String) (phase : Option Phase) : String :=
  let payload : List (String × Json) := [("v", .num 1), ("id", .str id)]
  JsonCodec.stringify N (.obj (match phase with
    | some phase => payload ++ [("phase", .str phase.text)]
    | none => payload))

/-- What `parseTextSignature` reads of an object. -/
def readTextSignature (parsed : Json) : Option TextSignature :=
  match parsed.get? "v", parsed.get? "id" with
  | some (.num 1), some (.str id) =>
    if parsed.get? "phase" = some (.str "commentary") then some ⟨id, some .commentary⟩
    else if parsed.get? "phase" = some (.str "final_answer") then some ⟨id, some .finalAnswer⟩
    else some ⟨id, none⟩
  | _, _ => none

/-- `parseTextSignature`. -/
def parseTextSignature (signature : Option String) : Option TextSignature :=
  match signature with
  | none => none
  | some signature =>
    if signature = "" then none
    else
      let read := if startsWith "\x7b" signature then (JsonCodec.parse N signature).bind readTextSignature else none
      some (read.getD ⟨signature, none⟩)

/-! ### Message conversion -/

/-- The fields of a `Model` that are read. -/
structure ResponsesModel extends Model where
  reasoning : Bool
  deriving DecidableEq

/-- `ResponseInputText | ResponseInputImage`; the detail of an image is `auto`. -/
inductive InputContent
  | inputText (text : String)
  | inputImage (imageUrl : String)
  deriving DecidableEq

/-- `string | ResponseFunctionCallOutputItemList`. -/
inductive CallOutput
  | text (text : String)
  | parts (parts : List InputContent)
  deriving DecidableEq

/-- An item of `ResponseInput`. A message has one `output_text` without annotations and is completed. -/
inductive InputItem
  | instruction (role content : String)
  | user (content : List InputContent)
  | reasoning (item : Json)
  | message (text id : String) (phase : Option Phase)
  | functionCall (id : Option String) (callId name arguments : String)
  | functionCallOutput (callId : String) (output : CallOutput)
  deriving DecidableEq

variable (model : ResponsesModel)

/-- `normalizeToolCallId`. -/
def normalizeToolCallId (allowedToolCallProviders : List String) : Normalizer := fun id _ source =>
  if !allowedToolCallProviders.contains model.provider then normalizeIdPart id
  else if !id.toList.contains '|' then normalizeIdPart id
  else
    let parts := splitBar id
    let itemId := parts.getD 1 ""
    let normalizedCallId := normalizeIdPart (parts.getD 0 "")
    let isForeignToolCall := source.provider ≠ model.provider || source.api ≠ model.api
    let normalizedItemId := if isForeignToolCall then buildForeignResponsesItemId itemId else normalizeIdPart itemId
    let normalizedItemId :=
      if !startsWith "fc_" normalizedItemId then normalizeIdPart ("fc_" ++ normalizedItemId) else normalizedItemId
    normalizedCallId ++ "|" ++ normalizedItemId

/-- The URL of an image. -/
def imageUrl (mimeType data : String) : String := "data:" ++ mimeType ++ ";base64," ++ data

/-- The item of a user message; none where it has no content. -/
def convertUser : UserContent → Option InputItem
  | .text text => some (.user [.inputText (sanitizeSurrogates text)])
  | .blocks blocks =>
    let content := blocks.map fun
      | .text block => .inputText (sanitizeSurrogates block.text)
      | .image data mimeType => .inputImage (imageUrl mimeType data)
    if content.length = 0 then none else some (.user content)

/-- The item of a text block, the `textBlockIndex`-th one of its message. -/
def convertText (msgIndex textBlockIndex : ℕ) (block : TextContent) : InputItem :=
  let parsedSignature := parseTextSignature N block.textSignature
  let fallbackMessageId :=
    if textBlockIndex = 0 then "msg_pi_" ++ toString msgIndex
    else "msg_pi_" ++ toString msgIndex ++ "_" ++ toString textBlockIndex
  let msgId := match parsedSignature with
    | none => fallbackMessageId
    | some signature =>
      if signature.id = "" then fallbackMessageId
      else if 64 < jsLength signature.id then "msg_" ++ shortHash signature.id
      else signature.id
  .message (sanitizeSurrogates block.text) msgId (parsedSignature.bind (·.phase))

/-- The item of a call. -/
def convertCall (isDifferentModel : Bool) (toolCall : ToolCall) : InputItem :=
  let parts := splitBar toolCall.id
  let itemIdRaw := parts[1]?
  let itemId := if isDifferentModel && itemIdRaw.any (startsWith "fc_") then none else itemIdRaw
  .functionCall itemId (parts.getD 0 "") toolCall.name (JsonCodec.stringify N toolCall.arguments)

/-- The items of the blocks of a message; none where a reasoning item cannot be read. -/
def convertBlocks (isDifferentModel : Bool) (msgIndex : ℕ) : (textBlockIndex : ℕ) → List AssistantBlock →
    Option (List InputItem)
  | _, [] => some []
  | k, .thinking block :: content =>
    match block.thinkingSignature.filter (· ≠ "") with
    | none => convertBlocks isDifferentModel msgIndex k content
    | some signature =>
      (JsonCodec.parse N signature).bind fun reasoningItem =>
        (convertBlocks isDifferentModel msgIndex k content).map (.reasoning reasoningItem :: ·)
  | k, .text block :: content =>
    (convertBlocks isDifferentModel msgIndex (k + 1) content).map (convertText N msgIndex k block :: ·)
  | k, .toolCall toolCall :: content =>
    (convertBlocks isDifferentModel msgIndex k content).map (convertCall N isDifferentModel toolCall :: ·)

/-- The items of an assistant message. -/
def convertAssistant (msgIndex : ℕ) (m : AssistantMessage) : Option (List InputItem) :=
  let isDifferentModel := m.model ≠ model.id && m.provider = model.provider && m.api = model.api
  convertBlocks N isDifferentModel msgIndex 0 m.content

/-- The item of a tool result. -/
def convertResult (m : ToolResultMessage) : InputItem :=
  let texts := m.content.filterMap fun
    | .text block => some block.text
    | .image _ _ => none
  let images := m.content.filterMap fun
    | .text _ => none
    | .image data mimeType => some (InputContent.inputImage (imageUrl mimeType data))
  let textResult := String.intercalate "\n" texts
  let hasText := textResult ≠ ""
  let output :=
    if images ≠ [] && model.input.contains "image" then
      .parts ((if hasText then [InputContent.inputText (sanitizeSurrogates textResult)] else []) ++ images)
    else .text (sanitizeSurrogates (if hasText then textResult else "(see attached image)"))
  .functionCallOutput ((splitBar m.toolCallId).getD 0 "") output

/-- The loop over the messages. A message that gives no item is not counted. -/
def convertFrom (msgIndex : ℕ) : List Message → Option (List InputItem)
  | [] => some []
  | .user content _ :: messages =>
    match convertUser content with
    | none => convertFrom msgIndex messages
    | some item => (convertFrom (msgIndex + 1) messages).map (item :: ·)
  | .assistant m :: messages =>
    (convertAssistant N model msgIndex m).bind fun output =>
      if output.length = 0 then convertFrom msgIndex messages
      else (convertFrom (msgIndex + 1) messages).map (output ++ ·)
  | .toolResult m :: messages => (convertFrom (msgIndex + 1) messages).map (convertResult model m :: ·)

/-- `Context`, without the tools. -/
structure Context where
  systemPrompt : Option String
  messages : List Message

/-- The item of the system prompt. -/
def convertPrompt (includeSystemPrompt : Option Bool) (systemPrompt : Option String) : List InputItem :=
  match systemPrompt.filter (· ≠ "") with
  | some systemPrompt =>
    if includeSystemPrompt.getD true then
      [.instruction (if model.reasoning then "developer" else "system") (sanitizeSurrogates systemPrompt)]
    else []
  | none => []

/-- `convertResponsesMessages`; none where it throws. -/
def convertResponsesMessages (now : ℕ → ℤ) (context : Context) (allowedToolCallProviders : List String)
    (includeSystemPrompt : Option Bool) : Option (List InputItem) :=
  let transformedMessages :=
    transformMessages now context.messages model.toModel (some (normalizeToolCallId model allowedToolCallProviders))
  (convertFrom N model 0 transformedMessages).map (convertPrompt model includeSystemPrompt context.systemPrompt ++ ·)

end

/-! ### Items and events -/

/-- A part of the content of a message. -/
inductive ContentPart
  | outputText (text : String)
  | refusal (refusal : String)
  deriving DecidableEq

/-- `c.type === "output_text" ? c.text : c.refusal`. -/
def ContentPart.text : ContentPart → String
  | .outputText s => s
  | .refusal s => s

/-- `ResponseOutputItem`. A reasoning item is kept whole; absent arguments are empty. -/
inductive OutputItem
  | reasoning (item : Json)
  | message (id : String) (phase : Option Phase) (content : List ContentPart)
  | functionCall (id : Option String) (callId name arguments : String)
  | other
  deriving DecidableEq

/-- `response.usage`. The cached tokens are among those of the input. -/
structure ResponseUsage where
  inputTokens : ℕ
  cachedTokens : ℕ
  outputTokens : ℕ
  totalTokens : ℕ
  cached_le : cachedTokens ≤ inputTokens
  deriving DecidableEq

/-- `ResponseStatus`. -/
inductive ResponseStatus
  | completed | failed | inProgress | cancelled | queued | incomplete
  deriving DecidableEq

/-- What is read of a completed `Response`. -/
structure Response where
  id : Option String
  usage : Option ResponseUsage
  status : Option ResponseStatus
  deriving DecidableEq

/-- `ResponseStreamEvent`. -/
inductive Event
  | created (responseId : String)
  | itemAdded (item : OutputItem)
  | summaryPartAdded (text : String)
  | summaryTextDelta (delta : String)
  | summaryPartDone
  | reasoningTextDelta (delta : String)
  | contentPartAdded (part : Option ContentPart)
  | outputTextDelta (delta : String)
  | refusalDelta (delta : String)
  | argumentsDelta (delta : String)
  | argumentsDone (arguments : String)
  | itemDone (item : OutputItem)
  | completed (response : Option Response)
  | error (code : Option String) (message : String)
  | failed (error : Option (Option String × Option String)) (incompleteReason : Option String)
  | other
  deriving DecidableEq

/-- `mapStopReason`. -/
def mapStopReason : Option ResponseStatus → StopReason
  | none | some .completed | some .inProgress | some .queued => .stop
  | some .incomplete => .length
  | some .failed | some .cancelled => .error

/-! ### Stream processing -/

/-- `AssistantMessageEvent`, without the message itself. -/
inductive Pushed
  | thinkingStart (contentIndex : ℤ)
  | thinkingDelta (contentIndex : ℤ) (delta : String)
  | thinkingEnd (contentIndex : ℤ) (content : String)
  | textStart (contentIndex : ℤ)
  | textDelta (contentIndex : ℤ) (delta : String)
  | textEnd (contentIndex : ℤ) (content : String)
  | toolcallStart (contentIndex : ℤ)
  | toolcallDelta (contentIndex : ℤ) (delta : String)
  | toolcallEnd (contentIndex : ℤ) (toolCall : ToolCall)
  deriving DecidableEq

/-- `currentItem`, with the parts that are added to it. -/
inductive CurrentItem
  | reasoning (summary : List String)
  | message (content : List ContentPart)
  | functionCall
  deriving DecidableEq

/-- `currentBlock`. -/
inductive CurrentBlock
  | thinking (block : ThinkingContent)
  | text (block : TextContent)
  | toolCall (call : ToolCall) (partialJson : String)
  deriving DecidableEq

/-- The block, without what it is put together in. -/
def CurrentBlock.block : CurrentBlock → AssistantBlock
  | .thinking block => .thinking block
  | .text block => .text block
  | .toolCall call _ => .toolCall call

/-- The variables of the loop. The current block is the last one of `output.content`; `content` has those before it. -/
structure Loop where
  content : List AssistantBlock
  currentItem : Option CurrentItem
  currentBlock : Option CurrentBlock
  responseId : Option String
  usage : Usage
  stopReason : StopReason
  pushed : List Pushed
  deriving DecidableEq

namespace Loop

/-- `output.content`. -/
def blocks (s : Loop) : List AssistantBlock := s.content ++ (s.currentBlock.map CurrentBlock.block).toList

/-- `blockIndex()`. -/
def blockIndex (s : Loop) : ℤ := s.blocks.length - 1

/-- `stream.push(event)`. -/
def push (s : Loop) (event : ℤ → Pushed) : Loop := { s with pushed := s.pushed ++ [event s.blockIndex] }

/-- `output.content.push(currentBlock)`. -/
def openBlock (s : Loop) (item : CurrentItem) (block : CurrentBlock) : Loop :=
  { s with content := s.blocks, currentItem := some item, currentBlock := some block }

/-- `currentBlock = null`, with the last values of the block. -/
def closeBlock (s : Loop) (block : CurrentBlock) : Loop :=
  { s with content := s.content ++ [block.block], currentBlock := none }

end Loop

/-- `item[key]?.map((s) => s.text)`. A text that is missing is joined as an empty one. -/
def partTexts (key : String) (item : Json) : List String :=
  match item.get? key with
  | some (.arr parts) => parts.map fun part =>
    match part.get? "text" with
    | some (.str text) => text
    | _ => ""
  | _ => []

/-- `item[key]?.map((s) => s.text).join("\n\n")`. -/
def joinTexts (key : String) (item : Json) : String := String.intercalate "\n\n" (partTexts key item)

/-- `part.text += delta`. -/
def ContentPart.append (part : ContentPart) (delta : String) : ContentPart :=
  match part with
  | .outputText s => .outputText (s ++ delta)
  | .refusal s => .refusal (s ++ delta)

section

variable (N : NumberText) (partialParse : String → Option Json)

/-- `repairJson`. -/
def repairText (json : String) : String := String.ofList (utf16ToString (repairJson (utf16 json.toList)))

/-- `parseJsonWithRepair`; none where it throws. -/
def parseJsonWithRepair (json : String) : Option Json :=
  match JsonCodec.parse N json with
  | some value => some value
  | none => if repairText json ≠ json then JsonCodec.parse N (repairText json) else none

/-- `result ?? {}`. -/
def orEmpty (result : Json) : Json := if result = .null then .obj [] else result

/-- `parseStreamingJson`. `partialParse` is the parser of `partial-json`, none where it throws. -/
def parseStreamingJson (partialJson : String) : Json :=
  if partialJson = "" ∨ jsTrim partialJson = "" then .obj []
  else
    match parseJsonWithRepair N partialJson with
    | some value => value
    | none =>
      match partialParse partialJson with
      | some result => orEmpty result
      | none =>
        match partialParse (repairText partialJson) with
        | some result => orEmpty result
        | none => .obj []

/-- `${item.call_id}|${item.id}`. -/
def joinIds (callId : String) (id : Option String) : String := callId ++ "|" ++ id.getD "undefined"

/-- `response.output_item.added`. -/
def onItemAdded (s : Loop) : OutputItem → Loop
  | .reasoning item =>
    (s.openBlock (.reasoning (partTexts "summary" item)) (.thinking ⟨"", none, none⟩)).push .thinkingStart
  | .message _ _ content => (s.openBlock (.message content) (.text ⟨"", none⟩)).push .textStart
  | .functionCall id callId name arguments =>
    (s.openBlock .functionCall (.toolCall ⟨joinIds callId id, name, .obj [], none⟩ arguments)).push .toolcallStart
  | .other => s

/-- A delta of the thinking, which also goes to the last part of the summary if it is one of that. -/
def onThinkingDelta (s : Loop) (delta : String) (ofSummary : Bool) : Loop :=
  match s.currentItem, s.currentBlock with
  | some (.reasoning summary), some (.thinking block) =>
    if ofSummary && summary = [] then s
    else
      ({ s with
          currentItem := some (.reasoning (if ofSummary then summary.modifyLast (· ++ delta) else summary))
          currentBlock := some (.thinking { block with thinking := block.thinking ++ delta }) } : Loop).push
        (.thinkingDelta · delta)
  | _, _ => s

/-- A delta of the text, for a last part of its kind. -/
def onTextDelta (s : Loop) (delta : String) (ofKind : ContentPart → Bool) : Loop :=
  match s.currentItem, s.currentBlock with
  | some (.message content), some (.text block) =>
    if content.getLast?.any ofKind then
      ({ s with
          currentItem := some (.message (content.modifyLast (·.append delta)))
          currentBlock := some (.text { block with text := block.text ++ delta }) } : Loop).push (.textDelta · delta)
    else s
  | _, _ => s

/-- `response.function_call_arguments.delta`. -/
def onArgumentsDelta (s : Loop) (delta : String) : Loop :=
  match s.currentItem, s.currentBlock with
  | some .functionCall, some (.toolCall call partialJson) =>
    let partialJson := partialJson ++ delta
    ({ s with
        currentBlock :=
          some (.toolCall { call with arguments := parseStreamingJson N partialParse partialJson } partialJson) } : Loop).push
      (.toolcallDelta · delta)
  | _, _ => s

/-- `response.function_call_arguments.done`. -/
def onArgumentsDone (s : Loop) (arguments : String) : Loop :=
  match s.currentItem, s.currentBlock with
  | some .functionCall, some (.toolCall call previousPartialJson) =>
    let s : Loop := { s with
      currentBlock := some (.toolCall { call with arguments := parseStreamingJson N partialParse arguments } arguments) }
    let delta := String.ofList (arguments.toList.drop previousPartialJson.toList.length)
    if startsWith previousPartialJson arguments ∧ delta ≠ "" then s.push (.toolcallDelta · delta) else s
  | _, _ => s

/-- `response.output_item.done`. -/
def onItemDone (s : Loop) : OutputItem → Loop
  | .reasoning item =>
    match s.currentBlock with
    | some (.thinking block) =>
      let summaryText := joinTexts "summary" item
      let contentText := joinTexts "content" item
      let thinking :=
        if summaryText ≠ "" then summaryText else if contentText ≠ "" then contentText else block.thinking
      (s.closeBlock (.thinking { block with thinking, thinkingSignature := some (JsonCodec.stringify N item) })).push
        (.thinkingEnd · thinking)
    | _ => s
  | .message id phase content =>
    match s.currentBlock with
    | some (.text _) =>
      let text := String.join (content.map ContentPart.text)
      (s.closeBlock (.text ⟨text, some (encodeTextSignatureV1 N id phase)⟩)).push (.textEnd · text)
    | _ => s
  | .functionCall id callId name arguments =>
    let arguments := if arguments = "" then "{}" else arguments
    match s.currentBlock with
    | some (.toolCall call partialJson) =>
      let args := parseStreamingJson N partialParse (if partialJson ≠ "" then partialJson else arguments)
      let call := { call with arguments := args }
      (s.closeBlock (.toolCall call partialJson)).push (.toolcallEnd · call)
    | _ =>
      let call : ToolCall := ⟨joinIds callId id, name, parseStreamingJson N partialParse arguments, none⟩
      ({ s with content := s.blocks, currentBlock := none } : Loop).push (.toolcallEnd · call)
  | .other => s

/-- `response.completed`. The costs are left out, with the service tier that only they depend on. -/
def onCompleted (s : Loop) (response : Option Response) : Loop :=
  let responseId := ((response.bind (·.id)).filter (· ≠ "")).or s.responseId
  let usage := match response.bind (·.usage) with
    | some usage =>
      ⟨usage.inputTokens - usage.cachedTokens, usage.outputTokens, usage.cachedTokens, 0, usage.totalTokens⟩
    | none => s.usage
  let stopReason := mapStopReason (response.bind (·.status))
  let stopReason :=
    if s.blocks.any (·.call?.isSome) ∧ stopReason = .stop then .toolUse else stopReason
  { s with responseId, usage, stopReason }

/-- The body of the loop. -/
def onEvent (s : Loop) : Event → Except String Loop
  | .created responseId => .ok { s with responseId := some responseId }
  | .itemAdded item => .ok (onItemAdded s item)
  | .summaryPartAdded text =>
    match s.currentItem with
    | some (.reasoning summary) => .ok { s with currentItem := some (.reasoning (summary ++ [text])) }
    | _ => .ok s
  | .summaryTextDelta delta => .ok (onThinkingDelta s delta true)
  | .summaryPartDone => .ok (onThinkingDelta s "\n\n" true)
  | .reasoningTextDelta delta => .ok (onThinkingDelta s delta false)
  | .contentPartAdded part =>
    match s.currentItem with
    | some (.message content) => .ok { s with currentItem := some (.message (content ++ part.toList)) }
    | _ => .ok s
  | .outputTextDelta delta => .ok (onTextDelta s delta fun | .outputText _ => true | .refusal _ => false)
  | .refusalDelta delta => .ok (onTextDelta s delta fun | .outputText _ => false | .refusal _ => true)
  | .argumentsDelta delta => .ok (onArgumentsDelta N partialParse s delta)
  | .argumentsDone arguments => .ok (onArgumentsDone N partialParse s arguments)
  | .itemDone item => .ok (onItemDone N partialParse s item)
  | .completed response => .ok (onCompleted s response)
  | .error code message => .error ("Error Code " ++ code.getD "null" ++ ": " ++ message)
  | .failed error incompleteReason =>
    .error (match error with
      | some (code, message) =>
        (code.filter (· ≠ "")).getD "unknown" ++ ": " ++ (message.filter (· ≠ "")).getD "no message"
      | none =>
        match incompleteReason.filter (· ≠ "") with
        | some reason => "incomplete: " ++ reason
        | none => "Unknown error (no error details in response)")
  | .other => .ok s

/-- `processResponsesStream`: the message, and the events that are pushed. -/
def processResponsesStream (events : List Event) (output : AssistantMessage) :
    Except String (AssistantMessage × List Pushed) :=
  (events.foldlM (onEvent N partialParse)
    ⟨output.content, none, none, output.responseId, output.usage, output.stopReason, []⟩).map fun s =>
    ({ output with content := s.blocks, responseId := s.responseId, usage := s.usage, stopReason := s.stopReason },
      s.pushed)

end

end Trek.Ai.Responses
