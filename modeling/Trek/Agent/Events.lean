/-
# Events and scripts of the agent loop

The events of `packages/agent/src/types.ts`, and what the loop meets from
outside in a run: the streamed responses, the outcomes of the tools and of the
hooks, the queued messages, the moment of an abort, and the order in which
concurrent tools go on. These are a script that the loop reads, so every run is
the run of a script.
-/
import Trek.Messages

namespace Trek

/-! ### Tools -/

/-- `AgentToolResult`. -/
structure AgentToolResult where
  content : List ContentBlock
  details : Option Json
  terminate : Option Bool
  deriving DecidableEq

/-- `ToolExecutionMode`. -/
inductive ToolExecutionMode
  | sequential | parallel
  deriving DecidableEq

/-- What the loop itself reads of an `AgentTool`. -/
structure AgentTool where
  name : String
  executionMode : Option ToolExecutionMode
  deriving DecidableEq

/-- `AgentContext`. No tools at all are `[]`. -/
structure AgentContext where
  messages : List AgentMessage
  tools : List AgentTool
  deriving DecidableEq

/-- `currentContext.tools?.find((t) => t.name === name)`. -/
def AgentContext.tool? (context : AgentContext) (name : String) : Option AgentTool :=
  context.tools.find? (·.name = name)

/-- `BeforeToolCallResult`. -/
structure BeforeToolCallResult where
  block : Bool
  reason : Option String
  terminate : Option Bool
  isError : Option Bool

/-- `AfterToolCallResult`. -/
structure AfterToolCallResult where
  content : Option (List ContentBlock)
  details : Option Json
  terminate : Option Bool
  isError : Option Bool

/-- The parts of `AgentLoopConfig` that decide how tool calls run; of the hooks
whether they are there. -/
structure AgentLoopConfig where
  toolExecution : Option ToolExecutionMode
  partitionToolCalls : Option (List ToolCall → List (List ToolCall))
  beforeToolCall : Bool
  afterToolCall : Bool

/-- `QueueMode`. -/
inductive QueueMode
  | all | oneAtATime
  deriving DecidableEq

/-! ### Events -/

/-- The events of a response between its start and its end. -/
inductive DeltaKind
  | textStart | textDelta | textEnd | thinkingStart | thinkingDelta | thinkingEnd
  | toolcallStart | toolcallDelta | toolcallEnd
  deriving DecidableEq

/-- `AssistantMessageEvent`, with the message as far as it is streamed. -/
inductive AssistantMessageEvent
  | start (message : AssistantMessage)
  | delta (kind : DeltaKind) (message : AssistantMessage)
  | done
  | error

/-- `AgentEvent`. -/
inductive AgentEvent
  | agentStart
  | agentEnd (messages : List AgentMessage)
  | turnStart
  | turnEnd (message : AssistantMessage) (toolResults : List ToolResultMessage)
  | messageStart (message : AgentMessage)
  | messageUpdate (message : AssistantMessage) (kind : DeltaKind)
  | messageEnd (message : AgentMessage)
  | toolExecutionStart (toolCallId toolName : String) (args : Json)
  | toolExecutionUpdate (toolCallId toolName : String) (args : Json) (partialResult : AgentToolResult)
  | toolExecutionEnd (toolCallId toolName : String) (result : AgentToolResult) (isError : Bool)
  deriving DecidableEq

/-! ### Scripts -/

/-- What happens around one tool call. What throws is the text of its error. -/
structure CallScript where
  /-- `prepareToolCallArguments` and `validateToolArguments` -/
  arguments : Except String Json
  /-- `config.beforeToolCall` -/
  before : Except String (Option BeforeToolCallResult)
  /-- the calls of `onUpdate` before `tool.execute` settles -/
  updates : List AgentToolResult
  /-- `tool.execute` -/
  execute : Except String AgentToolResult
  /-- `config.afterToolCall` -/
  after : Except String (Option AfterToolCallResult)
  /-- `Date.now()` when the result message is made -/
  timestamp : ℤ

/-- What happens in one turn: the response and its final message, the tool
calls in the order of their starts, the order in which the calls of each group
go on, the context `prepareNextTurn` returns, whether `shouldStopAfterTurn`
says so, and the messages that are queued afterwards. -/
structure TurnScript where
  response : List AssistantMessageEvent
  result : AssistantMessage
  calls : ℕ → CallScript
  schedule : ℕ → List ℕ
  nextContext : Option AgentContext
  shouldStop : Bool
  steering : List AgentMessage
  followUp : List AgentMessage

/-- What happens in a run. The signal is aborted from the check with the number
`abortedFrom` on. `late n` are calls of `onUpdate` between the `n`-th event and
the next that tools make after `execute` has settled. -/
structure RunScript where
  steering : List AgentMessage
  turns : ℕ → TurnScript
  abortedFrom : Option ℕ
  late : ℕ → List (ToolCall × AgentToolResult)

/-- `signal?.aborted` at a check. -/
def aborted (abortedFrom : Option ℕ) (check : ℕ) : Bool := abortedFrom.any (· ≤ check)

end Trek
