/-
# The agent loop

`runAgentLoop`, `runAgentLoopContinue` and `runLoop` of
`packages/agent/src/agent-loop.ts` over a script: turn after turn a response is
streamed and its tool calls are run, until there are no more calls and no queued
messages. A run may go on forever, so it is given a number of turns; `ended`
says that it ended within them. The calls of `onUpdate` that come after a tool
has settled go in between the events of the run, or after its last
(`observe`).
-/
import Trek.Agent.Batch

namespace Trek

/-! ### Steps and events -/

/-- `message_start` and `message_end` of a message. -/
def messageSteps (message : AgentMessage) : List Step :=
  [.event (.messageStart message), .event (.messageEnd message)]

/-- The events of a run. -/
def eventsOf (steps : List Step) : List AgentEvent :=
  steps.filterMap fun
    | .event e => some e
    | .settled _ => none

/-- The calls that have settled in a run. -/
def settledCalls (steps : List Step) : List ToolCall :=
  steps.filterMap fun
    | .event _ => none
    | .settled toolCall => some toolCall

/-- The updates that tools make late. Only a tool that has settled can be late. -/
def lateEvents (settled : List ToolCall) (late : List (ToolCall × AgentToolResult)) : List AgentEvent :=
  (late.filter (·.1 ∈ settled)).map fun (toolCall, r) => updateEvent toolCall r

/-- What a listener sees: the events, and between them the late updates. -/
def observe (late : ℕ → List (ToolCall × AgentToolResult)) : ℕ → List ToolCall → List Step → List AgentEvent
  | n, settled, [] => lateEvents settled (late n)
  | n, settled, .event e :: steps => lateEvents settled (late n) ++ e :: observe late (n + 1) settled steps
  | n, settled, .settled toolCall :: steps => observe late n (settled ++ [toolCall]) steps

/-! ### A response -/

/-- The end of `streamAssistantResponse`: the final message takes the place of
the streamed one, if there is one. -/
def finishResponse (result : AssistantMessage) (addedPartial : Bool) (messages : List AgentMessage) :
    List Step × List AgentMessage :=
  if addedPartial then ([.event (.messageEnd (.assistant result))], messages.dropLast ++ [AgentMessage.assistant result])
  else (messageSteps (.assistant result), messages ++ [AgentMessage.assistant result])

/-- The loop of `streamAssistantResponse` over the events of the response: the
steps, and the messages of the context after it. -/
def streamResponse (result : AssistantMessage) : Bool → List AgentMessage → List AssistantMessageEvent →
    List Step × List AgentMessage
  | addedPartial, messages, [] => finishResponse result addedPartial messages
  | _, messages, .start message :: events =>
    let rest := streamResponse result true (messages ++ [.assistant message]) events
    (.event (.messageStart (.assistant message)) :: rest.1, rest.2)
  | true, messages, .delta kind message :: events =>
    let rest := streamResponse result true (messages.dropLast ++ [.assistant message]) events
    (.event (.messageUpdate message kind) :: rest.1, rest.2)
  | false, messages, .delta _ _ :: events => streamResponse result false messages events
  | addedPartial, messages, .done :: _ => finishResponse result addedPartial messages
  | addedPartial, messages, .error :: _ => finishResponse result addedPartial messages

/-! ### The loop -/

/-- A run: its steps, the messages it adds, and whether it has ended. -/
structure Run where
  steps : List Step
  messages : List AgentMessage
  ended : Bool

section

variable (config : AgentLoopConfig) (script : RunScript)

/-- `runLoop`, from its `i`-th turn on, for at most the given number of turns. -/
def runLoop : ℕ → ℕ → Bool → AgentContext → List AgentMessage → List AgentMessage → ℕ → Run
  | 0, _, _, _, newMessages, _, _ => ⟨[], newMessages, false⟩
  | turns + 1, i, firstTurn, currentContext, newMessages, pendingMessages, checks =>
    let turn := script.turns i
    let message := turn.result
    let opening := (if firstTurn then [] else [.event .turnStart]) ++ pendingMessages.flatMap messageSteps
    let response := streamResponse message false (currentContext.messages ++ pendingMessages) turn.response
    let newMessages := newMessages ++ pendingMessages ++ [.assistant message]
    if message.stopReason = .error ∨ message.stopReason = .aborted then
      ⟨opening ++ response.1 ++ [.event (.turnEnd message []), .event (.agentEnd newMessages)], newMessages, true⟩
    else
      let toolCalls := message.toolCalls
      let batch : Batch :=
        if toolCalls.isEmpty then ⟨[], [], true, checks⟩
        else executeToolCalls config { currentContext with messages := response.2 } script.abortedFrom turn.calls
          turn.schedule checks toolCalls
      let toolResults := batch.messages
      let newMessages := newMessages ++ toolResults.map .toolResult
      let steps := opening ++ response.1 ++ batch.steps ++ [.event (.turnEnd message toolResults)]
      let currentContext :=
        turn.nextContext.getD { currentContext with messages := response.2 ++ toolResults.map .toolResult }
      let done : Run := ⟨steps ++ [.event (.agentEnd newMessages)], newMessages, true⟩
      let go (pendingMessages : List AgentMessage) : Run :=
        let rest := runLoop turns (i + 1) false currentContext newMessages pendingMessages batch.checks
        ⟨steps ++ rest.steps, rest.messages, rest.ended⟩
      let hasMoreToolCalls := !toolCalls.isEmpty && !batch.terminate
      if turn.shouldStop then done
      else if hasMoreToolCalls || !turn.steering.isEmpty then go turn.steering
      else if !turn.followUp.isEmpty then go turn.followUp
      else done

/-- `runAgentLoop`. -/
def runAgentLoop (turns : ℕ) (prompts : List AgentMessage) (context : AgentContext) : Run :=
  let rest := runLoop config script turns 0 true { context with messages := context.messages ++ prompts } prompts
    script.steering 0
  ⟨.event .agentStart :: .event .turnStart :: prompts.flatMap messageSteps ++ rest.steps, rest.messages, rest.ended⟩

/-- `runAgentLoopContinue`. -/
def runAgentLoopContinue (turns : ℕ) (context : AgentContext) : Except String Run :=
  match context.messages.getLast? with
  | none => .error "Cannot continue: no messages in context"
  | some (.assistant _) =>
    .error "Cannot continue: the last message is from the assistant with no queued follow-up. Send a new prompt to continue."
  | some _ =>
    let rest := runLoop config script turns 0 true context [] script.steering 0
    .ok ⟨.event .agentStart :: .event .turnStart :: rest.steps, rest.messages, rest.ended⟩

/-- The events of a run as they are seen. -/
def Run.trace (run : Run) : List AgentEvent := observe script.late 0 [] run.steps

end

end Trek
