/-
# Running the tool calls of a message

`executeToolCalls` of `packages/agent/src/agent-loop.ts`: one call after the
other, all calls at once, or groups of calls one group after the other. A batch
emits events, makes a result message for each call it started, and decides
whether the agent stops after it.
-/
import Trek.Agent.Events
import Trek.Lib.Interleave

namespace Trek

/-! ### One call -/

/-- A step of a run: an event, or the moment at which `execute` of a call settles. -/
inductive Step
  | event (e : AgentEvent)
  | settled (call : ToolCall)
  deriving DecidableEq

/-- `FinalizedToolCallOutcome`. -/
structure FinalizedToolCallOutcome where
  toolCall : ToolCall
  result : AgentToolResult
  isError : Bool
  deriving DecidableEq

/-- What `prepareToolCall` returns. -/
inductive Preparation
  | immediate (result : AgentToolResult) (isError : Bool)
  | prepared
  deriving DecidableEq

/-- `createErrorToolResult`. -/
def createErrorToolResult (message : String) : AgentToolResult := ⟨[.text message], some (.obj []), none⟩

section

variable (config : AgentLoopConfig) (context : AgentContext) (abortedFrom : Option ℕ)

/-- `prepareToolCall`, and the number of checks of the signal so far. -/
def prepareToolCall (script : CallScript) (toolCall : ToolCall) (checks : ℕ) : Preparation × ℕ :=
  let operationAborted := Preparation.immediate (createErrorToolResult "Operation aborted") true
  let lastCheck (checks : ℕ) := (if aborted abortedFrom checks then operationAborted else .prepared, checks + 1)
  match context.tool? toolCall.name, script.arguments with
  | none, _ => (.immediate (createErrorToolResult s!"Tool {toolCall.name} not found") true, checks)
  | some _, .error message => (.immediate (createErrorToolResult message) true, checks)
  | some _, .ok _ =>
    if config.beforeToolCall then
      match script.before with
      | .error message => (.immediate (createErrorToolResult message) true, checks)
      | .ok beforeResult =>
        if aborted abortedFrom checks then (operationAborted, checks + 1)
        else
          match beforeResult with
          | some r =>
            if r.block then
              let reason := (r.reason.filter (· ≠ "")).getD "Tool execution was blocked"
              (.immediate { createErrorToolResult reason with terminate := r.terminate } (r.isError.getD true),
                checks + 1)
            else lastCheck (checks + 1)
          | none => lastCheck (checks + 1)
    else lastCheck checks

/-- `tool_execution_start` of a call. -/
def startEvent (toolCall : ToolCall) : AgentEvent :=
  .toolExecutionStart toolCall.id toolCall.name toolCall.arguments

/-- `tool_execution_update` of a call. -/
def updateEvent (toolCall : ToolCall) (partialResult : AgentToolResult) : AgentEvent :=
  .toolExecutionUpdate toolCall.id toolCall.name toolCall.arguments partialResult

/-- `emitToolExecutionEnd`. -/
def endEvent (finalized : FinalizedToolCallOutcome) : AgentEvent :=
  .toolExecutionEnd finalized.toolCall.id finalized.toolCall.name finalized.result finalized.isError

/-- `executePreparedToolCall`: its steps, and the outcome. -/
def executePreparedToolCall (script : CallScript) (toolCall : ToolCall) : List Step × AgentToolResult × Bool :=
  (script.updates.map (fun r => .event (updateEvent toolCall r)) ++ [.settled toolCall],
    match script.execute with
    | .ok result => (result, false)
    | .error message => (createErrorToolResult message, true))

/-- `finalizeExecutedToolCall`. -/
def finalizeExecutedToolCall (script : CallScript) (toolCall : ToolCall) (executed : AgentToolResult × Bool) :
    FinalizedToolCallOutcome :=
  let (result, isError) := executed
  if config.afterToolCall then
    match script.after with
    | .error message => ⟨toolCall, createErrorToolResult message, true⟩
    | .ok none => ⟨toolCall, result, isError⟩
    | .ok (some r) =>
      ⟨toolCall, ⟨r.content.getD result.content, r.details.or result.details, r.terminate.or result.terminate⟩,
        r.isError.getD isError⟩
  else ⟨toolCall, result, isError⟩

/-- What is made of a call that is prepared. -/
def preparedOutcome (script : CallScript) (toolCall : ToolCall) : FinalizedToolCallOutcome :=
  finalizeExecutedToolCall config script toolCall (executePreparedToolCall script toolCall).2

/-- The steps of a call that is prepared, from its execution to its end. -/
def preparedSteps (script : CallScript) (toolCall : ToolCall) : List Step :=
  (executePreparedToolCall script toolCall).1 ++ [Step.event (endEvent (preparedOutcome config script toolCall))]

/-- `createToolResultMessage`. -/
def createToolResultMessage (finalized : FinalizedToolCallOutcome) (now : ℤ) : ToolResultMessage :=
  ⟨finalized.toolCall.id, finalized.toolCall.name, finalized.result.content, finalized.result.details,
    finalized.isError, now⟩

/-- `emitToolResultMessage`. -/
def emitToolResultMessage (message : ToolResultMessage) : List Step :=
  [.event (.messageStart (.toolResult message)), .event (.messageEnd (.toolResult message))]

/-- `shouldTerminateToolBatch`. -/
def shouldTerminateToolBatch (finalizedCalls : List FinalizedToolCallOutcome) : Bool :=
  !finalizedCalls.isEmpty && finalizedCalls.all fun finalized => finalized.result.terminate = some true

/-! ### One after the other -/

/-- What a batch does: its steps, its `ExecutedToolCallBatch`, and the checks of
the signal after it. -/
structure Batch where
  steps : List Step
  messages : List ToolResultMessage
  terminate : Bool
  checks : ℕ

/-- A call in the loop of `executeToolCallsSequential`, once it is prepared. -/
def sequentialCall (script : CallScript) (toolCall : ToolCall) : Preparation → List Step × FinalizedToolCallOutcome
  | .immediate result isError => ([.event (endEvent ⟨toolCall, result, isError⟩)], ⟨toolCall, result, isError⟩)
  | .prepared => (preparedSteps config script toolCall, preparedOutcome config script toolCall)

/-- The loop of `executeToolCallsSequential`, from the `k`-th call of the turn
on: the steps, what came of the calls, their messages, and the checks so far. -/
def sequentialCalls (calls : ℕ → CallScript) : ℕ → ℕ → List ToolCall →
    List Step × List FinalizedToolCallOutcome × List ToolResultMessage × ℕ
  | _, checks, [] => ([], [], [], checks)
  | k, checks, toolCall :: rest =>
    let preparation := prepareToolCall config context abortedFrom (calls k) toolCall checks
    let call := sequentialCall config (calls k) toolCall preparation.1
    let message := createToolResultMessage call.2 (calls k).timestamp
    let steps := .event (startEvent toolCall) :: call.1 ++ emitToolResultMessage message
    if aborted abortedFrom preparation.2 then (steps, [call.2], [message], preparation.2 + 1)
    else
      let next := sequentialCalls calls (k + 1) (preparation.2 + 1) rest
      (steps ++ next.1, call.2 :: next.2.1, message :: next.2.2.1, next.2.2.2)

/-- `executeToolCallsSequential`. -/
def executeToolCallsSequential (calls : ℕ → CallScript) (checks : ℕ) (toolCalls : List ToolCall) : Batch :=
  let run := sequentialCalls config context abortedFrom calls 0 checks toolCalls
  ⟨run.1, run.2.2.1, shouldTerminateToolBatch run.2.1, run.2.2.2⟩

/-! ### All at once -/

/-- A call after the first loop of `executeToolCallsParallel`: it has ended
already, or is still to run. -/
inductive FinalizedToolCallEntry
  | finalized (outcome : FinalizedToolCallOutcome)
  | prepared (script : CallScript) (toolCall : ToolCall)

/-- A call in the first loop of `executeToolCallsParallel`, once it is prepared. -/
def startedCall (script : CallScript) (toolCall : ToolCall) : Preparation → List Step × FinalizedToolCallEntry
  | .immediate result isError =>
    ([.event (startEvent toolCall), .event (endEvent ⟨toolCall, result, isError⟩)],
      .finalized ⟨toolCall, result, isError⟩)
  | .prepared => ([.event (startEvent toolCall)], .prepared script toolCall)

/-- The first loop of `executeToolCallsParallel`: the steps, the entries, and
the checks so far. -/
def startCalls (calls : ℕ → CallScript) : ℕ → ℕ → List ToolCall →
    List Step × List FinalizedToolCallEntry × ℕ
  | _, checks, [] => ([], [], checks)
  | k, checks, toolCall :: rest =>
    let preparation := prepareToolCall config context abortedFrom (calls k) toolCall checks
    let call := startedCall (calls k) toolCall preparation.1
    if aborted abortedFrom preparation.2 then (call.1, [call.2], preparation.2 + 1)
    else
      let next := startCalls calls (k + 1) (preparation.2 + 1) rest
      (call.1 ++ next.1, call.2 :: next.2.1, next.2.2)

/-- What an entry still has to do. -/
def FinalizedToolCallEntry.steps : FinalizedToolCallEntry → List Step
  | .finalized _ => []
  | .prepared script toolCall => preparedSteps config script toolCall

/-- What comes of an entry. -/
def FinalizedToolCallEntry.outcome : FinalizedToolCallEntry → FinalizedToolCallOutcome
  | .finalized outcome => outcome
  | .prepared script toolCall => preparedOutcome config script toolCall

/-- The result messages of the calls from the `k`-th on. -/
def toolResultMessages (calls : ℕ → CallScript) : ℕ → List FinalizedToolCallOutcome → List ToolResultMessage
  | _, [] => []
  | k, finalized :: rest => createToolResultMessage finalized (calls k).timestamp :: toolResultMessages calls (k + 1) rest

/-- `executeToolCallsParallel`. The calls that are prepared go on under a schedule. -/
def executeToolCallsParallel (calls : ℕ → CallScript) (schedule : List ℕ) (k checks : ℕ)
    (toolCalls : List ToolCall) : Batch :=
  let started := startCalls config context abortedFrom calls k checks toolCalls
  let finalized := started.2.1.map (·.outcome config)
  let messages := toolResultMessages calls k finalized
  ⟨started.1 ++ interleave schedule (started.2.1.map (·.steps config)) ++ messages.flatMap emitToolResultMessage,
    messages, shouldTerminateToolBatch finalized, started.2.2⟩

/-! ### Group by group -/

/-- The loop over the groups in `executeToolCalls`, from the `g`-th group on. -/
def executeGroups (calls : ℕ → CallScript) (schedule : ℕ → List ℕ) : ℕ → ℕ → ℕ → List (List ToolCall) → Batch
  | _, _, checks, [] => ⟨[], [], false, checks⟩
  | g, k, checks, group :: groups =>
    if group.isEmpty then executeGroups calls schedule (g + 1) k checks groups
    else
      let batch := executeToolCallsParallel config context abortedFrom calls (schedule g) k checks group
      if batch.terminate then batch
      else if aborted abortedFrom batch.checks then { batch with terminate := true, checks := batch.checks + 1 }
      else
        let rest := executeGroups calls schedule (g + 1) (k + group.length) (batch.checks + 1) groups
        ⟨batch.steps ++ rest.steps, batch.messages ++ rest.messages, rest.terminate, rest.checks⟩

/-- `hasSequentialToolCall`, or the configuration says so. -/
def runsSequentially (toolCalls : List ToolCall) : Bool :=
  config.toolExecution = some .sequential ||
    toolCalls.any fun toolCall => (context.tool? toolCall.name).any (·.executionMode = some .sequential)

/-- The groups `executeToolCalls` runs. -/
def toolGroups (toolCalls : List ToolCall) : List (List ToolCall) :=
  match config.partitionToolCalls with
  | some partitionToolCalls => if toolCalls.length > 1 then partitionToolCalls toolCalls else [toolCalls]
  | none => [toolCalls]

/-- `executeToolCalls`. -/
def executeToolCalls (calls : ℕ → CallScript) (schedule : ℕ → List ℕ) (checks : ℕ) (toolCalls : List ToolCall) :
    Batch :=
  if runsSequentially config context toolCalls then
    executeToolCallsSequential config context abortedFrom calls checks toolCalls
  else
    match toolGroups config toolCalls with
    | [] => executeToolCallsParallel config context abortedFrom calls (schedule 0) 0 checks toolCalls
    | [group] => executeToolCallsParallel config context abortedFrom calls (schedule 0) 0 checks group
    | groups => executeGroups config context abortedFrom calls schedule 0 0 checks groups

/-- An outcome is one of the call it was made for. -/
theorem finalizeExecutedToolCall_toolCall (script : CallScript) (toolCall : ToolCall)
    (executed : AgentToolResult × Bool) :
    (finalizeExecutedToolCall config script toolCall executed).toolCall = toolCall := by
  unfold finalizeExecutedToolCall
  dsimp only
  repeat' split
  all_goals rfl

/-- The groups have the calls in their order, if what `partitionToolCalls` returns for them has. -/
theorem flatten_toolGroups {toolCalls : List ToolCall}
    (hpart : ∀ f, config.partitionToolCalls = some f → (f toolCalls).flatten = toolCalls) :
    (toolGroups config toolCalls).flatten = toolCalls := by
  unfold toolGroups
  split
  · split
    · exact hpart _ (by assumption)
    · simp
  · simp

end

end Trek
