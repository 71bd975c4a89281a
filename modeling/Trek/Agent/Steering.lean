/-
# The queues of an agent

`Agent` of `packages/agent/src/agent.ts` keeps a queue of steering messages and one of
follow-ups. A run takes messages out of them, at its start, after each turn and where it
would stop, and `continue` takes them as prompts; the run then sends them, one `message_end`
each, before it asks for a response. In between a message is in neither place: it is held by
the run (`run_conserves`).

The runs of `agent-loop.ts` are cut at their awaits: a stage is what a run waits for, and
between any two stages the agent may be called. The queues see nothing of what is streamed
before the end of a response, nor of how tools come to their results.
-/
import Trek.Agent.Events
import Trek.Lib.Machine
import Mathlib.Data.List.Sublists
import Mathlib.Logic.Function.Basic

namespace Trek

namespace Steering

/-! ### Queues -/

/-- The queues of an agent. -/
inductive Queue
  | steering | followUp
  deriving DecidableEq

/-- A message object. One that was queued has a ticket: its queue, and how many messages
had been queued there before. -/
structure Sent where
  message : AgentMessage
  ticket : Option (Queue × ℕ)
  deriving DecidableEq

/-- `PendingMessageQueue`. -/
structure PendingMessageQueue where
  messages : List Sent
  mode : QueueMode

namespace PendingMessageQueue

/-- `enqueue`. -/
def enqueue (q : PendingMessageQueue) (message : Sent) : PendingMessageQueue :=
  { q with messages := q.messages ++ [message] }

/-- `drain`: what is taken, and the queue after it. -/
def drain (q : PendingMessageQueue) : List Sent × PendingMessageQueue :=
  match q.mode with
  | .all => (q.messages, { q with messages := [] })
  | .oneAtATime =>
    match q.messages with
    | [] => ([], q)
    | first :: rest => ([first], { q with messages := rest })

/-- `clear`. -/
def clear (q : PendingMessageQueue) : PendingMessageQueue := { q with messages := [] }

/-- What is taken was first in the queue. -/
theorem drain_append (q : PendingMessageQueue) : q.drain.1 ++ q.drain.2.messages = q.messages := by
  unfold drain
  split
  · exact List.append_nil _
  · split
    · exact List.nil_append _
    · rename_i h
      exact h.symm

end PendingMessageQueue

/-! ### Runs -/

/-- What a run does after the messages it sends. -/
inductive Next
  /-- `runLoop`, after the prompts: the first `getSteeringMessages`. -/
  | poll
  /-- `streamAssistantResponse`, after the pending messages. -/
  | respond
  deriving DecidableEq

/-- What a run waits for. -/
inductive Stage
  /-- the listeners of `agent_start` -/
  | agentStart (prompts : List Sent)
  /-- the listeners of `turn_start`; the messages are sent then -/
  | turnStart (messages : List Sent) (next : Next)
  /-- the listeners of `message_start` of a message -/
  | messageStart (message : Sent) (rest : List Sent) (next : Next)
  /-- the listeners of its `message_end` -/
  | messageEnd (rest : List Sent) (next : Next)
  /-- the first `getSteeringMessages`, with what it returns -/
  | polledStart (messages : List Sent)
  /-- `streamAssistantResponse`, up to the final message -/
  | response
  /-- the listeners of `message_end` of the final message -/
  | responded (message : AssistantMessage)
  /-- `executeToolCalls` -/
  | tools
  /-- the listeners of `turn_end` after an error or an abort -/
  | lastTurnEnd
  /-- the listeners of `turn_end`; `more` is `hasMoreToolCalls` -/
  | turnEnd (more : Bool)
  /-- `prepareNextTurn` -/
  | prepare (more : Bool)
  /-- `shouldStopAfterTurn` -/
  | shouldStop (more : Bool)
  /-- `getSteeringMessages` after a turn -/
  | polledTurn (messages : List Sent) (more : Bool)
  /-- `getFollowUpMessages` -/
  | polledFollowUp (messages : List Sent)
  /-- the listeners of `agent_end` -/
  | agentEnd
  /-- `handleRunFailure`: the listeners of `message_start`, `message_end` and `turn_end` -/
  | failureStart (message : AssistantMessage)
  | failureEnd
  | failureTurnEnd
  deriving DecidableEq

/-- The messages a run has taken and not sent. -/
def Stage.inFlight : Stage → List Sent
  | .agentStart prompts => prompts
  | .turnStart messages _ => messages
  | .messageStart message rest _ => message :: rest
  | .messageEnd rest _ => rest
  | .polledStart messages => messages
  | .polledTurn messages _ => messages
  | .polledFollowUp messages => messages
  | _ => []

/-- A run that waits for listeners of the events before and around the messages it sends, or for
a queue. -/
def Stage.isInjecting : Stage → Bool
  | .agentStart _ | .turnStart _ _ | .messageStart _ _ _ | .messageEnd _ _ | .polledStart _ | .polledTurn _ _
  | .polledFollowUp _ => true
  | _ => false

/-- `activeRun`, with the variable of its `createLoopConfig`. -/
structure Run where
  stage : Stage
  skipInitialSteeringPoll : Bool
  aborted : Bool
  deriving DecidableEq

/-- What a run goes on with. -/
inductive Input
  /-- the listeners, the queue or `prepareNextTurn` are done -/
  | go
  /-- the final message of a response -/
  | respond (message : AssistantMessage)
  /-- the result message of a tool call -/
  | toolResult (message : ToolResultMessage)
  /-- `executeToolCalls` returns -/
  | toolsDone (terminate : Bool)
  /-- `shouldStopAfterTurn` returns -/
  | stop (stop : Bool)
  /-- what is waited for throws; `message` is that of `handleRunFailure` without its `stopReason` -/
  | throw (message : AssistantMessage)

/-! ### The agent -/

/-- `Agent`. `messages` is `_state.messages`; `accepted`, `cleared` and `ended` tell what was
queued, what clear calls removed, and of which messages a `message_end` was emitted. -/
structure Agent where
  queue : Queue → PendingMessageQueue
  messages : List Sent
  activeRun : Option Run
  accepted : Queue → List Sent
  cleared : List Sent
  ended : List Sent

namespace Agent

/-- An agent as it is constructed. -/
def new (messages : List AgentMessage) (steeringMode followUpMode : QueueMode) : Agent where
  queue := fun
    | .steering => ⟨[], steeringMode⟩
    | .followUp => ⟨[], followUpMode⟩
  messages := messages.map (⟨·, none⟩)
  activeRun := none
  accepted := fun _ => []
  cleared := []
  ended := []

variable (s : Agent)

/-- The messages the active run has taken and not sent. -/
def inFlight : List Sent := s.activeRun.elim [] (·.stage.inFlight)

/-- The run at a stage. -/
def goTo (run : Run) (stage : Stage) : Agent := { s with activeRun := some { run with stage } }

/-- `processEvents` of a `message_end`. -/
def messageEnd (message : Sent) : Agent :=
  { s with messages := s.messages ++ [message], ended := s.ended ++ [message] }

/-- The queue as `drain` leaves it. -/
def drained (k : Queue) : Agent := { s with queue := Function.update s.queue k (s.queue k).drain.2 }

/-- `getSteeringMessages` at the start of `runLoop`. -/
def poll (run : Run) : Agent :=
  if run.skipInitialSteeringPoll then s.goTo { run with skipInitialSteeringPoll := false } (.polledStart [])
  else (s.drained .steering).goTo run (.polledStart (s.queue .steering).drain.1)

/-- The loops over the prompts and over the pending messages. -/
def send (run : Run) (next : Next) : List Sent → Agent
  | message :: rest => s.goTo run (.messageStart message rest next)
  | [] =>
    match next with
    | .poll => s.poll run
    | .respond => s.goTo run .response

/-- A run goes on: the code between two awaits. -/
def advance (run : Run) (input : Input) : Option Agent :=
  match run.stage, input with
  | .agentStart prompts, .go => some (s.goTo run (.turnStart prompts .poll))
  | .turnStart messages next, .go => some (s.send run next messages)
  | .messageStart message rest next, .go => some ((s.messageEnd message).goTo run (.messageEnd rest next))
  | .messageEnd rest next, .go => some (s.send run next rest)
  -- the first turn: its `turn_start` is emitted before
  | .polledStart messages, .go => some (s.send run .respond messages)
  | .response, .respond message => some ((s.messageEnd ⟨.assistant message, none⟩).goTo run (.responded message))
  | .responded message, .go =>
    some (if message.stopReason = .error ∨ message.stopReason = .aborted then s.goTo run .lastTurnEnd
      else if message.toolCalls.isEmpty then s.goTo run (.turnEnd false)
      else s.goTo run .tools)
  | .tools, .toolResult message => some ((s.messageEnd ⟨.toolResult message, none⟩).goTo run .tools)
  | .tools, .toolsDone terminate => some (s.goTo run (.turnEnd (!terminate)))
  | .lastTurnEnd, .go => some (s.goTo run .agentEnd)
  | .turnEnd more, .go => some (s.goTo run (.prepare more))
  | .prepare more, .go => some (s.goTo run (.shouldStop more))
  | .shouldStop more, .stop stop =>
    some (if stop then s.goTo run .agentEnd
      else (s.drained .steering).goTo run (.polledTurn (s.queue .steering).drain.1 more))
  | .polledTurn messages more, .go =>
    some (if more || !messages.isEmpty then s.goTo run (.turnStart messages .respond)
      else (s.drained .followUp).goTo run (.polledFollowUp (s.queue .followUp).drain.1))
  | .polledFollowUp messages, .go =>
    some (if messages.isEmpty then s.goTo run .agentEnd else s.goTo run (.turnStart messages .respond))
  -- `finishRun`
  | .agentEnd, .go => some { s with activeRun := none }
  | .response, .throw message | .tools, .throw message | .prepare _, .throw message | .shouldStop _, .throw message =>
    some (s.goTo run (.failureStart { message with stopReason := if run.aborted then .aborted else .error }))
  | .failureStart message, .go => some ((s.messageEnd ⟨.assistant message, none⟩).goTo run .failureEnd)
  | .failureEnd, .go => some (s.goTo run .failureTurnEnd)
  | .failureTurnEnd, .go => some (s.goTo run .agentEnd)
  | _, _ => none

/-- `runPromptMessages`. -/
def runPromptMessages (messages : List Sent) (skipInitialSteeringPoll : Bool) : Agent :=
  { s with activeRun := some ⟨.agentStart messages, skipInitialSteeringPoll, false⟩ }

/-- `runContinuation`. -/
def runContinuation : Agent := { s with activeRun := some ⟨.agentStart [], false, false⟩ }

/-- `prompt`. -/
def prompt (messages : List AgentMessage) : Except String Agent :=
  if s.activeRun.isSome then
    .error "Agent is already processing a prompt. Use steer() or followUp() to queue messages, or wait for completion."
  else .ok (s.runPromptMessages (messages.map (⟨·, none⟩)) false)

/-- `continue`. -/
def continueRun : Except String Agent :=
  if s.activeRun.isSome then .error "Agent is already processing. Wait for completion before continuing."
  else
    match s.messages.getLast? with
    | none => .error "No messages to continue from"
    | some lastMessage =>
      if lastMessage.message.isAssistant then
        if (s.queue .steering).drain.1 ≠ [] then
          .ok ((s.drained .steering).runPromptMessages (s.queue .steering).drain.1 true)
        else if (s.queue .followUp).drain.1 ≠ [] then
          .ok ((s.drained .followUp).runPromptMessages (s.queue .followUp).drain.1 false)
        else .error
          "Cannot continue: the last message is from the assistant with no queued follow-up. Send a new prompt to continue."
      else .ok s.runContinuation

/-- `steer` and `followUp`. -/
def enqueue (k : Queue) (message : AgentMessage) : Agent :=
  let sent : Sent := ⟨message, some (k, (s.accepted k).length)⟩
  { s with
    queue := Function.update s.queue k ((s.queue k).enqueue sent)
    accepted := Function.update s.accepted k (s.accepted k ++ [sent]) }

/-- `clearSteeringQueue` and `clearFollowUpQueue`. -/
def clearQueue (k : Queue) : Agent :=
  { s with
    queue := Function.update s.queue k (s.queue k).clear
    cleared := s.cleared ++ (s.queue k).messages }

/-- `steeringMode` and `followUpMode`. -/
def setMode (k : Queue) (mode : QueueMode) : Agent :=
  { s with queue := Function.update s.queue k { s.queue k with mode } }

/-- `abort`. -/
def abort : Agent := { s with activeRun := s.activeRun.map ({ · with aborted := true }) }

end Agent

/-- A call of the agent, or a step of its run. -/
inductive Step
  | prompt (messages : List AgentMessage)
  | continueRun
  | enqueue (k : Queue) (message : AgentMessage)
  | clearQueue (k : Queue)
  | setMode (k : Queue) (mode : QueueMode)
  | abort
  | advance (input : Input)

/-- One step. A call that throws changes nothing. -/
def Agent.step (s : Agent) : Step → Option Agent
  | .prompt messages => some ((s.prompt messages).toOption.getD s)
  | .continueRun => some (s.continueRun.toOption.getD s)
  | .enqueue k message => some (s.enqueue k message)
  | .clearQueue k => some (s.clearQueue k)
  | .setMode k mode => some (s.setMode k mode)
  | .abort => some s.abort
  | .advance input => s.activeRun.bind (s.advance · input)

/-! ### What a step does to the messages -/

/-- The message was queued in the queue. -/
def Sent.isOf (k : Queue) (x : Sent) : Bool := x.ticket.any (·.1 = k)

/-- The messages of a queue, in order. -/
def of (k : Queue) (messages : List Sent) : List Sent := messages.filter (Sent.isOf k)

theorem of_append (k : Queue) (a b : List Sent) : of k (a ++ b) = of k a ++ of k b := List.filter_append a b

/-- Messages that were not queued are of no queue. -/
theorem of_eq_nil {k : Queue} {messages : List Sent} (h : ∀ x ∈ messages, x.ticket = none) : of k messages = [] :=
  List.filter_eq_nil_iff.mpr fun x hx => by simp [Sent.isOf, h x hx]

namespace Agent

variable {s s' : Agent} {run : Run} {stage : Stage}

/-- The messages that have left the queues. -/
def taken (s : Agent) : List Sent := s.ended ++ s.inFlight

/-- Every message is in its own queue. -/
def Owned (s : Agent) : Prop := ∀ k, ∀ x ∈ (s.queue k).messages, ∃ n, x.ticket = some (k, n)

/-- A step of a run: messages go from the queues to the run, in order, and from it to the
transcript. -/
structure Moved (s s' : Agent) : Prop where
  accepted : s'.accepted = s.accepted
  cleared : s'.cleared = s.cleared
  ended : ∃ sent, s'.ended = s.ended ++ sent ∧ s'.messages = s.messages ++ sent
  order : ∀ k, of k s'.taken ++ (s'.queue k).messages = of k s.taken ++ (s.queue k).messages
  owned : s.Owned → s'.Owned

theorem inFlight_eq (h : s.activeRun = some run) : s.inFlight = run.stage.inFlight := by
  rw [inFlight, h]
  rfl

/-- The run goes on with the messages it has. -/
theorem moved_goTo (hflight : stage.inFlight = s.inFlight) : s.Moved (s.goTo run stage) := by
  refine ⟨rfl, rfl, ⟨[], (List.append_nil _).symm, (List.append_nil _).symm⟩, fun k => ?_, id⟩
  change of k (s.ended ++ stage.inFlight) ++ _ = of k (s.ended ++ s.inFlight) ++ _
  rw [hflight]
  rfl

/-- The run sends the first message it has. -/
theorem moved_messageEnd {message : Sent} (hflight : message :: stage.inFlight = s.inFlight) :
    s.Moved ((s.messageEnd message).goTo run stage) := by
  refine ⟨rfl, rfl, ⟨[message], rfl, rfl⟩, fun k => ?_, id⟩
  change of k (s.ended ++ [message] ++ stage.inFlight) ++ _ = of k (s.ended ++ s.inFlight) ++ _
  rw [List.append_assoc, List.singleton_append, hflight]
  rfl

/-- The run sends a message of its own. -/
theorem moved_own {message : Sent} (hticket : message.ticket = none) (hflight : s.inFlight = [])
    (hstage : stage.inFlight = []) : s.Moved ((s.messageEnd message).goTo run stage) := by
  refine ⟨rfl, rfl, ⟨[message], rfl, rfl⟩, fun k => ?_, id⟩
  change of k (s.ended ++ [message] ++ stage.inFlight) ++ _ = of k (s.ended ++ s.inFlight) ++ _
  have hown : of k [message] = [] := of_eq_nil fun x hx => List.mem_singleton.mp hx ▸ hticket
  rw [hstage, hflight, List.append_nil, List.append_nil, of_append, hown, List.append_nil]
  rfl

/-- The run takes messages from a queue. -/
theorem moved_drained (howned : s.Owned) {k : Queue} (hflight : s.inFlight = [])
    (hstage : stage.inFlight = (s.queue k).drain.1) : s.Moved ((s.drained k).goTo run stage) := by
  have happend := (s.queue k).drain_append
  refine ⟨rfl, rfl, ⟨[], (List.append_nil _).symm, (List.append_nil _).symm⟩, fun j => ?_, fun _ j x hx => ?_⟩
  · change of j (s.ended ++ stage.inFlight) ++ ((Function.update s.queue k (s.queue k).drain.2) j).messages =
      of j (s.ended ++ s.inFlight) ++ _
    rw [hstage, hflight, List.append_nil, of_append, List.append_assoc]
    have hmem : ∀ x ∈ (s.queue k).drain.1, ∃ n, x.ticket = some (k, n) := fun x hx =>
      howned k x (happend ▸ List.mem_append_left _ hx)
    by_cases hj : j = k
    · subst hj
      have hall : of j (s.queue j).drain.1 = (s.queue j).drain.1 := List.filter_eq_self.mpr fun x hx => by
        obtain ⟨n, hn⟩ := hmem x hx
        simp [Sent.isOf, hn]
      rw [Function.update_self, hall, happend]
    · have hnone : of j (s.queue k).drain.1 = [] := List.filter_eq_nil_iff.mpr fun x hx => by
        obtain ⟨n, hn⟩ := hmem x hx
        simp [Sent.isOf, hn, Ne.symm hj]
      rw [Function.update_of_ne hj, hnone, List.nil_append]
  · change x ∈ ((Function.update s.queue k (s.queue k).drain.2) j).messages at hx
    by_cases hj : j = k
    · subst hj
      rw [Function.update_self] at hx
      exact howned j x (happend ▸ List.mem_append_right _ hx)
    · rw [Function.update_of_ne hj] at hx
      exact howned j x hx

theorem moved_poll (howned : s.Owned) (hflight : s.inFlight = []) : s.Moved (s.poll run) := by
  rw [poll]
  split
  · exact moved_goTo hflight.symm
  · exact moved_drained howned hflight rfl

theorem moved_send (howned : s.Owned) {next : Next} {messages : List Sent} (hflight : s.inFlight = messages) :
    s.Moved (s.send run next messages) := by
  rw [send.eq_def]
  split
  · exact moved_goTo hflight.symm
  · split
    · exact moved_poll howned hflight
    · exact moved_goTo hflight.symm

/-- The run begins or ends; it has nothing but messages that were not queued. -/
theorem moved_run {activeRun : Option Run} (hflight : s.inFlight = [])
    (hown : ∀ x ∈ activeRun.elim [] (·.stage.inFlight), x.ticket = none) : s.Moved { s with activeRun } := by
  refine ⟨rfl, rfl, ⟨[], (List.append_nil _).symm, (List.append_nil _).symm⟩, fun k => ?_, id⟩
  change of k (s.ended ++ activeRun.elim [] (·.stage.inFlight)) ++ _ = of k (s.ended ++ s.inFlight) ++ _
  rw [hflight, of_append, of_eq_nil hown, List.append_nil, List.append_nil]

/-- A run that goes on moves messages. -/
theorem moved_advance (howned : s.Owned) (hrun : s.activeRun = some run) {input : Input}
    (h : s.advance run input = some s') : s.Moved s' := by
  have hflight := inFlight_eq hrun
  obtain ⟨stage, skipInitialSteeringPoll, aborted⟩ := run
  unfold advance at h
  dsimp only at h
  -- the cases are those of `advance`, in its order
  split at h
  all_goals try obtain rfl := Option.some.inj h
  · exact moved_goTo hflight.symm
  · exact moved_send howned hflight
  · exact moved_messageEnd hflight.symm
  · exact moved_send howned hflight
  · exact moved_send howned hflight
  · exact moved_own rfl hflight rfl
  · split
    · exact moved_goTo hflight.symm
    · split
      · exact moved_goTo hflight.symm
      · exact moved_goTo hflight.symm
  · exact moved_own rfl hflight rfl
  · exact moved_goTo hflight.symm
  · exact moved_goTo hflight.symm
  · exact moved_goTo hflight.symm
  · exact moved_goTo hflight.symm
  · split
    · exact moved_goTo hflight.symm
    · exact moved_drained howned hflight rfl
  · split
    · exact moved_goTo hflight.symm
    · -- without steering messages the follow-ups are polled
      rename_i messages more hmore
      have hnil : messages = [] := by
        rw [Bool.or_eq_true, not_or] at hmore
        simpa using hmore.2
      exact moved_drained howned (hflight.trans hnil) rfl
  · split
    · rename_i hempty
      exact moved_goTo (hflight.trans (List.isEmpty_iff.mp hempty)).symm
    · exact moved_goTo hflight.symm
  · exact moved_run hflight fun _ hx => nomatch hx
  · exact moved_goTo hflight.symm
  · exact moved_goTo hflight.symm
  · exact moved_goTo hflight.symm
  · exact moved_goTo hflight.symm
  · exact moved_own rfl hflight rfl
  · exact moved_goTo hflight.symm
  · exact moved_goTo hflight.symm
  · cases h

theorem moved_prompt (messages : List AgentMessage) (h : s.prompt messages = .ok s') : s.Moved s' := by
  unfold prompt at h
  split at h
  · cases h
  · rename_i hidle
    obtain rfl := Except.ok.inj h
    rw [Bool.not_eq_true, Option.isSome_eq_false_iff, Option.isNone_iff_eq_none] at hidle
    refine moved_run (by rw [inFlight, hidle]; rfl) fun x hx => ?_
    obtain ⟨message, -, rfl⟩ := List.mem_map.mp hx
    rfl

theorem moved_continueRun (howned : s.Owned) (h : s.continueRun = .ok s') : s.Moved s' := by
  unfold continueRun at h
  split at h
  · cases h
  · rename_i hidle
    rw [Bool.not_eq_true, Option.isSome_eq_false_iff, Option.isNone_iff_eq_none] at hidle
    have hflight : s.inFlight = [] := by
      rw [inFlight, hidle]
      rfl
    split at h
    · cases h
    · split at h
      · split at h
        · obtain rfl := Except.ok.inj h
          exact @moved_drained s ⟨.agentEnd, true, false⟩ _ howned _ hflight rfl
        · split at h
          · obtain rfl := Except.ok.inj h
            exact @moved_drained s ⟨.agentEnd, false, false⟩ _ howned _ hflight rfl
          · cases h
      · obtain rfl := Except.ok.inj h
        exact moved_run hflight fun _ hx => nomatch hx

/-! ### What holds in every run -/

/-- The messages that were queued are where they should be. `initial` is the transcript at the
start. -/
structure Kept (initial : List Sent) (s : Agent) : Prop where
  owned : s.Owned
  order : ∀ k, (of k s.taken ++ (s.queue k).messages).Sublist (s.accepted k)
  found : ∀ k, ∀ x ∈ s.accepted k, x ∉ s.cleared → x ∈ of k s.taken ++ (s.queue k).messages
  tickets : ∀ k, (s.accepted k).map Sent.ticket = (List.range (s.accepted k).length).map fun n => some (k, n)
  transcript : s.messages = initial ++ s.ended

variable {initial : List Sent}

theorem kept_new (messages : List AgentMessage) (steeringMode followUpMode : QueueMode) :
    (new messages steeringMode followUpMode).Kept (messages.map (⟨·, none⟩)) := by
  have hempty : ∀ k, ((new messages steeringMode followUpMode).queue k).messages = [] := by
    rintro (_ | _)
    · rfl
    · rfl
  refine ⟨fun k x hx => ?_, fun k => ?_, fun k x hx => (nomatch hx), fun k => rfl, (List.append_nil _).symm⟩
  · rw [hempty] at hx
    cases hx
  · rw [hempty]
    exact List.Sublist.refl _

/-- Steps of a run keep the messages. -/
theorem Kept.moved (h : s.Kept initial) (hmoved : s.Moved s') : s'.Kept initial := by
  refine ⟨hmoved.owned h.owned, fun k => ?_, fun k x hx hcleared => ?_, fun k => ?_, ?_⟩
  · rw [hmoved.order, hmoved.accepted]
    exact h.order k
  · rw [hmoved.accepted] at hx
    rw [hmoved.cleared] at hcleared
    rw [hmoved.order]
    exact h.found k x hx hcleared
  · rw [hmoved.accepted]
    exact h.tickets k
  · obtain ⟨sent, hended, hmessages⟩ := hmoved.ended
    rw [hended, hmessages, h.transcript, List.append_assoc]

/-- A message that is queued is the last of its queue. -/
theorem Kept.enqueue (h : s.Kept initial) (k : Queue) (message : AgentMessage) : (s.enqueue k message).Kept initial := by
  set sent : Sent := ⟨message, some (k, (s.accepted k).length)⟩ with hsent
  have hself : ((s.enqueue k message).queue k).messages = (s.queue k).messages ++ [sent] := by
    change (Function.update s.queue k _ k).messages = _
    rw [Function.update_self]
    rfl
  have hother : ∀ j, j ≠ k → (s.enqueue k message).queue j = s.queue j := fun j hj => Function.update_of_ne hj _ _
  have haccepted : (s.enqueue k message).accepted k = s.accepted k ++ [sent] := Function.update_self ..
  have haccepted' : ∀ j, j ≠ k → (s.enqueue k message).accepted j = s.accepted j := fun j hj =>
    Function.update_of_ne hj _ _
  have htaken : (s.enqueue k message).taken = s.taken := rfl
  refine ⟨fun j x hx => ?_, fun j => ?_, fun j x hx hcleared => ?_, fun j => ?_, h.transcript⟩
  all_goals by_cases hj : j = k
  · subst hj
    rw [hself, List.mem_append, List.mem_singleton] at hx
    rcases hx with hx | rfl
    · exact h.owned j x hx
    · exact ⟨_, rfl⟩
  · rw [hother j hj] at hx
    exact h.owned j x hx
  · subst hj
    rw [htaken, hself, haccepted, ← List.append_assoc]
    exact (h.order j).append (List.Sublist.refl _)
  · rw [htaken, hother j hj, haccepted' j hj]
    exact h.order j
  · subst hj
    rw [haccepted, List.mem_append, List.mem_singleton] at hx
    rw [htaken, hself, ← List.append_assoc]
    rcases hx with hx | rfl
    · exact List.mem_append_left _ (h.found j x hx hcleared)
    · exact List.mem_append_right _ (List.mem_singleton_self _)
  · rw [haccepted' j hj] at hx
    rw [htaken, hother j hj]
    exact h.found j x hx hcleared
  · subst hj
    rw [haccepted, List.map_append, h.tickets, List.length_append, List.length_singleton, List.range_succ,
      List.map_append]
    rfl
  · rw [haccepted' j hj]
    exact h.tickets j

/-- What is cleared is gone from the queue. -/
theorem Kept.clearQueue (h : s.Kept initial) (k : Queue) : (s.clearQueue k).Kept initial := by
  have hself : ((s.clearQueue k).queue k).messages = [] := by
    change (Function.update s.queue k _ k).messages = _
    rw [Function.update_self]
    rfl
  have hother : ∀ j, j ≠ k → (s.clearQueue k).queue j = s.queue j := fun j hj => Function.update_of_ne hj _ _
  have htaken : (s.clearQueue k).taken = s.taken := rfl
  refine ⟨fun j x hx => ?_, fun j => ?_, fun j x hx hcleared => ?_, h.tickets, h.transcript⟩
  all_goals by_cases hj : j = k
  · subst hj
    rw [hself] at hx
    cases hx
  · rw [hother j hj] at hx
    exact h.owned j x hx
  · subst hj
    rw [htaken, hself, List.append_nil]
    exact (List.sublist_append_left _ _).trans (h.order j)
  · rw [htaken, hother j hj]
    exact h.order j
  · subst hj
    have hcleared' : x ∉ s.cleared ∧ x ∉ (s.queue j).messages := by
      rw [← not_or, ← List.mem_append]
      exact hcleared
    rw [htaken, hself, List.append_nil]
    exact (List.mem_append.mp (h.found j x hx hcleared'.1)).resolve_right hcleared'.2
  · rw [htaken, hother j hj]
    exact h.found j x hx fun hc => hcleared (List.mem_append_left _ hc)

theorem Kept.setMode (h : s.Kept initial) (k : Queue) (mode : QueueMode) : (s.setMode k mode).Kept initial := by
  have hqueue : ∀ j, ((s.setMode k mode).queue j).messages = (s.queue j).messages := by
    intro j
    change (Function.update s.queue k _ j).messages = _
    by_cases hj : j = k
    · subst hj
      rw [Function.update_self]
    · rw [Function.update_of_ne hj]
  have htaken : (s.setMode k mode).taken = s.taken := rfl
  refine ⟨fun j x hx => ?_, fun j => ?_, fun j x hx hcleared => ?_, h.tickets, h.transcript⟩
  · rw [hqueue] at hx
    exact h.owned j x hx
  · rw [htaken, hqueue]
    exact h.order j
  · rw [htaken, hqueue]
    exact h.found j x hx hcleared

theorem Kept.abort (h : s.Kept initial) : s.abort.Kept initial := by
  have htaken : s.abort.taken = s.taken := by
    change s.ended ++ (s.activeRun.map _).elim [] _ = s.ended ++ s.activeRun.elim [] _
    cases s.activeRun <;> rfl
  refine ⟨h.owned, fun k => ?_, fun k x hx hcleared => ?_, h.tickets, h.transcript⟩
  · rw [htaken]
    exact h.order k
  · rw [htaken]
    exact h.found k x hx hcleared

theorem Kept.step (h : s.Kept initial) {input : Step} (hs : s.step input = some s') : s'.Kept initial := by
  cases input with
  | prompt messages =>
    obtain rfl := Option.some.inj hs
    cases hp : s.prompt messages with
    | error e => exact h
    | ok s' => exact h.moved (moved_prompt messages hp)
  | continueRun =>
    obtain rfl := Option.some.inj hs
    cases hc : s.continueRun with
    | error e => exact h
    | ok s' => exact h.moved (moved_continueRun h.owned hc)
  | enqueue k message =>
    obtain rfl := Option.some.inj hs
    exact h.enqueue k message
  | clearQueue k =>
    obtain rfl := Option.some.inj hs
    exact h.clearQueue k
  | setMode k mode =>
    obtain rfl := Option.some.inj hs
    exact h.setMode k mode
  | abort =>
    obtain rfl := Option.some.inj hs
    exact h.abort
  | advance input =>
    obtain ⟨run, hrun, hs⟩ := Option.bind_eq_some_iff.mp hs
    exact h.moved (moved_advance h.owned hrun hs)

theorem Kept.of_run (h : s.Kept initial) {steps : List Step} (hs : Machine.run Agent.step s steps = some s') :
    s'.Kept initial :=
  Machine.inv_run (fun _ _ _ h hs => Kept.step h hs) steps h hs

/-- A message that was queued and not cleared is in one place. -/
theorem Kept.count (h : s.Kept initial) (hinitial : ∀ x ∈ initial, x.ticket = none) {k : Queue} {x : Sent}
    (hx : x ∈ s.accepted k) (hcleared : x ∉ s.cleared) :
    (s.queue k).messages.count x + s.inFlight.count x + s.ended.count x = 1 ∧
      s.messages.count x = s.ended.count x := by
  obtain ⟨n, -, hticket⟩ : ∃ n ∈ List.range (s.accepted k).length, some (k, n) = x.ticket := by
    rw [← List.mem_map, ← h.tickets]
    exact List.mem_map_of_mem hx
  have hisOf : x.isOf k = true := by
    rw [Sent.isOf, ← hticket]
    simp
  have hnodup : (s.accepted k).Nodup := by
    refine List.Nodup.of_map Sent.ticket ?_
    rw [h.tickets]
    refine List.nodup_range.map fun a b hab => ?_
    exact (Prod.mk.inj (Option.some.inj hab)).2
  have hone : (of k s.taken ++ (s.queue k).messages).count x = 1 :=
    List.count_eq_one_of_mem (hnodup.sublist (h.order k)) (h.found k x hx hcleared)
  have htaken : (of k s.taken).count x = s.ended.count x + s.inFlight.count x := by
    rw [of, List.count_filter hisOf, taken, List.count_append]
  have hnot : initial.count x = 0 := List.count_eq_zero_of_not_mem fun hmem => by
    rw [hinitial x hmem] at hticket
    cases hticket
  rw [List.count_append, htaken] at hone
  refine ⟨by omega, ?_⟩
  rw [h.transcript, List.count_append, hnot, Nat.zero_add]

/-! ### Messages in flight -/

/-- When what the run waits for is done, again and again, the messages are sent. -/
def Sends (s : Agent) (messages : List Sent) : Prop :=
  ∃ n s', Machine.run Agent.step s (List.replicate n (.advance .go)) = some s' ∧ s'.ended = s.ended ++ messages

theorem sends_nil (s : Agent) : s.Sends [] := ⟨0, s, rfl, (List.append_nil _).symm⟩

/-- The run goes on, and then the rest is sent. -/
theorem Sends.of_advance {t : Agent} {rest : List Sent} (sent : List Sent) (hrest : t.Sends rest) (hrun : s.activeRun = some run)
    (ht : s.advance run .go = some t) (hsent : t.ended = s.ended ++ sent) : s.Sends (sent ++ rest) := by
  obtain ⟨n, s', hs', hended⟩ := hrest
  refine ⟨n + 1, s', ?_, by rw [hended, hsent, List.append_assoc]⟩
  have hstep : s.step (.advance .go) = some t := by
    rw [Agent.step, hrun]
    exact ht
  rw [List.replicate_succ, Machine.run_cons, hstep]
  exact hs'

/-- Where the run sends messages when it goes on, it sends them all. -/
theorem sends_messages : ∀ (messages : List Sent) {s : Agent} {run : Run} (next : Next), s.activeRun = some run →
    s.advance run .go = some (s.send run next messages) → s.Sends messages
  | [], s, _, _, _, _ => s.sends_nil
  | message :: rest, s, run, next, hrun, h => by
    let started := s.goTo run (.messageStart message rest next)
    let ended := (started.messageEnd message).goTo run (.messageEnd rest next)
    have hrest : ended.Sends rest := sends_messages rest next rfl rfl
    have hstarted : started.Sends (message :: rest) := hrest.of_advance [message] rfl rfl rfl
    exact hstarted.of_advance [] hrun h (List.append_nil _).symm

/-- A run sends what it has taken. -/
theorem sends_inFlight (s : Agent) : s.Sends s.inFlight := by
  cases hrun : s.activeRun with
  | none =>
    rw [inFlight, hrun]
    exact s.sends_nil
  | some run =>
    rw [inFlight_eq hrun]
    obtain ⟨stage, skipInitialSteeringPoll, aborted⟩ := run
    cases stage with
    | agentStart prompts =>
      have hrest : (s.goTo ⟨.agentStart prompts, skipInitialSteeringPoll, aborted⟩ (.turnStart prompts .poll)).Sends
          prompts := sends_messages prompts .poll rfl rfl
      exact hrest.of_advance [] hrun rfl (List.append_nil _).symm
    | turnStart messages next => exact sends_messages messages next hrun rfl
    | messageStart message rest next =>
      have hrest : ((s.messageEnd message).goTo ⟨.messageStart message rest next, skipInitialSteeringPoll, aborted⟩
          (.messageEnd rest next)).Sends rest := sends_messages rest next rfl rfl
      exact hrest.of_advance [message] hrun rfl rfl
    | messageEnd rest next => exact sends_messages rest next hrun rfl
    | polledStart messages => exact sends_messages messages .respond hrun rfl
    | polledTurn messages more =>
      cases messages with
      | nil => exact s.sends_nil
      | cons message rest =>
        have hrest : (s.goTo ⟨.polledTurn (message :: rest) more, skipInitialSteeringPoll, aborted⟩
            (.turnStart (message :: rest) .respond)).Sends (message :: rest) := sends_messages _ .respond rfl rfl
        refine hrest.of_advance [] hrun ?_ (List.append_nil _).symm
        simp [advance]
    | polledFollowUp messages =>
      cases messages with
      | nil => exact s.sends_nil
      | cons message rest =>
        have hrest : (s.goTo ⟨.polledFollowUp (message :: rest), skipInitialSteeringPoll, aborted⟩
            (.turnStart (message :: rest) .respond)).Sends (message :: rest) := sends_messages _ .respond rfl rfl
        exact hrest.of_advance [] hrun rfl (List.append_nil _).symm
    | _ => exact s.sends_nil

/-- Only a run that has messages to send holds any. -/
theorem isInjecting_of_inFlight (h : s.inFlight ≠ []) :
    ∃ run, s.activeRun = some run ∧ run.stage.isInjecting = true := by
  cases hrun : s.activeRun with
  | none =>
    rw [inFlight, hrun] at h
    exact absurd rfl h
  | some run =>
    rw [inFlight_eq hrun] at h
    refine ⟨run, rfl, ?_⟩
    cases hstage : run.stage <;> rw [hstage] at h <;> first | rfl | exact absurd rfl h

end Agent

/-! ### The messages of every run -/

open Agent in
/-- **In every run, a message that was queued and not cleared is in its queue once, or is held once
by the active run, or one `message_end` was emitted and it is in the transcript once. The messages
of a queue are sent in the order they were queued. A run holds messages only while it is about to
send them, and it sends them when what it waits for is done.** -/
theorem run_conserves (messages : List AgentMessage) (steeringMode followUpMode : QueueMode) (steps : List Step)
    (s : Agent) (hrun : Machine.run Agent.step (.new messages steeringMode followUpMode) steps = some s) :
    (∀ k, ∀ x ∈ s.accepted k, x ∉ s.cleared →
      (s.queue k).messages.count x + s.inFlight.count x + s.ended.count x = 1 ∧
        s.messages.count x = s.ended.count x) ∧
    (∀ k, (of k s.ended).Sublist (s.accepted k)) ∧
    (s.inFlight ≠ [] → ∃ run, s.activeRun = some run ∧ run.stage.isInjecting = true) ∧
    ∃ n s', Machine.run Agent.step s (List.replicate n (.advance .go)) = some s' ∧
      s'.ended = s.ended ++ s.inFlight := by
  have hkept := (kept_new messages steeringMode followUpMode).of_run hrun
  have hinitial : ∀ x ∈ messages.map (⟨·, none⟩ : AgentMessage → Sent), x.ticket = none := by
    intro x hx
    obtain ⟨message, -, rfl⟩ := List.mem_map.mp hx
    rfl
  refine ⟨fun k x hx hcleared => hkept.count hinitial hx hcleared, fun k => ?_, isInjecting_of_inFlight, sends_inFlight s⟩
  refine List.Sublist.trans ?_ (hkept.order k)
  rw [taken, of_append, List.append_assoc]
  exact List.sublist_append_left _ _

/-- A prompt, and a message steered while it is sent: the run takes the message and emits its
`message_start`. -/
def steered : List Step :=
  [.prompt [.user (.text "a") 0], .enqueue .steering (.user (.text "b") 1), .advance .go, .advance .go, .advance .go,
    .advance .go, .advance .go]

/-- Each message of that run is in one place, also after the `message_end`. -/
theorem steered_conserves :
    ∃ s, Machine.run Agent.step (.new [] .all .oneAtATime) (steered ++ [Step.advance .go]) = some s ∧
      ∀ k, ∀ x ∈ s.accepted k, x ∉ s.cleared →
        (s.queue k).messages.count x + s.inFlight.count x + s.ended.count x = 1 ∧
          s.messages.count x = s.ended.count x :=
  ⟨_, rfl, (run_conserves [] .all .oneAtATime (steered ++ [Step.advance .go]) _ rfl).1⟩

/-- While the listeners of its `message_start` run, a steered message is neither in the queue nor in
the transcript. -/
theorem steered_inFlight :
    ∃ s x, Machine.run Agent.step (.new [] .all .oneAtATime) steered = some s ∧ x ∈ s.accepted .steering ∧
      x ∉ s.cleared ∧ (s.queue .steering).messages = [] ∧ s.ended.count x = 0 ∧ s.messages.count x = 0 :=
  ⟨_, ⟨.user (.text "b") 1, some (.steering, 0)⟩, rfl, List.mem_singleton_self _, List.not_mem_nil, rfl, by decide,
    by decide⟩

end Steering

end Trek
