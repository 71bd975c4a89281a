/-
# Messages for the next turn

What `sendCustomMessage` keeps for the next turn goes to the agent with the next user message
(`prompt` and `_actOnTurn` in `core/agent-session.ts`). `prompt` prepares a turn in many awaited
steps, each of which may throw or end the call, and other operations may come between any two of
them. In the middle it moves the pending messages into the messages of its turn. From there they
are lost when a step throws, when the workflow of the turn is held or run node by node, and when the
agent runs already. A run in which no turn with such messages ends that way loses none
(`run_noneLost`).

The texts an answer is read by are parameters, and so is what an awaited step comes to. Not modelled:
what a call records in the session, the tools and the system prompt it sets, the run of the agent.
-/
import Trek.Domains.Archon
import Trek.Lib.Machine

namespace Trek.NextTurn

open Domains

/-! ### The session -/

/-- A custom message of `sendCustomMessage` or an extension. `object` tells the objects apart. -/
structure CustomMessage where
  object : ℕ
  customType : String
  content : String
  display : Bool
  deriving DecidableEq

/-- The messages of a turn. -/
inductive AgentMessage
  | user (text : String) (images : List String)
  | custom (message : CustomMessage)
  deriving DecidableEq

/-- A task that waits for the facts its workflow misses (`_workflowHold`, `_workflowFactAsk`). -/
structure MissingFacts where
  task : String
  domain : String
  missing : List String
  deriving DecidableEq

/-- `streamingBehavior`. -/
inductive StreamingBehavior
  | steer | followUp
  deriving DecidableEq

/-- The text of a call, as far as it is expanded, and its options. -/
structure Request where
  text : String
  images : List String
  streamingBehavior : Option StreamingBehavior
  expandPromptTemplates : Bool
  deriving DecidableEq

/-- What `prompt` awaits while `messages` is undefined. -/
inductive Preparation
  | extensionCommand | emitInput | takeWorkflowEdit | runDecisionGate | bindLocalCompletion | checkCompaction
  deriving DecidableEq

/-- What `prompt` awaits once it has built its messages. -/
inductive Turn
  | emitBeforeAgentStart | learnFromCorrection | injectMemory | maybeUserDescalate | attachPlanningBrief
  | bindLocalCompletion | runPromptCycle
  deriving DecidableEq

/-- A call of `prompt`. `context`: what its messages have after the user message. Once the agent or
the nodes of a workflow run, it has nothing left to pass. -/
inductive Call
  | preparing (step : Preparation) (request : Request)
  | built (step : Turn) (request : Request) (context : List CustomMessage)
  | acting
  deriving DecidableEq

/-- `messages`. -/
def turnMessages (request : Request) (context : List CustomMessage) : List AgentMessage :=
  .user request.text request.images :: context.map .custom

/-- The custom messages that a call has still to pass. -/
def Call.context : Call → List CustomMessage
  | .built _ _ context => context
  | _ => []

/-- The state of `AgentSession` that `prompt` reads, the calls that have not ended, and what has been
added and what has been passed to the agent. -/
structure AgentSession where
  pendingNextTurnMessages : List CustomMessage
  isStreaming : Bool
  reflectiveLoop : Bool
  workflowFactAsk : Option MissingFacts
  workflowFactsAccepted : Bool
  workflowFactPrefix : Option String
  curiosityOpen : Bool
  workflowHold : Option MissingFacts
  calledWorkflow : Option ArchonWorkflow
  lastPromptTask : String
  calls : OrdMap ℕ Call
  objects : ℕ
  added : List CustomMessage
  passed : List (List AgentMessage)
  deriving DecidableEq

/-- A session at its start. -/
def AgentSession.new (reflectiveLoop : Bool) : AgentSession where
  pendingNextTurnMessages := []
  isStreaming := false
  reflectiveLoop
  workflowFactAsk := none
  workflowFactsAccepted := false
  workflowFactPrefix := none
  curiosityOpen := false
  workflowHold := none
  calledWorkflow := none
  lastPromptTask := ""
  calls := .empty
  objects := 0
  added := []
  passed := []

/-- How `prompt` reads a text. -/
structure Texts where
  expand : String → String
  missingWorkflowFacts : String → String → List String
  workflowFactRefusal : String → Bool
  addsWord : String → Bool
  curiosityQuestion : String → Option String
  stripNewTopicSignal : String → String

/-- The domain of a turn, with its workflow unless its `yaml` is empty. -/
structure Selection where
  domain : String
  workflow : Option ArchonWorkflow

/-- What an awaited step comes to. `threw`: it throws, or what the code does next to it does.
`handled`: the call has nothing left to do. -/
inductive Outcome
  | done
  | handled
  | threw (message : String)
  | transform (text : String) (images : Option (List String))
  | extended (messages : List (String × String × Bool))
  | selected (selection : Selection)

/-- Where a call is after a step. -/
inductive Progress
  | awaits (call : Call)
  | returns
  | throws (message : String)

/-- What happens in a session. `runBegins`, `runEnds`: of the agent, on another way than `prompt`. -/
inductive Input
  | sendNextTurn (customType content : String) (display : Bool)
  | runBegins
  | runEnds
  | prompt (id : ℕ) (request : Request)
  | resume (id : ℕ) (outcome : Outcome)

/-! ### One call -/

section

variable (texts : Texts)

/-- The answer to the question for missing facts. The second part: the call is over. -/
def AgentSession.answerFacts (s : AgentSession) (request : Request) : AgentSession × Bool :=
  match if s.isStreaming then none else s.workflowFactAsk with
  | none => (s, false)
  | some ask =>
    let s := { s with workflowFactAsk := none }
    let still := texts.missingWorkflowFacts ask.domain (ask.task ++ "\n" ++ request.text)
    let named := ask.missing.any fun name => !still.contains name
    let added := texts.addsWord request.text
    if texts.workflowFactRefusal request.text || (!named && !added) then (s, true)
    else ({ s with workflowFactsAccepted := true, workflowFactPrefix := some ask.task }, false)

/-- The question back. The second part: the call is over. -/
def AgentSession.askBack (s : AgentSession) (request : Request) : AgentSession × Bool :=
  if !s.isStreaming && !s.curiosityOpen then
    match texts.curiosityQuestion request.text with
    | some _ => ({ s with curiosityOpen := true }, true)
    | none => (s, false)
  else if !s.isStreaming then ({ s with curiosityOpen := false }, false)
  else (s, false)

/-- `prompt` from the answer to a question to `_runDecisionGate`. -/
def AgentSession.preflight (s : AgentSession) (request : Request) : AgentSession × Progress :=
  let (s, stopped) := s.answerFacts texts request
  if stopped then (s, .returns)
  else
    let (s, asked) := s.askBack texts request
    if asked then (s, .returns)
    else if s.isStreaming then
      match request.streamingBehavior with
      | none => (s, .throws "Agent is already processing. Specify streamingBehavior ('steer' or 'followUp') to queue the message.")
      | some _ => (s, .returns)
    else (s, .awaits (.preparing .runDecisionGate { request with text := texts.stripNewTopicSignal request.text }))

/-- The pending messages become part of the turn. -/
def AgentSession.build (s : AgentSession) (request : Request) : AgentSession × Progress :=
  ({ s with pendingNextTurnMessages := [], lastPromptTask := request.text },
    .awaits (.built .emitBeforeAgentStart request s.pendingNextTurnMessages))

/-- The messages of the extensions as objects of their own. -/
def AgentSession.extend (s : AgentSession) (messages : List (String × String × Bool)) : AgentSession × List CustomMessage :=
  ({ s with objects := s.objects + messages.length },
    messages.mapIdx fun i m => ⟨s.objects + i, m.1, m.2.1, m.2.2⟩)

/-- `_runAgentPrompt` up to the run of the agent. -/
def AgentSession.runAgentPrompt (s : AgentSession) (request : Request) (context : List CustomMessage) :
    AgentSession × Progress :=
  if s.isStreaming then
    (s, .throws "Agent is already processing a prompt. Use steer() or followUp() to queue messages, or wait for completion.")
  else ({ s with isStreaming := true, passed := s.passed ++ [turnMessages request context] }, .awaits .acting)

/-- `onDomainSelected`. -/
def AgentSession.onDomainSelected (s : AgentSession) (selection : Selection) : AgentSession :=
  match selection.workflow with
  | none => s
  | some workflow =>
    let missing := texts.missingWorkflowFacts selection.domain s.lastPromptTask
    if !s.workflowFactsAccepted && !missing.isEmpty then
      { s with workflowHold := some ⟨s.lastPromptTask, selection.domain, missing⟩ }
    else { s with workflowFactsAccepted := false, calledWorkflow := some workflow }

/-- The workflow is called node by node. -/
def callable (workflow : ArchonWorkflow) : Bool :=
  workflow.nodes.all fun node => node.kind == .prompt || node.kind == .bash

/-- `_actOnTurn`. -/
def AgentSession.actOnTurn (s : AgentSession) (request : Request) (context : List CustomMessage) : AgentSession × Progress :=
  match s.workflowHold with
  | some hold => ({ s with workflowHold := none, workflowFactAsk := some hold }, .returns)
  | none =>
    let workflow := s.calledWorkflow
    let s := { s with calledWorkflow := none }
    if workflow.any callable then (s, .awaits .acting) else s.runAgentPrompt request context

/-- `runPromptCycle` up to `act`, its task with the one that waited for facts. -/
def AgentSession.beginCycle (s : AgentSession) : AgentSession :=
  match s.workflowFactPrefix with
  | none => s
  | some task => { s with lastPromptTask := task ++ "\n" ++ s.lastPromptTask, workflowFactPrefix := none }

/-- `prompt` from the expansion of the text to `_takeWorkflowEdit`, which a running agent leaves out. -/
def AgentSession.expandText (s : AgentSession) (request : Request) : AgentSession × Progress :=
  let request := if request.expandPromptTemplates then { request with text := texts.expand request.text } else request
  if s.isStreaming then s.preflight texts request else (s, .awaits (.preparing .takeWorkflowEdit request))

/-- A call goes on that has no messages yet. -/
def AgentSession.prepare (s : AgentSession) (request : Request) : Preparation → Outcome → Option (AgentSession × Progress)
  | .extensionCommand, .handled => some (s, .returns)
  | .extensionCommand, .done => some (s, .awaits (.preparing .emitInput request))
  | .emitInput, .handled => some (s, .returns)
  | .emitInput, .done => some (s.expandText texts request)
  | .emitInput, .transform text images =>
    some (s.expandText texts { request with text, images := images.getD request.images })
  | .takeWorkflowEdit, .handled => some (s, .returns)
  | .takeWorkflowEdit, .done => some (s.preflight texts request)
  | .runDecisionGate, .handled => some (s, .returns)
  | .runDecisionGate, .done => some (s, .awaits (.preparing .bindLocalCompletion request))
  | .bindLocalCompletion, .done => some (s, .awaits (.preparing .checkCompaction request))
  | .checkCompaction, .done => some (s.build request)
  | _, .threw message => some (s, .throws message)
  | _, _ => none

/-- A call goes on that has its messages. -/
def AgentSession.turn (s : AgentSession) (request : Request) (context : List CustomMessage) :
    Turn → Outcome → Option (AgentSession × Progress)
  | .emitBeforeAgentStart, .done => some (s, .awaits (.built .learnFromCorrection request context))
  | .emitBeforeAgentStart, .extended messages =>
    let (s, objects) := s.extend messages
    some (s, .awaits (.built .learnFromCorrection request (context ++ objects)))
  | .learnFromCorrection, .done => some (s, .awaits (.built .injectMemory request context))
  | .injectMemory, .done => some (s, .awaits (.built .maybeUserDescalate request context))
  | .maybeUserDescalate, .done => some (s, .awaits (.built .attachPlanningBrief request context))
  | .attachPlanningBrief, .done => some (s, .awaits (.built .bindLocalCompletion request context))
  | .bindLocalCompletion, .done =>
    if s.reflectiveLoop then some (s.beginCycle, .awaits (.built .runPromptCycle request context))
    else some (s.runAgentPrompt request context)
  | .runPromptCycle, .selected selection => some ((s.onDomainSelected texts selection).actOnTurn request context)
  | _, .threw message => some (s, .throws message)
  | _, _ => none

/-- A call goes on where it awaits. -/
def AgentSession.resume (s : AgentSession) : Call → Outcome → Option (AgentSession × Progress)
  | .preparing step request, outcome => s.prepare texts request step outcome
  | .built step request context, outcome => s.turn texts request context step outcome
  | .acting, .done => some (s, .returns)
  | .acting, .threw message => some (s, .throws message)
  | .acting, _ => none

/-- One step. -/
def AgentSession.step (s : AgentSession) : Input → Option AgentSession
  | .sendNextTurn customType content display =>
    let message := ⟨s.objects, customType, content, display⟩
    some { s with
      objects := s.objects + 1
      pendingNextTurnMessages := s.pendingNextTurnMessages ++ [message]
      added := s.added ++ [message] }
  | .runBegins => if s.isStreaming then none else some { s with isStreaming := true }
  | .runEnds => if s.isStreaming then some { s with isStreaming := false } else none
  | .prompt id request =>
    match s.calls.get? id with
    | some _ => none
    | none => some { s with calls := s.calls.set id (.preparing .extensionCommand request) }
  | .resume id outcome =>
    match s.calls.get? id with
    | none => none
    | some call =>
      match s.resume texts call outcome with
      | none => none
      | some (s, .awaits call) => some { s with calls := s.calls.set id call }
      | some (s, _) => some { s with calls := s.calls.delete id }

/-! ### What is kept -/

variable {texts} {s s' : AgentSession} {message : CustomMessage}

/-- The agent has got a message, and a user message with it. -/
def Passed (s : AgentSession) (message : CustomMessage) : Prop :=
  ∃ messages ∈ s.passed, .custom message ∈ messages ∧ ∃ text images, .user text images ∈ messages

/-- Every message that was added is pending, or the agent has got it with a user message, or a call
that has not ended has it among its messages. -/
def NoneLost (s : AgentSession) : Prop :=
  ∀ message ∈ s.added, message ∈ s.pendingNextTurnMessages ∨ Passed s message ∨
    ∃ id call, s.calls.get? id = some call ∧ message ∈ call.context

/-- One of the messages was added for a turn. -/
def Carries (s : AgentSession) (context : List CustomMessage) : Prop := ∃ message ∈ s.added, message ∈ context

/-- A call passes its messages on: its step does not throw, and where it comes to `_runAgentPrompt` the
agent is at rest and the turn has no workflow that is held or called node by node. -/
def Delivers (texts : Texts) (s : AgentSession) : Call → Outcome → Prop
  | _, .threw _ => False
  | .built .bindLocalCompletion _ _, .done => s.reflectiveLoop = false → s.isStreaming = false
  | .built .runPromptCycle _ _, .selected selection =>
    s.isStreaming = false ∧ (s.onDomainSelected texts selection).workflowHold = none ∧
      (s.onDomainSelected texts selection).calledWorkflow.any callable = false
  | _, _ => True

/-- A call whose messages have one that was added for the turn passes them on. -/
def Kept (texts : Texts) (s : AgentSession) : Input → Prop
  | .resume id outcome => ∀ call, s.calls.get? id = some call → Carries s call.context → Delivers texts s call outcome
  | _ => True

instance (s : AgentSession) (context : List CustomMessage) : Decidable (Carries s context) :=
  inferInstanceAs (Decidable (∃ message ∈ s.added, message ∈ context))

instance (texts : Texts) (s : AgentSession) (call : Call) (outcome : Outcome) : Decidable (Delivers texts s call outcome) := by
  unfold Delivers
  split <;> infer_instance

instance (texts : Texts) (s : AgentSession) (input : Input) : Decidable (Kept texts s input) :=
  match input with
  | .resume id outcome =>
    match hc : s.calls.get? id with
    | none => isTrue fun call h => by simp [hc] at h
    | some call => decidable_of_iff (Carries s call.context → Delivers texts s call outcome)
      ⟨fun h call' h' => by rw [hc] at h'; exact Option.some.inj h' ▸ h, fun h => h call hc⟩
  | .sendNextTurn _ _ _ => isTrue trivial
  | .runBegins => isTrue trivial
  | .runEnds => isTrue trivial
  | .prompt _ _ => isTrue trivial

/-! ### One step -/

/-- The messages of a session are where they were. -/
structure SameMessages (s s' : AgentSession) : Prop where
  pending : s'.pendingNextTurnMessages = s.pendingNextTurnMessages
  passed : s'.passed = s.passed
  added : s'.added = s.added
  calls : s'.calls = s.calls

theorem SameMessages.refl (s : AgentSession) : SameMessages s s := ⟨rfl, rfl, rfl, rfl⟩

theorem SameMessages.trans {s'' : AgentSession} (h : SameMessages s s') (h' : SameMessages s' s'') : SameMessages s s'' :=
  ⟨h'.pending.trans h.pending, h'.passed.trans h.passed, h'.added.trans h.added, h'.calls.trans h.calls⟩

theorem SameMessages.passed_of (h : SameMessages s s') (hp : Passed s message) : Passed s' message := by
  unfold Passed
  rw [h.passed]
  exact hp

theorem answerFacts_same (texts : Texts) (s : AgentSession) (request : Request) : SameMessages s (s.answerFacts texts request).1 := by
  unfold AgentSession.answerFacts
  split
  · exact .refl s
  · dsimp only
    split
    · exact ⟨rfl, rfl, rfl, rfl⟩
    · exact ⟨rfl, rfl, rfl, rfl⟩

theorem askBack_same (texts : Texts) (s : AgentSession) (request : Request) : SameMessages s (s.askBack texts request).1 := by
  unfold AgentSession.askBack
  split
  · split
    · exact ⟨rfl, rfl, rfl, rfl⟩
    · exact .refl s
  · split
    · exact ⟨rfl, rfl, rfl, rfl⟩
    · exact .refl s

theorem preflight_same (s : AgentSession) (request : Request) : SameMessages s (s.preflight texts request).1 := by
  have hfacts := answerFacts_same texts s request
  have hback := hfacts.trans (askBack_same texts (s.answerFacts texts request).1 request)
  unfold AgentSession.preflight
  dsimp only
  split
  · exact hfacts
  · split
    · exact hback
    · split
      · split
        · exact hback
        · exact hback
      · exact hback

theorem expandText_same (s : AgentSession) (request : Request) : SameMessages s (s.expandText texts request).1 := by
  unfold AgentSession.expandText
  dsimp only
  split
  · exact preflight_same s _
  · exact .refl s

theorem onDomainSelected_same (texts : Texts) (s : AgentSession) (selection : Selection) :
    SameMessages s (s.onDomainSelected texts selection) := by
  unfold AgentSession.onDomainSelected
  split
  · exact .refl s
  · dsimp only
    split
    · exact ⟨rfl, rfl, rfl, rfl⟩
    · exact ⟨rfl, rfl, rfl, rfl⟩

theorem onDomainSelected_isStreaming (s : AgentSession) (selection : Selection) :
    (s.onDomainSelected texts selection).isStreaming = s.isStreaming := by
  unfold AgentSession.onDomainSelected
  split
  · rfl
  · dsimp only
    split
    · rfl
    · rfl

theorem beginCycle_same (s : AgentSession) : SameMessages s s.beginCycle := by
  unfold AgentSession.beginCycle
  split
  · exact .refl s
  · exact ⟨rfl, rfl, rfl, rfl⟩

/-- The messages that a call has left after a step. -/
def Progress.context : Progress → List CustomMessage
  | .awaits call => call.context
  | _ => []

/-- What a step keeps of a call that had some messages. -/
structure StepKeeps (context : List CustomMessage) (s : AgentSession) (r : AgentSession × Progress) : Prop where
  added : r.1.added = s.added
  calls : r.1.calls = s.calls
  passed : ∀ message, Passed s message → Passed r.1 message
  pending : ∀ message ∈ s.pendingNextTurnMessages, message ∈ r.1.pendingNextTurnMessages ∨ message ∈ r.2.context
  own : ∀ message ∈ s.added, message ∈ context → Passed r.1 message ∨ message ∈ r.2.context

variable {request : Request} {context : List CustomMessage} {r : AgentSession × Progress} {outcome : Outcome}

/-- A step that leaves the messages where they are keeps those of the call if the call still has them. -/
theorem SameMessages.keeps (h : SameMessages s r.1) (hown : Carries s context → context ⊆ r.2.context) :
    StepKeeps context s r where
  added := h.added
  calls := h.calls
  passed _ := h.passed_of
  pending _ hm := Or.inl (by rwa [h.pending])
  own message hadded hm := Or.inr (hown ⟨message, hadded, hm⟩ hm)

/-- An agent at rest gets the messages of the turn. -/
theorem runAgentPrompt_keeps (s : AgentSession) (request : Request) (hrest : Carries s context → s.isStreaming = false) :
    StepKeeps context s (s.runAgentPrompt request context) := by
  unfold AgentSession.runAgentPrompt
  by_cases hs : s.isStreaming = true
  · rw [if_pos hs]
    refine SameMessages.keeps (.refl s) fun hcarries => ?_
    rw [hrest hcarries] at hs
    cases hs
  · rw [if_neg hs]
    refine ⟨rfl, rfl, fun _ ⟨messages, hmem, h⟩ => ⟨messages, List.mem_append_left _ hmem, h⟩, fun _ => Or.inl,
      fun message _ hm => Or.inl ?_⟩
    refine ⟨turnMessages request context, List.mem_append_right _ (List.mem_singleton_self _), ?_, request.text, request.images, ?_⟩
    · exact List.mem_cons_of_mem _ (List.mem_map_of_mem hm)
    · exact List.mem_cons_self

theorem actOnTurn_keeps (s : AgentSession) (request : Request) (hrest : Carries s context →
    s.isStreaming = false ∧ s.workflowHold = none ∧ s.calledWorkflow.any callable = false) :
    StepKeeps context s (s.actOnTurn request context) := by
  unfold AgentSession.actOnTurn
  split
  · rename_i hold hhold
    refine SameMessages.keeps ⟨rfl, rfl, rfl, rfl⟩ fun hcarries => ?_
    rw [hhold] at hrest
    cases (hrest hcarries).2.1
  · dsimp only
    split
    · rename_i hcall
      refine SameMessages.keeps ⟨rfl, rfl, rfl, rfl⟩ fun hcarries => ?_
      rw [(hrest hcarries).2.2] at hcall
      cases hcall
    · have hrun := runAgentPrompt_keeps { s with calledWorkflow := none } request fun hcarries => (hrest hcarries).1
      exact ⟨hrun.added, hrun.calls, hrun.passed, hrun.pending, hrun.own⟩

theorem prepare_keeps {step : Preparation} (hs : s.prepare texts request step outcome = some r) :
    StepKeeps [] s r := by
  have hnone : Carries s [] → [] ⊆ r.2.context := fun _ => List.nil_subset _
  cases step with
  | emitInput =>
    cases outcome with
    | done =>
      obtain rfl := Option.some.inj hs
      exact (expandText_same s _).keeps hnone
    | transform text images =>
      obtain rfl := Option.some.inj hs
      exact (expandText_same s _).keeps hnone
    | handled =>
      obtain rfl := Option.some.inj hs
      exact SameMessages.keeps (.refl s) hnone
    | threw =>
      obtain rfl := Option.some.inj hs
      exact SameMessages.keeps (.refl s) hnone
    | extended => cases hs
    | selected => cases hs
  | takeWorkflowEdit =>
    cases outcome with
    | done =>
      obtain rfl := Option.some.inj hs
      exact (preflight_same s _).keeps hnone
    | handled =>
      obtain rfl := Option.some.inj hs
      exact SameMessages.keeps (.refl s) hnone
    | threw =>
      obtain rfl := Option.some.inj hs
      exact SameMessages.keeps (.refl s) hnone
    | transform => cases hs
    | extended => cases hs
    | selected => cases hs
  | checkCompaction =>
    cases outcome with
    | done =>
      -- the pending messages become those of the call
      obtain rfl := Option.some.inj hs
      exact ⟨rfl, rfl, fun _ => id, fun _ => Or.inr, fun _ _ hm => (by cases hm)⟩
    | threw =>
      obtain rfl := Option.some.inj hs
      exact SameMessages.keeps (.refl s) hnone
    | handled => cases hs
    | transform => cases hs
    | extended => cases hs
    | selected => cases hs
  | _ =>
    cases outcome
    all_goals
      cases hs
      try exact SameMessages.keeps (.refl s) hnone

theorem turn_keeps {step : Turn} (hs : s.turn texts request context step outcome = some r)
    (hd : Carries s context → Delivers texts s (.built step request context) outcome) : StepKeeps context s r := by
  cases outcome with
  | threw error =>
    have hr : some (s, Progress.throws error) = some r := by cases step <;> exact hs
    obtain rfl := Option.some.inj hr
    exact SameMessages.keeps (.refl s) fun hcarries => (by cases step <;> exact (hd hcarries).elim)
  | done =>
    cases step with
    | bindLocalCompletion =>
      simp only [AgentSession.turn] at hs
      split at hs
      · obtain rfl := Option.some.inj hs
        exact (beginCycle_same s).keeps fun _ => List.Subset.refl _
      · rename_i hloop
        obtain rfl := Option.some.inj hs
        exact runAgentPrompt_keeps s request fun hcarries => hd hcarries (Bool.not_eq_true _ ▸ hloop)
    | runPromptCycle => cases hs
    | _ =>
      obtain rfl := Option.some.inj hs
      exact SameMessages.keeps (.refl s) fun _ => List.Subset.refl _
  | extended messages =>
    cases step with
    | emitBeforeAgentStart =>
      obtain rfl := Option.some.inj hs
      exact SameMessages.keeps ⟨rfl, rfl, rfl, rfl⟩ fun _ => List.subset_append_left _ _
    | _ => cases hs
  | selected selection =>
    cases step with
    | runPromptCycle =>
      obtain rfl := Option.some.inj hs
      have hsame := onDomainSelected_same texts s selection
      have hcarries : Carries (s.onDomainSelected texts selection) context → Carries s context := by
        unfold Carries
        rw [hsame.added]
        exact id
      have hact : StepKeeps context (s.onDomainSelected texts selection) _ :=
        actOnTurn_keeps (s.onDomainSelected texts selection) request fun hc =>
          ⟨(onDomainSelected_isStreaming s selection).trans (hd (hcarries hc)).1, (hd (hcarries hc)).2⟩
      refine ⟨hact.added.trans hsame.added, hact.calls.trans hsame.calls, fun m hp => hact.passed m (hsame.passed_of hp),
        fun m hm => hact.pending m ?_, fun m hadded hm => hact.own m ?_ hm⟩
      · rwa [hsame.pending]
      · rwa [hsame.added]
    | _ => cases hs
  | handled => cases step <;> cases hs
  | transform => cases step <;> cases hs

theorem resume_keeps {call : Call} (hs : s.resume texts call outcome = some r)
    (hd : Carries s call.context → Delivers texts s call outcome) : StepKeeps call.context s r := by
  cases call with
  | preparing step request => exact prepare_keeps hs
  | built step request context => exact turn_keeps hs hd
  | acting =>
    have hnone : Carries s [] → [] ⊆ r.2.context := fun _ => List.nil_subset _
    cases outcome with
    | done =>
      obtain rfl := Option.some.inj hs
      exact SameMessages.keeps (.refl s) hnone
    | threw =>
      obtain rfl := Option.some.inj hs
      exact SameMessages.keeps (.refl s) hnone
    | handled => cases hs
    | transform => cases hs
    | extended => cases hs
    | selected => cases hs

/-! ### A run -/

theorem noneLost_new (reflectiveLoop : Bool) : NoneLost (.new reflectiveLoop) := fun message hm => (by cases hm)

/-- A call that goes on has left what it had to pass with the call it has become. -/
theorem StepKeeps.noneLost {id : ℕ} {call : Call} {calls : OrdMap ℕ Call} (h : StepKeeps call.context s r)
    (hinv : NoneLost s) (hc : s.calls.get? id = some call) (hother : ∀ id' ≠ id, calls.get? id' = s.calls.get? id')
    (hnext : ∀ message ∈ r.2.context, ∃ call', calls.get? id = some call' ∧ message ∈ call'.context) :
    NoneLost { r.1 with calls } := by
  intro message hm
  have hadded : message ∈ s.added := h.added ▸ hm
  rcases hinv message hadded with hpending | hpassed | ⟨id', call', hc', hmem⟩
  · rcases h.pending message hpending with hp | hp
    · exact Or.inl hp
    · exact Or.inr (Or.inr ⟨id, hnext message hp⟩)
  · exact Or.inr (Or.inl (h.passed message hpassed))
  · by_cases hid : id' = id
    · subst hid
      rw [hc] at hc'
      obtain rfl := Option.some.inj hc'
      rcases h.own message hadded hmem with hp | hp
      · exact Or.inr (Or.inl hp)
      · exact Or.inr (Or.inr ⟨id', hnext message hp⟩)
    · exact Or.inr (Or.inr ⟨id', call', (hother id' hid).trans hc', hmem⟩)

theorem NoneLost.step {input : Input} (hinv : NoneLost s) (hkept : Kept texts s input)
    (hs : s.step texts input = some s') : NoneLost s' := by
  cases input with
  | sendNextTurn customType content display =>
    obtain rfl := Option.some.inj hs
    intro message hm
    rcases List.mem_append.mp hm with hm | hm
    · exact (hinv message hm).imp (List.mem_append_left _) id
    · exact Or.inl (List.mem_append_right _ hm)
  | runBegins =>
    simp only [AgentSession.step] at hs
    split at hs
    · cases hs
    · obtain rfl := Option.some.inj hs
      exact hinv
  | runEnds =>
    simp only [AgentSession.step] at hs
    split at hs
    · obtain rfl := Option.some.inj hs
      exact hinv
    · cases hs
  | prompt id request =>
    simp only [AgentSession.step] at hs
    split at hs
    · cases hs
    · rename_i hnone
      obtain rfl := Option.some.inj hs
      intro message hm
      refine (hinv message hm).imp_right (Or.imp_right fun ⟨id', call', hc', hmem⟩ => ⟨id', call', ?_, hmem⟩)
      have hid : id' ≠ id := fun h => by simp [h, hnone] at hc'
      exact (OrdMap.get?_set_ne _ _ hid).trans hc'
  | resume id outcome =>
    simp only [AgentSession.step] at hs
    split at hs
    · cases hs
    · rename_i call hc
      have hkeeps := fun r hr => @resume_keeps texts s r outcome call hr (hkept call hc)
      split at hs
      · cases hs
      · rename_i t call' hr
        obtain rfl := Option.some.inj hs
        have hcalls : t.calls = s.calls := (hkeeps _ hr).calls
        refine (hkeeps _ hr).noneLost hinv hc (fun id' hid => ?_) fun message hm => ⟨call', OrdMap.get?_set_self _ _ _, hm⟩
        rw [OrdMap.get?_set_ne _ _ hid, hcalls]
      · rename_i t progress hends hr
        obtain rfl := Option.some.inj hs
        have hcalls : t.calls = s.calls := (hkeeps _ hr).calls
        refine (hkeeps _ hr).noneLost hinv hc (fun id' hid => ?_) fun message hm => ?_
        · rw [OrdMap.get?_delete, if_neg hid, hcalls]
        · cases progress with
          | awaits call' => exact (hends call' rfl).elim
          | returns => cases hm
          | throws => cases hm

/-- **In every run in which each call with messages that were added for its turn passes them on, none
of the messages is lost.** -/
theorem run_noneLost (texts : Texts) (reflectiveLoop : Bool) (inputs : List Input) (s : AgentSession)
    (hkept : Machine.Throughout (AgentSession.step texts) (Kept texts) (.new reflectiveLoop) inputs)
    (hrun : Machine.run (AgentSession.step texts) (.new reflectiveLoop) inputs = some s) : NoneLost s :=
  Machine.inv_throughout (fun _ _ _ hinv hkept hs => hinv.step hkept hs) inputs (noneLost_new reflectiveLoop) hkept hrun

end

/-! ### A workflow that is held -/

variable {texts : Texts} {s : AgentSession}

/-- Texts that answer no question, for a workflow that misses a fact. -/
def askingTexts : Texts where
  expand := id
  missingWorkflowFacts _ _ := ["amount"]
  workflowFactRefusal _ := false
  addsWord _ := true
  curiosityQuestion _ := none
  stripNewTopicSignal := id

/-- A message is added, and a call prepares its turn up to `runPromptCycle`. -/
def toPromptCycle : List Input :=
  [Input.sendNextTurn "note" "aside" true, .prompt 0 ⟨"pay", [], none, true⟩] ++ List.replicate 12 (Input.resume 0 .done)

/-- The workflow of the turn is held for a missing fact. -/
def heldRun : List Input := toPromptCycle ++ [Input.resume 0 (.selected ⟨"invoices", some ⟨"pay", "", []⟩⟩)]

/-- The call ends with a question for the fact, and the message is nowhere. -/
theorem heldRun_not_noneLost :
    ∃ s, Machine.run (AgentSession.step askingTexts) (.new true) heldRun = some s ∧ s.calls = .empty ∧ ¬ NoneLost s := by
  have hend : (Machine.run (AgentSession.step askingTexts) (.new true) heldRun).map (fun s =>
      (s.calls, s.pendingNextTurnMessages, s.passed, s.added)) = some (.empty, [], [], [⟨0, "note", "aside", true⟩]) := by
    decide
  obtain ⟨s, hs, hs'⟩ := Option.map_eq_some_iff.mp hend
  simp only [Prod.mk.injEq] at hs'
  obtain ⟨hcalls, hpending, hpassed, hadded⟩ := hs'
  refine ⟨s, hs, hcalls, fun h => ?_⟩
  rcases h ⟨0, "note", "aside", true⟩ (hadded ▸ List.mem_singleton_self _) with hm | ⟨messages, hm, -⟩ | ⟨id, call, hc, -⟩
  · rw [hpending] at hm
    cases hm
  · rw [hpassed] at hm
    cases hm
  · rw [hcalls] at hc
    cases hc

/-- A turn without a domain passes the message to the agent. -/
def calledRun : List Input := toPromptCycle ++ [Input.resume 0 (.selected ⟨"none", none⟩), .resume 0 .done]

theorem calledRun_noneLost :
    ∃ s, Machine.run (AgentSession.step askingTexts) (.new true) calledRun = some s ∧ NoneLost s := by
  obtain ⟨s, hs⟩ := Option.isSome_iff_exists.mp
    (show (Machine.run (AgentSession.step askingTexts) (.new true) calledRun).isSome = true by decide)
  exact ⟨s, hs, run_noneLost askingTexts true calledRun s (by decide) hs⟩

end Trek.NextTurn
