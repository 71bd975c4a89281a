/-
# The event protocol of an agent run

What the events of a run have to look like (`Protocol`), and a monitor that
reads them one by one. A trace that the monitor accepts to its end keeps the
protocol (`Monitor.protocol_of_accept`); updates of tools leave the state of the
monitor alone, and after `agent_end` it accepts nothing.
-/
import Trek.Agent.Events
import Mathlib.Data.List.Nodup
import Mathlib.Data.List.Infix

namespace Trek

/-! ### What is read off a trace -/

/-- The ids of the calls that are started. -/
def startIds (trace : List AgentEvent) : List String :=
  trace.filterMap fun
    | .toolExecutionStart id _ _ => some id
    | _ => none

/-- The ids of the calls that are ended. -/
def endIds (trace : List AgentEvent) : List String :=
  trace.filterMap fun
    | .toolExecutionEnd id _ _ _ => some id
    | _ => none

/-- The messages with a `message_end`. -/
def endedMessages (trace : List AgentEvent) : List AgentMessage :=
  trace.filterMap fun
    | .messageEnd m => some m
    | _ => none

/-- The tool results among them. -/
def resultMessages (trace : List AgentEvent) : List ToolResultMessage :=
  (endedMessages trace).filterMap fun
    | .toolResult r => some r
    | _ => none

/-- `tool_execution_start`. -/
def AgentEvent.isToolStart : AgentEvent → Bool
  | .toolExecutionStart .. => true
  | _ => false

/-- The part of a turn in which tools are executed. Tool results before it are
messages from a queue. -/
def executionPart (turn : List AgentEvent) : List AgentEvent := turn.dropWhile (!·.isToolStart)

/-! ### The protocol -/

/-- A turn up to its `turn_end`: the calls that are started are the first ones
of the message, each is ended after its start and has its result message after
its end, and the result messages are in the order of the calls. -/
structure TurnOk (turn : List AgentEvent) (message : AssistantMessage) (toolResults : List ToolResultMessage) :
    Prop where
  order : startIds turn <+: message.toolCalls.map (·.id)
  ended : (endIds turn).Perm (startIds turn)
  results : resultMessages (executionPart turn) = toolResults
  answered : toolResults.map (·.toolCallId) = startIds turn
  after : ∀ a b, turn = a ++ b → ∀ id, (endIds a).count id ≤ (startIds a).count id ∧
    ((resultMessages (executionPart a)).map (·.toolCallId)).count id ≤ (endIds a).count id

/-- Every turn that is over is as it should be. -/
def TurnsOk (trace : List AgentEvent) : Prop :=
  ∀ front turn message toolResults rest, trace = front ++ turn ++ AgentEvent.turnEnd message toolResults :: rest →
    (front = [] ∨ ∃ f m r, front = f ++ [AgentEvent.turnEnd m r]) → (∀ m r, .turnEnd m r ∉ turn) →
    TurnOk turn message toolResults

/-- The protocol of a run that was started with `prompts`. -/
structure Protocol (prompts : List AgentMessage) (trace : List AgentEvent) : Prop where
  first : ∃ rest, trace = .agentStart :: rest ∧ .agentStart ∉ rest
  last : ∃ front messages, trace = front ++ [AgentEvent.agentEnd messages] ∧ (∀ m, .agentEnd m ∉ front) ∧
    endedMessages front = messages ∧ prompts <+: messages
  turns : TurnsOk trace
  closed : ∀ front id name args rest, trace = front ++ AgentEvent.toolExecutionStart id name args :: rest →
    ∃ m r, .turnEnd m r ∈ rest

section

variable (a b : List AgentEvent)

@[simp] theorem startIds_append : startIds (a ++ b) = startIds a ++ startIds b := List.filterMap_append

@[simp] theorem endIds_append : endIds (a ++ b) = endIds a ++ endIds b := List.filterMap_append

@[simp] theorem endedMessages_append : endedMessages (a ++ b) = endedMessages a ++ endedMessages b :=
  List.filterMap_append

@[simp] theorem resultMessages_append : resultMessages (a ++ b) = resultMessages a ++ resultMessages b := by
  rw [resultMessages, endedMessages_append, List.filterMap_append]
  rfl

end

theorem executionPart_append_start : ∀ (a b : List AgentEvent) {e : AgentEvent}, e.isToolStart = true →
    executionPart (a ++ e :: b) = executionPart a ++ e :: b
  | [], b, e, h => by simp [executionPart, h]
  | x :: a, b, e, h => by
    have ih := executionPart_append_start a b h
    unfold executionPart at ih ⊢
    cases hx : x.isToolStart with
    | true => simp [hx]
    | false => simpa [hx] using ih

/-- If no two calls of the turn have the same id, every start is followed by one
end and one result message of its call. -/
theorem TurnOk.exactly_one {turn : List AgentEvent} {message : AssistantMessage}
    {toolResults : List ToolResultMessage} (h : TurnOk turn message toolResults) (hn : (startIds turn).Nodup)
    {a b : List AgentEvent} {id name : String} {args : Json}
    (ht : turn = a ++ .toolExecutionStart id name args :: b) :
    (endIds b).count id = 1 ∧ ((resultMessages b).map (·.toolCallId)).count id = 1 := by
  obtain ⟨h1, h2⟩ := h.after a _ ht id
  have hs : startIds turn = startIds a ++ id :: startIds b := by rw [ht, startIds_append]; rfl
  have he : endIds turn = endIds a ++ endIds b := by rw [ht, endIds_append]; rfl
  have hr : resultMessages (executionPart turn) = resultMessages (executionPart a) ++ resultMessages b := by
    rw [ht, executionPart_append_start a b (e := .toolExecutionStart id name args) rfl, resultMessages_append]
    rfl
  have hone : (startIds turn).count id = 1 := List.count_eq_one_of_mem hn (by rw [hs]; simp)
  have hend := (h.ended.count_eq id).trans hone
  have hres : (toolResults.map (·.toolCallId)).count id = 1 := by rw [h.answered, hone]
  rw [← h.results, hr, List.map_append, List.count_append] at hres
  rw [he, List.count_append] at hend
  rw [hs, List.count_append, List.count_cons_self] at hone
  omega

/-! ### The monitor -/

/-- Where a run is. -/
inductive AgentPhase
  | idle | running | ended
  deriving DecidableEq

/-- What the monitor knows: the phase, the messages that have ended, and of the
current turn the calls that are started, those that are ended, and their result
messages. -/
structure Monitor where
  phase : AgentPhase
  messages : List AgentMessage
  started : List String
  ended : List String
  results : List ToolResultMessage
  deriving DecidableEq

namespace Monitor

/-- Before the run. -/
def init : Monitor := ⟨.idle, [], [], [], []⟩

/-- In a run, between the tool executions of its turns. -/
def between (messages : List AgentMessage) : Monitor := ⟨.running, messages, [], [], []⟩

/-- The message of a `message_end`. It is the result of a call once a call of
the turn is started. -/
def message (σ : Monitor) (m : AgentMessage) : Option Monitor :=
  match m with
  | .toolResult r =>
    if σ.started = [] then some { σ with messages := σ.messages ++ [m] }
    else if (σ.results.map (·.toolCallId)).count r.toolCallId < σ.ended.count r.toolCallId then
      some { σ with messages := σ.messages ++ [m], results := σ.results ++ [r] }
    else none
  | _ => some { σ with messages := σ.messages ++ [m] }

/-- An event in a run. -/
def running (σ : Monitor) : AgentEvent → Option Monitor
  | .agentStart => none
  | .agentEnd messages =>
    if messages = σ.messages ∧ σ.started = [] then some { σ with phase := .ended } else none
  | .turnEnd message toolResults =>
    if σ.started <+: message.toolCalls.map (·.id) ∧ σ.ended.Perm σ.started ∧ σ.results = toolResults ∧
        toolResults.map (·.toolCallId) = σ.started then
      some (between σ.messages)
    else none
  | .messageEnd m => σ.message m
  | .toolExecutionStart id _ _ => some { σ with started := σ.started ++ [id] }
  | .toolExecutionEnd id _ _ _ =>
    if σ.ended.count id < σ.started.count id then some { σ with ended := σ.ended ++ [id] } else none
  | .turnStart | .messageStart _ | .messageUpdate _ _ | .toolExecutionUpdate .. => some σ

/-- An event at any time. -/
def step (σ : Monitor) (e : AgentEvent) : Option Monitor :=
  match σ.phase with
  | .idle => if e = .agentStart then some { σ with phase := .running } else none
  | .running => σ.running e
  | .ended => none

/-- The state after some events, if the monitor accepts them. -/
def accept (σ : Monitor) : List AgentEvent → Option Monitor
  | [] => some σ
  | e :: trace => (σ.step e).bind fun σ => accept σ trace

theorem accept_append (σ : Monitor) : ∀ (a b : List AgentEvent),
    accept σ (a ++ b) = (accept σ a).bind fun σ => accept σ b
  | [], _ => rfl
  | e :: a, b => by
    simp only [List.cons_append, accept]
    cases σ.step e with
    | none => rfl
    | some σ' => exact accept_append σ' a b

theorem accept_singleton (σ : Monitor) (e : AgentEvent) : accept σ [e] = σ.step e := by
  simp only [accept]
  cases σ.step e <;> rfl

/-! ### What the monitor knows -/

/-- Nothing comes of an event that starts or ends nothing. -/
theorem tracks_quiet (σ : Monitor) {e : AgentEvent} (hm : endedMessages [e] = [])
    (hs : startIds [e] = []) (he : endIds [e] = []) :
    σ.messages = σ.messages ++ endedMessages [e] ∧
      ((∀ m r, e ≠ .turnEnd m r) → σ.started = σ.started ++ startIds [e] ∧ σ.ended = σ.ended ++ endIds [e] ∧
        σ.results = σ.results ++ (if σ.started = [] then [] else resultMessages [e])) := by
  simp [hm, hs, he, resultMessages]

/-- What one event changes. -/
theorem step_tracks {σ σ' : Monitor} {e : AgentEvent} (h : σ.step e = some σ') :
    σ'.messages = σ.messages ++ endedMessages [e] ∧
      ((∀ m r, e ≠ .turnEnd m r) → σ'.started = σ.started ++ startIds [e] ∧ σ'.ended = σ.ended ++ endIds [e] ∧
        σ'.results = σ.results ++ (if σ.started = [] then [] else resultMessages [e])) := by
  unfold step at h
  cases hp : σ.phase with
  | idle =>
    simp only [hp, Option.ite_none_right_eq_some, Option.some.injEq] at h
    obtain ⟨rfl, rfl⟩ := h
    exact tracks_quiet σ rfl rfl rfl
  | ended => simp [hp] at h
  | running =>
    simp only [hp] at h
    cases e with
    | messageEnd m =>
      simp only [running, message] at h
      cases m with
      | toolResult r =>
        by_cases hs : σ.started = []
        · simp only [if_pos hs] at h
          obtain rfl := Option.some.inj h
          exact ⟨rfl, fun _ => ⟨(List.append_nil _).symm, (List.append_nil _).symm, by rw [if_pos hs, List.append_nil]⟩⟩
        · simp only [hs, ↓reduceIte, Option.ite_none_right_eq_some, Option.some.injEq] at h
          obtain ⟨-, rfl⟩ := h
          exact ⟨rfl, fun _ => ⟨(List.append_nil _).symm, (List.append_nil _).symm, by rw [if_neg hs]; rfl⟩⟩
      | _ =>
        obtain rfl := Option.some.inj h
        refine ⟨rfl, fun _ => ⟨(List.append_nil _).symm, (List.append_nil _).symm, ?_⟩⟩
        split <;> exact (List.append_nil _).symm
    | turnEnd m r =>
      simp only [running, Option.ite_none_right_eq_some, Option.some.injEq] at h
      obtain ⟨-, rfl⟩ := h
      exact ⟨(List.append_nil _).symm, fun hturn => absurd rfl (hturn m r)⟩
    | agentStart => simp [running] at h
    | agentEnd m =>
      simp only [running, Option.ite_none_right_eq_some, Option.some.injEq] at h
      obtain ⟨-, rfl⟩ := h
      exact tracks_quiet σ rfl rfl rfl
    | toolExecutionStart id name args =>
      obtain rfl := Option.some.inj h
      refine ⟨(List.append_nil _).symm, fun _ => ⟨rfl, (List.append_nil _).symm, ?_⟩⟩
      split <;> exact (List.append_nil _).symm
    | toolExecutionEnd id name result isError =>
      simp only [running, Option.ite_none_right_eq_some, Option.some.injEq] at h
      obtain ⟨-, rfl⟩ := h
      refine ⟨(List.append_nil _).symm, fun _ => ⟨(List.append_nil _).symm, rfl, ?_⟩⟩
      split <;> exact (List.append_nil _).symm
    | _ =>
      obtain rfl := Option.some.inj h
      exact tracks_quiet σ rfl rfl rfl

theorem accept_messages : ∀ {trace : List AgentEvent} {σ σ' : Monitor}, accept σ trace = some σ' →
    σ'.messages = σ.messages ++ endedMessages trace
  | [], σ, σ', h => by
    cases h
    simp [endedMessages]
  | e :: trace, σ, σ', h => by
    obtain ⟨σ₁, h1, h2⟩ := Option.bind_eq_some_iff.mp h
    rw [accept_messages h2, (step_tracks h1).1, List.append_assoc, ← endedMessages_append, List.singleton_append]

/-- In a turn the monitor collects the calls and their results. -/
theorem accept_tracks : ∀ {turn : List AgentEvent} {σ σ' : Monitor}, accept σ turn = some σ' →
    (∀ m r, .turnEnd m r ∉ turn) → σ'.started = σ.started ++ startIds turn ∧ σ'.ended = σ.ended ++ endIds turn ∧
      σ'.results = σ.results ++ resultMessages (if σ.started = [] then executionPart turn else turn)
  | [], σ, σ', h, _ => by
    cases h
    refine ⟨(List.append_nil _).symm, (List.append_nil _).symm, ?_⟩
    split <;> exact (List.append_nil _).symm
  | e :: turn, σ, σ', h, ht => by
    obtain ⟨σ₁, h1, h2⟩ := Option.bind_eq_some_iff.mp h
    obtain ⟨hs, he, hr⟩ := (step_tracks h1).2 fun m r h0 => ht m r (h0 ▸ List.mem_cons_self)
    obtain ⟨ihs, ihe, ihr⟩ := accept_tracks h2 fun m r h0 => ht m r (List.mem_cons_of_mem _ h0)
    have hcs : startIds (e :: turn) = startIds [e] ++ startIds turn := startIds_append [e] turn
    have hce : endIds (e :: turn) = endIds [e] ++ endIds turn := endIds_append [e] turn
    refine ⟨by rw [ihs, hs, hcs, List.append_assoc], by rw [ihe, he, hce, List.append_assoc], ?_⟩
    rw [ihr, hr, hs, List.append_assoc]
    congr 1
    by_cases h0 : σ.started = []
    · cases hst : e.isToolStart with
      | true =>
        obtain ⟨id, name, args, rfl⟩ : ∃ id name args, e = .toolExecutionStart id name args := by
          cases e with
          | toolExecutionStart id name args => exact ⟨id, name, args, rfl⟩
          | _ => cases hst
        simp only [h0, ↓reduceIte, List.nil_append]
        rfl
      | false =>
        have hes : startIds [e] = [] := by
          cases e with
          | toolExecutionStart => cases hst
          | _ => rfl
        have hex : executionPart (e :: turn) = executionPart turn := by simp [executionPart, hst]
        simp [h0, hes, hex]
    · have hne : σ.started ++ startIds [e] ≠ [] := by simp [h0]
      rw [if_neg h0, if_neg h0, if_neg hne, ← resultMessages_append, List.singleton_append]

/-- Ends follow starts and results follow ends. -/
def Ordered (σ : Monitor) : Prop :=
  ∀ id, σ.ended.count id ≤ σ.started.count id ∧ (σ.results.map (·.toolCallId)).count id ≤ σ.ended.count id

theorem step_ordered {σ σ' : Monitor} {e : AgentEvent} (hσ : σ.Ordered) (h : σ.step e = some σ') : σ'.Ordered := by
  unfold step at h
  cases hp : σ.phase with
  | idle =>
    simp only [hp, Option.ite_none_right_eq_some, Option.some.injEq] at h
    obtain ⟨-, rfl⟩ := h
    exact hσ
  | ended => simp [hp] at h
  | running =>
    simp only [hp] at h
    cases e with
    | messageEnd m =>
      simp only [running, message] at h
      cases m with
      | toolResult r =>
        by_cases hs : σ.started = []
        · simp only [hs, ↓reduceIte, Option.some.injEq] at h
          subst h
          intro id
          have := hσ id
          rwa [hs] at this
        · simp only [hs, ↓reduceIte, Option.ite_none_right_eq_some, Option.some.injEq] at h
          obtain ⟨hc, rfl⟩ := h
          intro id
          obtain ⟨h1, h2⟩ := hσ id
          refine ⟨h1, ?_⟩
          rw [List.map_append, List.count_append, List.map_singleton, List.count_singleton]
          by_cases hid : r.toolCallId = id
          · subst hid
            simp only [beq_self_eq_true, ↓reduceIte]
            omega
          · simpa [hid] using h2
      | _ =>
        simp only [Option.some.injEq] at h
        subst h
        exact hσ
    | turnEnd m r =>
      simp only [running, Option.ite_none_right_eq_some, Option.some.injEq] at h
      obtain ⟨-, rfl⟩ := h
      intro id
      simp [between]
    | toolExecutionStart id name args =>
      simp only [running, Option.some.injEq] at h
      subst h
      intro id'
      obtain ⟨h1, h2⟩ := hσ id'
      refine ⟨?_, h2⟩
      show σ.ended.count id' ≤ (σ.started ++ [id]).count id'
      rw [List.count_append]
      omega
    | toolExecutionEnd id name result isError =>
      simp only [running, Option.ite_none_right_eq_some, Option.some.injEq] at h
      obtain ⟨hc, rfl⟩ := h
      intro id'
      obtain ⟨h1, h2⟩ := hσ id'
      simp only [List.count_append, List.count_singleton]
      by_cases hid : id = id'
      · subst hid
        simp only [beq_self_eq_true, ↓reduceIte]
        omega
      · simp only [beq_iff_eq, hid, ↓reduceIte, Nat.add_zero]
        exact ⟨h1, h2⟩
    | agentStart => simp [running] at h
    | agentEnd m =>
      simp only [running, Option.ite_none_right_eq_some, Option.some.injEq] at h
      obtain ⟨-, rfl⟩ := h
      exact hσ
    | _ =>
      simp only [running, Option.some.injEq] at h
      subst h
      exact hσ

theorem accept_ordered : ∀ {trace : List AgentEvent} {σ σ' : Monitor}, σ.Ordered → accept σ trace = some σ' →
    σ'.Ordered
  | [], _, _, hσ, h => by
    cases h
    exact hσ
  | e :: trace, σ, σ', hσ, h => by
    obtain ⟨σ₁, h1, h2⟩ := Option.bind_eq_some_iff.mp h
    exact accept_ordered (step_ordered hσ h1) h2

/-! ### What it accepts -/

theorem accept_split {σ σ' : Monitor} {a : List AgentEvent} {e : AgentEvent} {b : List AgentEvent}
    (h : accept σ (a ++ e :: b) = some σ') :
    ∃ σ₁ σ₂, accept σ a = some σ₁ ∧ σ₁.step e = some σ₂ ∧ accept σ₂ b = some σ' := by
  rw [accept_append] at h
  obtain ⟨σ₁, h1, h2⟩ := Option.bind_eq_some_iff.mp h
  obtain ⟨σ₂, h2, h3⟩ := Option.bind_eq_some_iff.mp h2
  exact ⟨σ₁, σ₂, h1, h2, h3⟩

/-- A run that has ended accepts nothing more. -/
theorem accept_ended {σ σ' : Monitor} {trace : List AgentEvent} (hσ : σ.phase = .ended)
    (h : accept σ trace = some σ') : trace = [] ∧ σ' = σ := by
  cases trace with
  | nil => exact ⟨rfl, by cases h; rfl⟩
  | cons e trace => simp [accept, step, hσ] at h

/-- The phase after an event. -/
theorem step_phase {σ σ' : Monitor} {e : AgentEvent} (h : σ.step e = some σ') :
    (σ.phase = .idle ∧ e = .agentStart ∧ σ' = { σ with phase := .running }) ∨
      (σ.phase = .running ∧ e ≠ .agentStart ∧ ((∀ m, e ≠ .agentEnd m) ∧ σ'.phase = .running ∨
        e = .agentEnd σ.messages ∧ σ.started = [] ∧ σ' = { σ with phase := .ended })) := by
  unfold step at h
  cases hp : σ.phase with
  | idle =>
    simp only [hp, Option.ite_none_right_eq_some, Option.some.injEq] at h
    exact Or.inl ⟨rfl, h.1, h.2.symm⟩
  | ended => simp [hp] at h
  | running =>
    simp only [hp] at h
    refine Or.inr ⟨rfl, ?_⟩
    cases e with
    | agentStart => simp [running] at h
    | agentEnd m =>
      simp only [running, Option.ite_none_right_eq_some, Option.some.injEq] at h
      obtain ⟨⟨rfl, hs⟩, rfl⟩ := h
      exact ⟨by simp, Or.inr ⟨rfl, hs, rfl⟩⟩
    | turnEnd m r =>
      simp only [running, Option.ite_none_right_eq_some, Option.some.injEq] at h
      obtain ⟨-, rfl⟩ := h
      exact ⟨by simp, Or.inl ⟨by simp, rfl⟩⟩
    | toolExecutionEnd id name result isError =>
      simp only [running, Option.ite_none_right_eq_some, Option.some.injEq] at h
      obtain ⟨-, rfl⟩ := h
      exact ⟨by simp, Or.inl ⟨by simp, hp⟩⟩
    | messageEnd m =>
      refine ⟨by simp, Or.inl ⟨by simp, ?_⟩⟩
      simp only [running, message] at h
      repeat' split at h
      all_goals first | (cases h; exact hp) | cases h
    | _ =>
      simp only [running, Option.some.injEq] at h
      subst h
      exact ⟨by simp, Or.inl ⟨by simp, hp⟩⟩

/-- Once a run is not idle it never starts again. -/
theorem not_mem_agentStart {σ σ' : Monitor} {trace : List AgentEvent} (hσ : σ.phase ≠ .idle)
    (h : accept σ trace = some σ') : .agentStart ∉ trace := by
  induction trace generalizing σ with
  | nil => simp
  | cons e trace ih =>
    obtain ⟨σ₁, h1, h2⟩ := Option.bind_eq_some_iff.mp h
    rcases step_phase h1 with ⟨h0, -⟩ | ⟨-, hne, hph⟩
    · exact absurd h0 hσ
    · have hσ₁ : σ₁.phase ≠ .idle := by
        rcases hph with ⟨-, hp⟩ | ⟨-, -, rfl⟩
        · simp [hp]
        · simp
      rw [List.mem_cons, not_or]
      exact ⟨fun h0 => hne h0.symm, ih hσ₁ h2⟩

/-- A run that has ended ended with `agent_end`, and between two tool executions. -/
theorem accept_last {σ σ' : Monitor} {trace : List AgentEvent} (hσ : σ.phase ≠ .ended)
    (h : accept σ trace = some σ') (h' : σ'.phase = .ended) :
    ∃ front σ₁, trace = front ++ [AgentEvent.agentEnd σ₁.messages] ∧ accept σ front = some σ₁ ∧ σ₁.phase = .running ∧
      σ'.started = [] := by
  rcases List.eq_nil_or_concat trace with rfl | ⟨front, e, rfl⟩
  · cases h
    exact absurd h' hσ
  · rw [List.concat_eq_append] at h ⊢
    obtain ⟨σ₁, σ₂, h1, h2, h3⟩ := accept_split (b := []) h
    cases h3
    rcases step_phase h2 with ⟨-, -, rfl⟩ | ⟨hr, -, ⟨-, hp⟩ | ⟨rfl, hs, rfl⟩⟩
    · cases h'
    · rw [hp] at h'
      cases h'
    · exact ⟨front, σ₁, rfl, h1, hr, hs⟩

/-- The state in which a turn begins. -/
theorem fresh_of_front {σ₁ : Monitor} {front : List AgentEvent} (h : accept init front = some σ₁)
    (hf : front = [] ∨ ∃ f m r, front = f ++ [AgentEvent.turnEnd m r]) : σ₁.started = [] ∧ σ₁.ended = [] ∧ σ₁.results = [] := by
  rcases hf with rfl | ⟨f, m, r, rfl⟩
  · cases h
    exact ⟨rfl, rfl, rfl⟩
  · obtain ⟨σ₂, σ₃, -, h2, h3⟩ := accept_split (b := []) h
    cases h3
    rcases step_phase h2 with ⟨-, h0, -⟩ | ⟨hr, -, -⟩
    · cases h0
    · simp only [step, hr, running, Option.ite_none_right_eq_some, Option.some.injEq] at h2
      obtain ⟨-, rfl⟩ := h2
      exact ⟨rfl, rfl, rfl⟩

/-- A turn that is accepted. -/
theorem turnOk_of_accept {σ₁ σ₂ : Monitor} {turn : List AgentEvent} {m : AssistantMessage} {r : List ToolResultMessage}
    {σ₃ : Monitor} (hfresh : σ₁.started = [] ∧ σ₁.ended = [] ∧ σ₁.results = []) (h : accept σ₁ turn = some σ₂)
    (ht : ∀ m r, .turnEnd m r ∉ turn) (hend : σ₂.step (.turnEnd m r) = some σ₃) : TurnOk turn m r := by
  obtain ⟨f1, f2, f3⟩ := hfresh
  have hord : σ₁.Ordered := fun id => by simp [f2, f3]
  have htracks : ∀ {a σ}, accept σ₁ a = some σ → (∀ m r, .turnEnd m r ∉ a) → σ.started = startIds a ∧
      σ.ended = endIds a ∧ σ.results = resultMessages (executionPart a) := by
    intro a σ ha hta
    obtain ⟨h1, h2, h3⟩ := accept_tracks ha hta
    rw [f1, List.nil_append] at h1
    rw [f2, List.nil_append] at h2
    rw [f3, f1, if_pos rfl, List.nil_append] at h3
    exact ⟨h1, h2, h3⟩
  obtain ⟨h1, h2, h3⟩ := htracks h ht
  have hcheck : σ₂.started <+: m.toolCalls.map (·.id) ∧ σ₂.ended.Perm σ₂.started ∧ σ₂.results = r ∧
      r.map (·.toolCallId) = σ₂.started := by
    rcases step_phase hend with ⟨-, h0, -⟩ | ⟨hr, -, -⟩
    · cases h0
    · simp only [step, hr, running, Option.ite_none_right_eq_some] at hend
      exact hend.1
  obtain ⟨c1, c2, c3, c4⟩ := hcheck
  refine ⟨h1 ▸ c1, h1 ▸ h2 ▸ c2, h3 ▸ c3, h1 ▸ c4, ?_⟩
  rintro a b rfl id
  rw [accept_append] at h
  obtain ⟨σ, ha, -⟩ := Option.bind_eq_some_iff.mp h
  obtain ⟨a1, a2, a3⟩ := htracks ha fun m r h0 => ht m r (List.mem_append_left _ h0)
  have := accept_ordered hord ha id
  rwa [a1, a2, a3] at this

theorem turnsOk_of_accept {trace : List AgentEvent} {σ : Monitor} (h : accept init trace = some σ) : TurnsOk trace := by
  intro f turn m r rest htr hf ht
  rw [htr] at h
  obtain ⟨σ₃, σ₄, h1, h2, -⟩ := accept_split h
  rw [accept_append] at h1
  obtain ⟨σ₅, h4, h5⟩ := Option.bind_eq_some_iff.mp h1
  exact turnOk_of_accept (fresh_of_front h4 hf) h5 ht h2

/-- A run that goes on has not ended before. -/
theorem not_mem_agentEnd {σ σ₁ : Monitor} {front : List AgentEvent} (h : accept σ front = some σ₁)
    (hrun : σ₁.phase = .running) (m : List AgentMessage) : .agentEnd m ∉ front := by
  intro hmem
  obtain ⟨a, b, rfl⟩ := List.append_of_mem hmem
  obtain ⟨σ₂, σ₃, -, h2, h3⟩ := accept_split h
  rcases step_phase h2 with ⟨-, h0, -⟩ | ⟨-, -, ⟨h0, -⟩ | ⟨-, -, rfl⟩⟩
  · cases h0
  · exact h0 m rfl
  · rw [(accept_ended rfl h3).2] at hrun
    cases hrun

/-- **What the monitor accepts from the start of a run to its end keeps the
protocol.** -/
theorem protocol_of_accept {trace : List AgentEvent} {σ : Monitor} {prompts : List AgentMessage}
    (h : accept init trace = some σ) (hend : σ.phase = .ended) (hprompts : prompts <+: σ.messages) :
    Protocol prompts trace := by
  obtain ⟨front, σ₁, htrace, hfront, hrun, hclosed⟩ := accept_last (by simp [init]) h hend
  refine ⟨?_, ?_, ?_, ?_⟩
  · cases trace with
    | nil =>
      cases h
      cases hend
    | cons e rest =>
      obtain ⟨σ₂, h1, h2⟩ := Option.bind_eq_some_iff.mp h
      rcases step_phase h1 with ⟨-, rfl, rfl⟩ | ⟨h0, -⟩
      · exact ⟨rest, rfl, not_mem_agentStart (by simp) h2⟩
      · cases h0
  · have hm := accept_messages hfront
    refine ⟨front, σ₁.messages, htrace, not_mem_agentEnd hfront hrun, by rw [hm]; rfl, ?_⟩
    · have hall := accept_messages h
      rw [htrace, endedMessages_append] at hall
      have : endedMessages [AgentEvent.agentEnd σ₁.messages] = [] := rfl
      rw [this, List.append_nil, ← hm] at hall
      exact hall ▸ hprompts
  · exact turnsOk_of_accept h
  · intro f id name args rest htr
    by_contra hno
    rw [htr] at h
    obtain ⟨σ₂, σ₃, -, h2, h3⟩ := accept_split h
    have ht : ∀ m r, .turnEnd m r ∉ rest := fun m r h0 => hno ⟨m, r, h0⟩
    have hs := (step_tracks h2).2 (by simp)
    have := (accept_tracks h3 ht).1
    rw [hclosed, hs.1] at this
    simp [startIds] at this

end Monitor

end Trek
