/-
# The displayed queues

`AgentSession` (`core/agent-session.ts`) shows the messages that wait in the queues of its agent. It
keeps their texts in lists of its own. A text leaves a list when a user message of that text starts,
and a message goes into the session when its `message_end` has been handled; manual compaction takes
the handler off the agent before it aborts the run. In between, a message is held by the run, which
has taken it from its queue. As long as no text is empty, no run goes on without the handler, the
lists are not cleared while the run has messages to start, and no other user message of a displayed
text starts, the lists are the texts of those messages and of the queues, and no message is lost or
there twice (`run_agrees`).

The agent is the one of `Agent/Steering.lean`. Its listeners do not throw, and what a compaction puts
into the transcript is an input.
-/
import Trek.Agent.Steering

namespace Trek.QueueDisplay

open Steering

/-! ### The session -/

/-- `_getUserMessageText`. -/
def getUserMessageText : AgentMessage → String
  | .user (.text text) _ => text
  | .user (.blocks blocks) _ =>
    String.join (blocks.filterMap fun
      | .text text => some text
      | .image _ _ => none)
  | _ => ""

/-- The texts of messages. -/
def texts (messages : List Sent) : List String := messages.map (getUserMessageText ·.message)

/-- `AgentSession`: its agent, `_steeringMessages` and `_followUpMessages`, whether the handler is
subscribed, the compactions that wait for the agent and that go on, the messages whose `message_end`
the handler has not done with, those it has appended to the session, and what `clearQueue` returned. -/
structure AgentSession where
  agent : Agent
  display : Queue → List String
  connected : Bool
  waiting : ℕ
  compacting : ℕ
  handling : List Sent
  entries : List Sent
  returned : List String

/-- A session at its start. -/
def AgentSession.new (messages : List AgentMessage) (steeringMode followUpMode : QueueMode) : AgentSession where
  agent := .new messages steeringMode followUpMode
  display := fun _ => []
  connected := true
  waiting := 0
  compacting := 0
  handling := []
  entries := []
  returned := []

/-- The message whose `message_start` is handled. -/
def startedAt : Steering.Stage → List Sent
  | .messageStart message _ _ => [message]
  | _ => []

/-- The messages a run has taken and not started. -/
def unstartedAt : Steering.Stage → List Sent
  | .messageStart _ rest _ => rest
  | stage => stage.inFlight

/-- The message a run starts when it goes on. -/
def startingAt : Steering.Stage → Option Sent
  | .turnStart messages _ => messages.head?
  | .messageEnd rest _ => rest.head?
  | .polledStart messages => messages.head?
  | _ => none

/-- The message of the active run whose `message_start` is handled. -/
def started (agent : Agent) : List Sent := agent.activeRun.elim [] fun run => startedAt run.stage

/-- The messages the active run has taken and not started. -/
def unstarted (agent : Agent) : List Sent := agent.activeRun.elim [] fun run => unstartedAt run.stage

/-- The message the active run starts when it goes on. -/
def starting (agent : Agent) : Option Sent := agent.activeRun.bind fun run => startingAt run.stage

/-- How `steer` and `followUp` read a text: whether it names an extension command, and what skill
commands and prompt templates make of it. -/
structure Reader where
  isExtensionCommand : String → Bool
  expand : String → String

/-- A call of the session, or a step of what goes on in it. `queue` is `prompt` while the agent streams,
its text expanded before; `prompt` and `continueRun` are the runs the session starts. -/
inductive Op
  | steer (k : Queue) (text : String) (images : List (String × String)) (timestamp : ℤ)
  | queue (k : Queue) (text : String) (images : List (String × String)) (timestamp : ℤ)
  | prompt (messages : List AgentMessage)
  | continueRun
  | setMode (k : Queue) (mode : QueueMode)
  | abort
  | clearQueue
  | compactBegin
  | compactIdle
  | compactEnd (messages : Option (List AgentMessage))
  | advance (input : Input)

namespace AgentSession

variable (s : AgentSession)

/-- `_queueSteer` and `_queueFollowUp`. -/
def queueMessage (k : Queue) (text : String) (images : List (String × String)) (timestamp : ℤ) : AgentSession :=
  let content : List ContentBlock := .text text :: images.map fun image => .image image.1 image.2
  { s with
    display := Function.update s.display k (s.display k ++ [text])
    agent := s.agent.enqueue k (.user (.blocks content) timestamp) }

/-- `_handleAgentEvent` of a `message_start`, up to its await. -/
def handleStart (message : Sent) : AgentSession :=
  let text := getUserMessageText message.message
  if text = "" then s
  else if text ∈ s.display .steering then
    { s with display := Function.update s.display .steering ((s.display .steering).erase text) }
  else if text ∈ s.display .followUp then
    { s with display := Function.update s.display .followUp ((s.display .followUp).erase text) }
  else s

/-- A step of the run: the handler is done with the event before, and gets those of the step. -/
def advance (run : Steering.Run) (input : Input) : Option AgentSession :=
  match s.agent.advance run input with
  | none => none
  | some agent =>
    let ended := agent.ended.drop s.agent.ended.length
    let s' := { s with
      agent
      entries := s.entries ++ s.handling
      handling := if s.connected then ended else [] }
    some (if s.connected then (started agent).foldl handleStart s' else s')

/-- `clearQueue`. -/
def clearQueue : AgentSession :=
  { s with
    display := fun _ => []
    agent := (s.agent.clearQueue .steering).clearQueue .followUp
    returned := s.returned ++ (s.display .steering ++ s.display .followUp) }

/-- One step. A call that throws changes nothing. -/
def step (reader : Reader) (s : AgentSession) : Op → Option AgentSession
  | .steer k text images timestamp =>
    some (if text.toList.head? = some '/' ∧ reader.isExtensionCommand text then s
      else s.queueMessage k (reader.expand text) images timestamp)
  | .queue k text images timestamp => some (s.queueMessage k text images timestamp)
  | .prompt messages => some { s with agent := (s.agent.prompt messages).toOption.getD s.agent }
  | .continueRun => some { s with agent := s.agent.continueRun.toOption.getD s.agent }
  | .setMode k mode => some { s with agent := s.agent.setMode k mode }
  | .abort => some { s with agent := s.agent.abort }
  | .clearQueue => some s.clearQueue
  | .compactBegin => some { s with connected := false, waiting := s.waiting + 1, agent := s.agent.abort }
  | .compactIdle =>
    if 0 < s.waiting ∧ s.agent.activeRun = none then
      some { s with waiting := s.waiting - 1, compacting := s.compacting + 1 }
    else none
  | .compactEnd messages =>
    if 0 < s.compacting then
      some { s with
        compacting := s.compacting - 1
        connected := true
        agent := match messages with
          | some messages => { s.agent with messages := messages.map (⟨·, none⟩) }
          | none => s.agent }
    else none
  | .advance input => s.agent.activeRun.bind (s.advance · input)

end AgentSession

/-! ### What is to hold -/

/-- The messages of the queues that the run holds until their `message_end` has been handled. -/
def AgentSession.held (s : AgentSession) : List Sent := s.agent.inFlight ++ s.handling

/-- The displayed texts are those of the messages the run has still to start and of the queue, the
texts that were returned those of the messages that were cleared, and every message that was queued
is in one place. -/
structure Agrees (s : AgentSession) : Prop where
  display : ∀ k, s.display k = texts (of k (unstarted s.agent) ++ (s.agent.queue k).messages)
  returned : s.returned = texts s.agent.cleared
  once : ∀ k, ∀ x ∈ s.agent.accepted k,
    (s.agent.queue k).messages.count x + s.held.count x + s.agent.cleared.count x + s.entries.count x = 1

/-- A message that starts is the first of the steering messages, or its text is displayed in no list
before its own. -/
def Recognised (s : AgentSession) (message : Sent) : Prop :=
  let text := getUserMessageText message.message
  text = "" ∨ message.isOf .steering ∨ (text ∉ s.display .steering ∧ (message.isOf .followUp ∨ text ∉ s.display .followUp))

/-- What a step has to meet. -/
def Kept (reader : Reader) (s : AgentSession) : Op → Prop
  | .steer _ text _ _ => (text.toList.head? = some '/' ∧ reader.isExtensionCommand text) ∨ reader.expand text ≠ ""
  | .queue _ text _ _ => text ≠ ""
  | .prompt _ => s.connected = true
  | .continueRun => s.connected = true
  | .clearQueue => ∀ x ∈ unstarted s.agent, x.ticket = none
  | .compactBegin => s.agent.activeRun = none
  | .advance _ => ∀ message, starting s.agent = some message → Recognised s message
  | _ => True

instance (s : AgentSession) (message : Sent) : Decidable (Recognised s message) := inferInstanceAs (Decidable (_ ∨ _ ∨ _))

instance (reader : Reader) (s : AgentSession) (op : Op) : Decidable (Kept reader s op) :=
  match op with
  | .steer _ _ _ _ => inferInstanceAs (Decidable (_ ∨ _))
  | .queue _ text _ _ => inferInstanceAs (Decidable (text ≠ ""))
  | .prompt _ => inferInstanceAs (Decidable (s.connected = true))
  | .continueRun => inferInstanceAs (Decidable (s.connected = true))
  | .clearQueue => inferInstanceAs (Decidable (∀ x ∈ unstarted s.agent, x.ticket = none))
  | .compactBegin => inferInstanceAs (Decidable (s.agent.activeRun = none))
  | .advance _ =>
    match h : starting s.agent with
    | none => isTrue fun message hm => by rw [h] at hm; cases hm
    | some message => decidable_of_iff (Recognised s message)
      ⟨fun hr _ hm => Option.some.inj (h.symm.trans hm) ▸ hr, fun hr => hr message h⟩
  | .setMode _ _ => isTrue trivial
  | .abort => isTrue trivial
  | .compactIdle => isTrue trivial
  | .compactEnd _ => isTrue trivial

/-! ### A run of the agent -/

variable {agent agent' : Agent} {run : Steering.Run}

theorem inFlight_eq_append (agent : Agent) : agent.inFlight = started agent ++ unstarted agent := by
  unfold Agent.inFlight started unstarted
  cases agent.activeRun with
  | none => rfl
  | some run =>
    obtain ⟨stage, _, _⟩ := run
    cases stage <;> rfl

/-- What a run that goes on ends is what it had started, and it starts what it was to start. -/
structure Starts (agent : Agent) (agent' : Agent) : Prop where
  ended : ∀ k, of k agent'.ended = of k (agent.ended ++ started agent)
  starting : started agent' = [] ∨ ∃ message, started agent' = [message] ∧ starting agent = some message

/-- A step that starts nothing and ends nothing that was queued. -/
theorem starts_of {sent : List Sent} (hended : agent'.ended = agent.ended ++ sent) (hsent : ∀ k, of k sent = [])
    (hstarted : started agent = []) (hstarted' : started agent' = []) : Starts agent agent' where
  ended k := by rw [hended, hstarted, List.append_nil, of_append, hsent, List.append_nil]
  starting := Or.inl hstarted'

theorem starts_goTo {stage : Steering.Stage} (hstarted : started agent = []) (hstage : startedAt stage = []) :
    Starts agent (agent.goTo run stage) :=
  starts_of (List.append_nil _).symm (fun _ => rfl) hstarted hstage

theorem starts_own {message : Sent} {stage : Steering.Stage} (hticket : message.ticket = none) (hstarted : started agent = [])
    (hstage : startedAt stage = []) : Starts agent ((agent.messageEnd message).goTo run stage) :=
  starts_of rfl (fun _ => of_eq_nil fun _ hx => List.mem_singleton.mp hx ▸ hticket) hstarted hstage

theorem starts_drained {k : Queue} {stage : Steering.Stage} (hstarted : started agent = []) (hstage : startedAt stage = []) :
    Starts agent ((agent.drained k).goTo run stage) :=
  starts_of (List.append_nil _).symm (fun _ => rfl) hstarted hstage

theorem starts_send {next : Next} {messages : List Sent} (hstarted : started agent = [])
    (hstarting : starting agent = messages.head?) : Starts agent (agent.send run next messages) := by
  cases messages with
  | cons message rest =>
    refine ⟨fun k => ?_, Or.inr ⟨message, rfl, hstarting⟩⟩
    rw [hstarted, List.append_nil]
    rfl
  | nil =>
    cases next with
    | respond => exact starts_goTo hstarted rfl
    | poll =>
      show Starts agent (agent.poll run)
      unfold Agent.poll
      split
      · exact starts_goTo hstarted rfl
      · exact starts_drained hstarted rfl

theorem starts_advance (hrun : agent.activeRun = some run) {input : Input} (h : agent.advance run input = some agent') :
    Starts agent agent' := by
  have hstarted : started agent = startedAt run.stage := by rw [started, hrun]; rfl
  have hstarting : starting agent = startingAt run.stage := by rw [starting, hrun]; rfl
  obtain ⟨stage, skipInitialSteeringPoll, aborted⟩ := run
  simp only [Agent.advance] at h
  -- the cases are those of `advance`, in its order
  split at h
  all_goals try obtain rfl := Option.some.inj h
  · exact starts_goTo hstarted rfl
  · exact starts_send hstarted hstarting
  · refine ⟨fun k => ?_, Or.inl rfl⟩
    rw [hstarted]
    rfl
  · exact starts_send hstarted hstarting
  · exact starts_send hstarted hstarting
  · exact starts_own rfl hstarted rfl
  · split
    · exact starts_goTo hstarted rfl
    · split
      · exact starts_goTo hstarted rfl
      · exact starts_goTo hstarted rfl
  · exact starts_own rfl hstarted rfl
  · exact starts_goTo hstarted rfl
  · exact starts_goTo hstarted rfl
  · exact starts_goTo hstarted rfl
  · exact starts_goTo hstarted rfl
  · split
    · exact starts_goTo hstarted rfl
    · exact starts_drained hstarted rfl
  · split
    · exact starts_goTo hstarted rfl
    · exact starts_drained hstarted rfl
  · split
    · exact starts_goTo hstarted rfl
    · exact starts_goTo hstarted rfl
  · exact starts_of (List.append_nil _).symm (fun _ => rfl) hstarted rfl
  · exact starts_goTo hstarted rfl
  · exact starts_goTo hstarted rfl
  · exact starts_goTo hstarted rfl
  · exact starts_goTo hstarted rfl
  · exact starts_own rfl hstarted rfl
  · exact starts_goTo hstarted rfl
  · exact starts_goTo hstarted rfl
  · cases h

/-- The messages that wait in a queue or to be started, in order: a step takes what it starts off their head. -/
theorem Starts.waiting (h : Starts agent agent') (hmoved : agent.Moved agent') (k : Queue) :
    of k (started agent') ++ (of k (unstarted agent') ++ (agent'.queue k).messages) =
      of k (unstarted agent) ++ (agent.queue k).messages := by
  have horder := hmoved.order k
  have htaken : ∀ a : Agent, of k a.taken = of k (a.ended ++ started a) ++ of k (unstarted a) := fun a => by
    rw [Agent.taken, inFlight_eq_append, ← List.append_assoc, of_append]
  rw [htaken, htaken, ← h.ended k, of_append, List.append_assoc, List.append_assoc, List.append_assoc] at horder
  exact List.append_cancel_left horder

/-! ### The texts -/

theorem texts_append (a b : List Sent) : texts (a ++ b) = texts a ++ texts b := List.map_append

/-- The text of a message that `_queueSteer` or `_queueFollowUp` makes. -/
theorem text_of_content (text : String) (images : List (String × String)) (timestamp : ℤ) :
    getUserMessageText (.user (.blocks (.text text :: images.map fun image => .image image.1 image.2)) timestamp) = text := by
  simp [getUserMessageText, List.filterMap_map]

theorem of_singleton (k : Queue) (message : Sent) : of k [message] = if message.isOf k then [message] else [] := by
  unfold of
  rw [List.filter_cons, List.filter_nil]

/-- A message is of one queue. -/
theorem isOf_other {message : Sent} {j k : Queue} (hj : j ≠ k) (hk : message.isOf k = true) : message.isOf j = false := by
  obtain ⟨ticket, hticket, h⟩ := (Option.any_eq_true _ _).mp hk
  rw [Sent.isOf, hticket, Option.any_some]
  exact decide_eq_false fun h' => hj (h'.symm.trans (of_decide_eq_true h))

theorem handleStart_rest (s : AgentSession) (message : Sent) :
    (s.handleStart message).agent = s.agent ∧ (s.handleStart message).connected = s.connected ∧
      (s.handleStart message).handling = s.handling ∧ (s.handleStart message).entries = s.entries ∧
      (s.handleStart message).returned = s.returned := by
  unfold AgentSession.handleStart
  dsimp only
  split_ifs <;> exact ⟨rfl, rfl, rfl, rfl, rfl⟩

/-- A message that is recognised takes its own text off the list of its queue. -/
theorem handleStart_display {s : AgentSession} {message : Sent} {rest : Queue → List Sent} (hrec : Recognised s message)
    (hdisplay : ∀ k, s.display k = texts (of k [message] ++ rest k))
    (htext : ∀ k, message.isOf k = true → getUserMessageText message.message ≠ "") (k : Queue) :
    (s.handleStart message).display k = texts (rest k) := by
  have hown : ∀ k, message.isOf k = true → s.display k = getUserMessageText message.message :: texts (rest k) := fun k hk => by
    rw [hdisplay, of_singleton, if_pos hk]
    rfl
  have hother : ∀ k, message.isOf k = false → s.display k = texts (rest k) := fun k hk => by
    rw [hdisplay, of_singleton, hk]
    rfl
  unfold AgentSession.handleStart
  dsimp only
  by_cases hempty : getUserMessageText message.message = ""
  · rw [if_pos hempty]
    exact hother k (Bool.eq_false_iff.mpr fun hk => htext k hk hempty)
  · rw [if_neg hempty]
    rcases hrec with h | hsteering | ⟨hsteering, hfollowUp⟩
    · exact absurd h hempty
    · have hhead := hown .steering hsteering
      rw [if_pos (by rw [hhead]; exact List.mem_cons_self)]
      by_cases hk : k = .steering
      · subst hk
        dsimp only
        rw [Function.update_self, hhead, List.erase_cons_head]
      · dsimp only
        rw [Function.update_of_ne hk]
        exact hother k (isOf_other hk hsteering)
    · rw [if_neg hsteering]
      have hnot : message.isOf .steering = false := Bool.eq_false_iff.mpr fun hk => hsteering (by
        rw [hown .steering hk]
        exact List.mem_cons_self)
      cases hown' : message.isOf .followUp with
      | true =>
        have hhead := hown .followUp hown'
        rw [if_pos (by rw [hhead]; exact List.mem_cons_self)]
        cases k with
        | steering =>
          dsimp only
          rw [Function.update_of_ne (by decide)]
          exact hother .steering hnot
        | followUp =>
          dsimp only
          rw [Function.update_self, hhead, List.erase_cons_head]
      | false =>
        have hno : getUserMessageText message.message ∉ s.display .followUp :=
          hfollowUp.resolve_left (by rw [hown']; decide)
        rw [if_neg hno]
        cases k with
        | steering => exact hother .steering hnot
        | followUp => exact hother .followUp hown'

/-! ### What every step keeps -/

/-- The invariant. -/
structure Inv (s : AgentSession) : Prop where
  owned : s.agent.Owned
  tickets : ∀ k, (s.agent.accepted k).map Sent.ticket = (List.range (s.agent.accepted k).length).map fun n => some (k, n)
  counted : ∀ k x, (s.agent.accepted k).count x =
    (of k s.agent.taken ++ (s.agent.queue k).messages).count x + (of k s.agent.cleared).count x
  text : ∀ k, ∀ x ∈ s.agent.accepted k, getUserMessageText x.message ≠ ""
  display : ∀ k, s.display k = texts (of k (unstarted s.agent) ++ (s.agent.queue k).messages)
  returned : s.returned = texts s.agent.cleared
  ended : s.agent.ended = s.entries ++ s.handling
  connected : s.agent.activeRun ≠ none → s.connected = true

variable {s s' : AgentSession} {reader : Reader}

theorem inv_new (messages : List AgentMessage) (steeringMode followUpMode : QueueMode) :
    Inv (.new messages steeringMode followUpMode) := by
  have hqueue : ∀ k, ((AgentSession.new messages steeringMode followUpMode).agent.queue k).messages = [] := by
    rintro (_ | _)
    · rfl
    · rfl
  refine ⟨fun k x hx => ?_, fun k => rfl, fun k x => ?_, fun k x hx => (by cases hx), fun k => ?_, rfl, rfl, fun h => absurd rfl h⟩
  · rw [hqueue] at hx
    cases hx
  · rw [hqueue]
    rfl
  · rw [hqueue]
    rfl

/-- The counts after a step of a run. -/
theorem Inv.counted_of_moved (h : Inv s) (hmoved : s.agent.Moved agent') (k : Queue) (x : Sent) :
    (agent'.accepted k).count x =
      (of k agent'.taken ++ (agent'.queue k).messages).count x + (of k agent'.cleared).count x := by
  rw [hmoved.accepted, hmoved.cleared, hmoved.order]
  exact h.counted k x

/-- A step of the run that the handler follows. -/
theorem Inv.advance (h : Inv s) {input : Input} (hrun : s.agent.activeRun = some run)
    (hrec : ∀ message, starting s.agent = some message → Recognised s message) (hs : s.advance run input = some s') :
    Inv s' := by
  unfold AgentSession.advance at hs
  split at hs
  · cases hs
  · rename_i agent' hadvance
    have hmoved := Agent.moved_advance h.owned hrun hadvance
    have hstarts := starts_advance hrun hadvance
    have hconnected := h.connected (by rw [hrun]; exact Option.some_ne_none _)
    obtain ⟨sent, hsent, -⟩ := hmoved.ended
    dsimp only at hs
    rw [if_pos hconnected, if_pos hconnected] at hs
    obtain rfl := Option.some.inj hs
    set t : AgentSession := { s with
      agent := agent', entries := s.entries ++ s.handling, handling := agent'.ended.drop s.agent.ended.length } with ht
    have hcounted := h.counted_of_moved hmoved
    have hdisplay : ∀ k, t.display k =
        texts (of k (started agent') ++ (of k (unstarted agent') ++ (agent'.queue k).messages)) := fun k => by
      rw [hstarts.waiting hmoved k]
      exact h.display k
    -- what is left is what the handler makes of the lists
    suffices hfold : ((started agent').foldl AgentSession.handleStart t).agent = agent' ∧
        ((started agent').foldl AgentSession.handleStart t).connected = true ∧
        ((started agent').foldl AgentSession.handleStart t).handling = t.handling ∧
        ((started agent').foldl AgentSession.handleStart t).entries = t.entries ∧
        ((started agent').foldl AgentSession.handleStart t).returned = t.returned ∧
        ∀ k, ((started agent').foldl AgentSession.handleStart t).display k =
          texts (of k (unstarted agent') ++ (agent'.queue k).messages) by
      obtain ⟨hagent, hconn, hhandling, hentries, hreturned, hdisp⟩ := hfold
      refine ⟨?_, fun k => ?_, fun k x => ?_, fun k x hx => ?_, fun k => ?_, ?_, ?_, fun _ => hconn⟩
      · rw [hagent]
        exact hmoved.owned h.owned
      · rw [hagent, hmoved.accepted]
        exact h.tickets k
      · rw [hagent]
        exact hcounted k x
      · rw [hagent, hmoved.accepted] at hx
        exact h.text k x hx
      · rw [hagent]
        exact hdisp k
      · rw [hagent, hreturned, hmoved.cleared]
        exact h.returned
      · rw [hagent, hhandling, hentries, ht]
        dsimp only
        rw [← h.ended, hsent, List.drop_left]
    rcases hstarts.starting with hnone | ⟨message, hmessage, hstarting⟩
    · rw [hnone] at hdisplay ⊢
      exact ⟨rfl, hconnected, rfl, rfl, rfl, hdisplay⟩
    · rw [hmessage] at hdisplay ⊢
      obtain ⟨hagent, hconn, hhandling, hentries, hreturned⟩ := handleStart_rest t message
      refine ⟨hagent, hconn.trans hconnected, hhandling, hentries, hreturned, handleStart_display ?_ hdisplay fun k hk => ?_⟩
      · exact hrec message hstarting
      · -- a queued message that starts was accepted
        refine h.text k message (hmoved.accepted ▸ List.count_pos_iff.mp ?_)
        have hmem : message ∈ of k agent'.taken := by
          refine List.mem_filter.mpr ⟨List.mem_append_right _ ?_, hk⟩
          rw [inFlight_eq_append, hmessage]
          exact List.mem_append_left _ (List.mem_singleton_self _)
        have hpos := List.count_pos_iff.mpr (List.mem_append_left (agent'.queue k).messages hmem)
        have := hcounted k message
        omega

/-- A step of the agent that starts nothing and that the handler does not see. -/
theorem Inv.moved (h : Inv s) (hmoved : s.agent.Moved agent') (hstarts : Starts s.agent agent') (hended : agent'.ended = s.agent.ended)
    (hstarted : started agent' = []) (hconnected : s.connected = true) : Inv { s with agent := agent' } where
  owned := hmoved.owned h.owned
  tickets k := by
    dsimp only
    rw [hmoved.accepted]
    exact h.tickets k
  counted := h.counted_of_moved hmoved
  text k x hx := h.text k x (hmoved.accepted ▸ hx)
  display k := by
    dsimp only
    rw [h.display k, ← hstarts.waiting hmoved k, hstarted]
    rfl
  returned := by
    dsimp only
    rw [hmoved.cleared]
    exact h.returned
  ended := hended.trans h.ended
  connected _ := hconnected

/-- A message that is queued is the last of its queue and its list. -/
theorem Inv.queueMessage (h : Inv s) (k : Queue) {text : String} (htext : text ≠ "") (images : List (String × String))
    (timestamp : ℤ) : Inv (s.queueMessage k text images timestamp) := by
  set content : List ContentBlock := .text text :: images.map fun image => .image image.1 image.2 with hcontent
  set sent : Sent := ⟨.user (.blocks content) timestamp, some (k, (s.agent.accepted k).length)⟩ with hsent
  have hsentText : getUserMessageText sent.message = text := text_of_content text images timestamp
  have hself : ((s.queueMessage k text images timestamp).agent.queue k).messages = (s.agent.queue k).messages ++ [sent] := by
    show (Function.update s.agent.queue k _ k).messages = _
    rw [Function.update_self]
    rfl
  have hother : ∀ j, j ≠ k → (s.queueMessage k text images timestamp).agent.queue j = s.agent.queue j := fun j hj =>
    Function.update_of_ne hj _ _
  have haccepted : (s.queueMessage k text images timestamp).agent.accepted k = s.agent.accepted k ++ [sent] :=
    Function.update_self ..
  have haccepted' : ∀ j, j ≠ k → (s.queueMessage k text images timestamp).agent.accepted j = s.agent.accepted j := fun j hj =>
    Function.update_of_ne hj _ _
  have htaken : (s.queueMessage k text images timestamp).agent.taken = s.agent.taken := rfl
  have hcleared : (s.queueMessage k text images timestamp).agent.cleared = s.agent.cleared := rfl
  refine ⟨fun j x hx => ?_, fun j => ?_, fun j x => ?_, fun j x hx => ?_, fun j => ?_, h.returned, h.ended, h.connected⟩
  all_goals by_cases hj : j = k
  · subst hj
    rw [hself, List.mem_append, List.mem_singleton] at hx
    rcases hx with hx | rfl
    · exact h.owned j x hx
    · exact ⟨_, rfl⟩
  · rw [hother j hj] at hx
    exact h.owned j x hx
  · subst hj
    rw [haccepted, List.map_append, h.tickets, List.length_append, List.length_singleton, List.range_succ, List.map_append]
    rfl
  · rw [haccepted' j hj]
    exact h.tickets j
  · subst hj
    have hcount := h.counted j x
    rw [htaken, hcleared, hself, haccepted, ← List.append_assoc, List.count_append, List.count_append]
    omega
  · rw [htaken, hcleared, hother j hj, haccepted' j hj]
    exact h.counted j x
  · subst hj
    rw [haccepted, List.mem_append, List.mem_singleton] at hx
    rcases hx with hx | rfl
    · exact h.text j x hx
    · rw [hsentText]
      exact htext
  · rw [haccepted' j hj] at hx
    exact h.text j x hx
  · subst hj
    rw [hself, ← List.append_assoc, texts_append]
    show Function.update s.display j _ j = texts (of j (unstarted s.agent) ++ _) ++ [getUserMessageText sent.message]
    rw [Function.update_self, h.display j, hsentText]
  · rw [hother j hj]
    exact (Function.update_of_ne hj _ _).trans (h.display j)

/-- The lists are cleared while no queued message waits to be started: they are the texts of the queues. -/
theorem Inv.clearQueue (h : Inv s) (hunstarted : ∀ x ∈ unstarted s.agent, x.ticket = none) : Inv s.clearQueue := by
  have hnone : ∀ k, of k (unstarted s.agent) = [] := fun k => of_eq_nil hunstarted
  have hqueue : ∀ k, (s.clearQueue.agent.queue k).messages = [] := by
    intro k
    cases k with
    | steering => rfl
    | followUp => rfl
  have hcleared : s.clearQueue.agent.cleared =
      s.agent.cleared ++ (s.agent.queue .steering).messages ++ (s.agent.queue .followUp).messages := rfl
  have htaken : s.clearQueue.agent.taken = s.agent.taken := rfl
  have hdisplay : ∀ k, s.display k = texts (s.agent.queue k).messages := fun k => by
    rw [h.display, hnone, List.nil_append]
  refine ⟨fun k x hx => ?_, h.tickets, fun k x => ?_, h.text, fun k => ?_, ?_, h.ended, h.connected⟩
  · rw [hqueue] at hx
    cases hx
  · have hof : of k (s.agent.queue .steering).messages ++ of k (s.agent.queue .followUp).messages =
        (s.agent.queue k).messages := by
      have hall : ∀ j, of j (s.agent.queue j).messages = (s.agent.queue j).messages := fun j =>
        List.filter_eq_self.mpr fun x hx => by
          obtain ⟨n, hn⟩ := h.owned j x hx
          simp [Sent.isOf, hn]
      have hno : ∀ j, j ≠ k → of k (s.agent.queue j).messages = [] := fun j hj =>
        List.filter_eq_nil_iff.mpr fun x hx => by
          obtain ⟨n, hn⟩ := h.owned j x hx
          simp [Sent.isOf, hn, hj]
      cases k with
      | steering => rw [hall, hno .followUp (by decide), List.append_nil]
      | followUp => rw [hall, hno .steering (by decide), List.nil_append]
    have hcount := h.counted k x
    rw [hqueue, htaken, hcleared, List.append_nil, of_append, of_append, List.append_assoc, hof, List.count_append]
    rw [List.count_append] at hcount
    exact hcount.trans (by omega)
  · rw [hqueue, List.append_nil]
    show [] = texts (of k (unstarted s.agent))
    rw [hnone]
    rfl
  · show s.returned ++ (s.display .steering ++ s.display .followUp) = _
    rw [hcleared, texts_append, texts_append, ← h.returned, hdisplay, hdisplay, List.append_assoc]

/-- What `abort` leaves. -/
theorem Inv.abort (h : Inv s) : Inv { s with agent := s.agent.abort } := by
  have htaken : s.agent.abort.taken = s.agent.taken := by
    show s.agent.ended ++ (s.agent.activeRun.map _).elim [] _ = s.agent.ended ++ s.agent.activeRun.elim [] _
    cases s.agent.activeRun <;> rfl
  have hunstarted : unstarted s.agent.abort = unstarted s.agent := by
    show (s.agent.activeRun.map _).elim [] _ = s.agent.activeRun.elim [] _
    cases s.agent.activeRun <;> rfl
  refine ⟨h.owned, h.tickets, fun k x => ?_, h.text, fun k => ?_, h.returned, h.ended, fun hrun => h.connected ?_⟩
  · dsimp only
    rw [htaken]
    exact h.counted k x
  · dsimp only
    rw [hunstarted]
    exact h.display k
  · exact fun hnone => hrun (congrArg (Option.map _) hnone)

theorem Inv.setMode (h : Inv s) (k : Queue) (mode : QueueMode) : Inv { s with agent := s.agent.setMode k mode } := by
  have hqueue : ∀ j, ((s.agent.setMode k mode).queue j).messages = (s.agent.queue j).messages := by
    intro j
    show (Function.update s.agent.queue k _ j).messages = _
    by_cases hj : j = k
    · subst hj
      rw [Function.update_self]
    · rw [Function.update_of_ne hj]
  refine ⟨fun j x hx => ?_, h.tickets, fun j x => ?_, h.text, fun j => ?_, h.returned, h.ended, h.connected⟩
  · dsimp only at hx
    rw [hqueue] at hx
    exact h.owned j x hx
  · dsimp only
    rw [hqueue]
    exact h.counted j x
  · dsimp only
    rw [hqueue]
    exact h.display j

theorem Inv.prompt (h : Inv s) (hconnected : s.connected = true) (messages : List AgentMessage) :
    Inv { s with agent := (s.agent.prompt messages).toOption.getD s.agent } := by
  cases hp : s.agent.prompt messages with
  | error e => exact h
  | ok agent' =>
    have hmoved := Agent.moved_prompt messages hp
    unfold Agent.prompt at hp
    split at hp
    · cases hp
    · rename_i hidle
      obtain rfl := Except.ok.inj hp
      have hnone : s.agent.activeRun = none := Option.not_isSome_iff_eq_none.mp hidle
      have hstarted : started s.agent = [] := by rw [started, hnone]; rfl
      exact h.moved hmoved (starts_of (List.append_nil _).symm (fun _ => rfl) hstarted rfl) rfl rfl hconnected

theorem Inv.continueRun (h : Inv s) (hconnected : s.connected = true) :
    Inv { s with agent := s.agent.continueRun.toOption.getD s.agent } := by
  cases hc : s.agent.continueRun with
  | error e => exact h
  | ok agent' =>
    have hmoved := Agent.moved_continueRun h.owned hc
    unfold Agent.continueRun at hc
    split at hc
    · cases hc
    · rename_i hidle
      have hnone : s.agent.activeRun = none := Option.not_isSome_iff_eq_none.mp hidle
      have hstarted : started s.agent = [] := by rw [started, hnone]; rfl
      -- the run begins with messages of a queue or with none
      suffices hbegins : agent'.ended = s.agent.ended ∧ started agent' = [] from
        h.moved hmoved (starts_of (hbegins.1.trans (List.append_nil _).symm) (fun _ => rfl) hstarted hbegins.2) hbegins.1
          hbegins.2 hconnected
      split at hc
      · cases hc
      · split at hc
        · split at hc
          · obtain rfl := Except.ok.inj hc
            exact ⟨rfl, rfl⟩
          · split at hc
            · obtain rfl := Except.ok.inj hc
              exact ⟨rfl, rfl⟩
            · cases hc
        · obtain rfl := Except.ok.inj hc
          exact ⟨rfl, rfl⟩

theorem Inv.step (h : Inv s) {op : Op} (hkept : Kept reader s op) (hs : s.step reader op = some s') : Inv s' := by
  cases op with
  | steer k text images timestamp =>
    obtain rfl := Option.some.inj hs
    split
    · exact h
    · rename_i hcommand
      exact h.queueMessage k (hkept.resolve_left hcommand) images timestamp
  | queue k text images timestamp =>
    obtain rfl := Option.some.inj hs
    exact h.queueMessage k hkept images timestamp
  | prompt messages =>
    obtain rfl := Option.some.inj hs
    exact h.prompt hkept messages
  | continueRun =>
    obtain rfl := Option.some.inj hs
    exact h.continueRun hkept
  | setMode k mode =>
    obtain rfl := Option.some.inj hs
    exact h.setMode k mode
  | abort =>
    obtain rfl := Option.some.inj hs
    exact h.abort
  | clearQueue =>
    obtain rfl := Option.some.inj hs
    exact h.clearQueue hkept
  | compactBegin =>
    obtain rfl := Option.some.inj hs
    have habort := h.abort
    have hnone : s.agent.abort.activeRun = none := by
      show s.agent.activeRun.map _ = none
      rw [hkept]
      rfl
    exact ⟨habort.owned, habort.tickets, habort.counted, habort.text, habort.display, habort.returned, habort.ended,
      fun hrun => absurd hnone hrun⟩
  | compactIdle =>
    simp only [AgentSession.step] at hs
    split at hs
    · obtain rfl := Option.some.inj hs
      exact ⟨h.owned, h.tickets, h.counted, h.text, h.display, h.returned, h.ended, h.connected⟩
    · cases hs
  | compactEnd messages =>
    simp only [AgentSession.step] at hs
    split at hs
    · obtain rfl := Option.some.inj hs
      cases messages with
      | none => exact ⟨h.owned, h.tickets, h.counted, h.text, h.display, h.returned, h.ended, fun _ => rfl⟩
      | some messages => exact ⟨h.owned, h.tickets, h.counted, h.text, h.display, h.returned, h.ended, fun _ => rfl⟩
    · cases hs
  | advance input =>
    obtain ⟨run, hrun, hs⟩ := Option.bind_eq_some_iff.mp hs
    exact h.advance hrun hkept hs

/-- A message that was queued is in one place. -/
theorem Inv.once (h : Inv s) {k : Queue} {x : Sent} (hx : x ∈ s.agent.accepted k) :
    (s.agent.queue k).messages.count x + s.held.count x + s.agent.cleared.count x + s.entries.count x = 1 := by
  obtain ⟨n, -, hticket⟩ : ∃ n ∈ List.range (s.agent.accepted k).length, some (k, n) = x.ticket := by
    rw [← List.mem_map, ← h.tickets]
    exact List.mem_map_of_mem hx
  have hisOf : x.isOf k = true := by
    rw [Sent.isOf, ← hticket]
    simp
  have hnodup : (s.agent.accepted k).Nodup := by
    refine List.Nodup.of_map Sent.ticket ?_
    rw [h.tickets]
    refine List.nodup_range.map fun a b hab => ?_
    exact (Prod.mk.inj (Option.some.inj hab)).2
  have hcounted := h.counted k x
  rw [List.count_eq_one_of_mem hnodup hx, List.count_append, of, of, List.count_filter hisOf, List.count_filter hisOf,
    Agent.taken, List.count_append, h.ended, List.count_append] at hcounted
  rw [AgentSession.held, List.count_append]
  omega

/-- **In every run in which no text that is queued is empty, compaction begins while the agent is idle and
no run begins before it ends, the lists are cleared while the run has no queued message to start, and
every message that starts is recognised, the lists agree with the queues and every message that was
queued is in one place. Where the run has no message to start, the lists are the texts of the queues.** -/
theorem run_agrees (reader : Reader) (messages : List AgentMessage) (steeringMode followUpMode : QueueMode) (ops : List Op)
    (s : AgentSession) (hkept : Machine.Throughout (AgentSession.step reader) (Kept reader) (.new messages steeringMode followUpMode) ops)
    (hrun : Machine.run (AgentSession.step reader) (.new messages steeringMode followUpMode) ops = some s) :
    Agrees s ∧ (unstarted s.agent = [] → ∀ k, s.display k = texts (s.agent.queue k).messages) := by
  have hinv : Inv s := Machine.inv_throughout (fun _ _ _ h hkept hs => Inv.step h hkept hs) ops
    (inv_new messages steeringMode followUpMode) hkept hrun
  refine ⟨⟨hinv.display, hinv.returned, fun k x hx => hinv.once hx⟩, fun hnone k => ?_⟩
  rw [hinv.display, hnone]
  rfl

/-! ### Runs that do not agree -/

/-- A run waits for no listener, and has taken no messages. -/
def restingAt : Steering.Stage → Bool
  | .response | .tools | .prepare _ | .shouldStop _ => true
  | _ => false

/-- No listener runs. -/
def resting (agent : Agent) : Bool := agent.activeRun.all fun run => restingAt run.stage

/-- Where no listener runs the lists are the texts of the queues. At any time a message that was queued
is in its queue, or was cleared, or is in the session once, and what was returned are the texts of the
messages that were cleared. -/
def AgreesAlways (s : AgentSession) : Prop :=
  (resting s.agent = true → ∀ k, s.display k = texts (s.agent.queue k).messages) ∧
    s.returned = texts s.agent.cleared ∧
    ∀ k, ∀ x ∈ s.agent.accepted k, (s.agent.queue k).messages.count x + s.agent.cleared.count x + s.entries.count x = 1

/-- A text no one expands. -/
def plainReader : Reader := ⟨fun _ => false, id⟩

/-- The answer of a model. -/
def answer (stopReason : StopReason) : AssistantMessage := ⟨[], "", "", "", none, stopReason, none, 0⟩

/-- A prompt, and the steps of the run up to its first poll of the steering messages. -/
def toPoll (text : String) : List Op := .prompt [.user (.text text) 0] :: List.replicate 4 (.advance .go)

/-- A message steered while the prompt is sent, up to the listeners of its `message_start`. -/
def steeredRun : List Op := .steer .steering "b" [] 1 :: (toPoll "a" ++ [Op.advance .go])

/-- A message with an image and no text, up to the response. -/
def imageRun : List Op := .steer .steering "" [("data", "image/png")] 1 :: (toPoll "a" ++ List.replicate 3 (Op.advance .go))

/-- Compaction while the run is about to send a steered message, up to the end of the run. -/
def compactRun : List Op :=
  .steer .steering "b" [] 1 :: (toPoll "a" ++ Op.compactBegin :: (List.replicate 3 (Op.advance .go) ++
    [Op.advance (.respond (answer .aborted)), .advance .go, .advance .go, .advance .go]))

/-- A prompt of the text of a follow-up, up to the response. -/
def equalRun : List Op := .steer .followUp "a" [] 1 :: (toPoll "a" ++ [Op.advance .go])

/-- The lists are cleared while a steered message waits to be started, up to the response. -/
def clearRun : List Op := .steer .steering "b" [] 1 :: (toPoll "a" ++ Op.clearQueue :: List.replicate 3 (Op.advance .go))

/-- The steered message of these runs. -/
def steeredMessage : Sent := ⟨.user (.blocks [.text "b"]) 1, some (.steering, 0)⟩

/-- A run of these operations. -/
def runOf (ops : List Op) : Option AgentSession :=
  Machine.run (AgentSession.step plainReader) (.new [] .oneAtATime .oneAtATime) ops

theorem not_agrees_of_display {k : Queue} (hrest : resting s.agent = true)
    (hdisplay : s.display k ≠ texts (s.agent.queue k).messages) : ¬ AgreesAlways s := fun h => hdisplay (h.1 hrest k)

theorem not_agrees_of_count {k : Queue} {x : Sent} (hx : x ∈ s.agent.accepted k)
    (hcount : (s.agent.queue k).messages.count x + s.agent.cleared.count x + s.entries.count x ≠ 1) : ¬ AgreesAlways s :=
  fun h => hcount (h.2.2 k x hx)

/-- A run ends where a condition holds that can be decided. -/
theorem exists_runOf {ops : List Op} {P : AgentSession → Bool} (h : (runOf ops).any P = true) :
    ∃ s, runOf ops = some s ∧ P s = true := (Option.any_eq_true _ _).mp h

/-- A steered message is in no place while the listeners of its `message_start` run. An image without a
text stays displayed. A message that is sent while the handler is off the agent is not in the session.
A prompt takes the text of a follow-up off the list. A text that is returned may still be sent. -/
theorem runs_not_agree :
    (∃ s, runOf steeredRun = some s ∧ ¬ AgreesAlways s) ∧ (∃ s, runOf imageRun = some s ∧ ¬ AgreesAlways s) ∧
      (∃ s, runOf compactRun = some s ∧ ¬ AgreesAlways s) ∧ (∃ s, runOf equalRun = some s ∧ ¬ AgreesAlways s) ∧
      ∃ s, runOf clearRun = some s ∧ ¬ AgreesAlways s := by
  refine ⟨?_, ?_, ?_, ?_, ?_⟩
  · obtain ⟨s, hs, h⟩ := @exists_runOf steeredRun (fun s => decide (steeredMessage ∈ s.agent.accepted .steering ∧
      (s.agent.queue .steering).messages.count steeredMessage + s.agent.cleared.count steeredMessage +
        s.entries.count steeredMessage ≠ 1)) (by decide)
    have h := of_decide_eq_true h
    exact ⟨s, hs, not_agrees_of_count h.1 h.2⟩
  · obtain ⟨s, hs, h⟩ := @exists_runOf imageRun (fun s => decide (resting s.agent = true ∧
      s.display .steering ≠ texts (s.agent.queue .steering).messages)) (by decide)
    have h := of_decide_eq_true h
    exact ⟨s, hs, not_agrees_of_display h.1 h.2⟩
  · obtain ⟨s, hs, h⟩ := @exists_runOf compactRun (fun s => decide (resting s.agent = true ∧
      s.display .steering ≠ texts (s.agent.queue .steering).messages)) (by decide)
    have h := of_decide_eq_true h
    exact ⟨s, hs, not_agrees_of_display h.1 h.2⟩
  · obtain ⟨s, hs, h⟩ := @exists_runOf equalRun (fun s => decide (resting s.agent = true ∧
      s.display .followUp ≠ texts (s.agent.queue .followUp).messages)) (by decide)
    have h := of_decide_eq_true h
    exact ⟨s, hs, not_agrees_of_display h.1 h.2⟩
  · obtain ⟨s, hs, h⟩ := @exists_runOf clearRun (fun s => decide (s.returned ≠ texts s.agent.cleared)) (by decide)
    exact ⟨s, hs, fun hagrees => of_decide_eq_true h hagrees.2.1⟩

/-- A message steered while a prompt is sent is displayed until it starts. -/
theorem steeredRun_agrees : ∃ s, runOf steeredRun = some s ∧
    (Agrees s ∧ (unstarted s.agent = [] → ∀ k, s.display k = texts (s.agent.queue k).messages)) := by
  obtain ⟨s, hs, -⟩ := @exists_runOf steeredRun (fun _ => true) (by decide)
  exact ⟨s, hs, run_agrees plainReader [] .oneAtATime .oneAtATime steeredRun s (by decide) hs⟩

end Trek.QueueDisplay
