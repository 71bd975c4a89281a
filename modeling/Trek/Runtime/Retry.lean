/-
# Retries of a failed reply

A reply that fails in a way that may pass is tried again, after a wait that grows with the attempts:
`_prepareRetry` counts them, and the count goes back to zero with the next reply that is no error, after
a run whose error is not tried again, or when the wait is cut short. Each of these places emits the
`auto_retry_end` of the series. But a reply that was aborted is no error either, and after a wait the
agent may have nothing to go on with. Where neither happens the series are well formed
(`episodes_iff`).
-/
import Trek.Compaction.Overflow

namespace Trek

namespace Retry

open Overflow (Env dropAssistant trimTrailingAssistants isRetryableError)

/-! ### The session -/

/-- What the session emits, as far as it bears on retries, and the end of a call of `prompt`. -/
inductive Event
  /-- `message_end` of an assistant message -/
  | reply (message : AssistantMessage)
  | agentEnd (willRetry : Bool)
  | autoRetryStart (attempt maxAttempts delayMs : ℕ) (errorMessage : String)
  | autoRetryEnd (success : Bool) (attempt : ℕ) (finalError : Option String)
  | resolved
  deriving DecidableEq

/-- Where a prompt is. -/
inductive Phase
  | idle
  | running
  /-- in the `sleep` of `_prepareRetry` for a message -/
  | waiting (message : AssistantMessage)
  deriving DecidableEq

/-- `AgentSession`, with `agent.state.messages`. -/
structure Session where
  retryAttempt : ℕ
  lastAssistantMessage : Option AssistantMessage
  messages : List AgentMessage
  phase : Phase
  events : List Event
  deriving DecidableEq

/-- What a check after a run meets: what the two escalations and `_checkCompaction` return and the context they
leave, whether messages are queued, and whether another run of the agent is active. -/
structure Outcome where
  firstPromptOverflow : Bool
  repetitiveLoop : Bool
  compacted : Bool
  context : List AgentMessage
  queued : Bool
  busy : Bool

/-- `_safeAgentContinue`: the messages, and whether the agent can go on. -/
def safeAgentContinue (messages : List AgentMessage) (queued : Bool) : List AgentMessage × Bool :=
  match messages.getLast? with
  | none => (messages, false)
  | some (.assistant _) =>
    if queued then (messages, true)
    else (trimTrailingAssistants messages, (trimTrailingAssistants messages).getLast?.any (!·.isAssistant))
  | some _ => (messages, true)

namespace Session

/-- A session at its start. -/
def new (messages : List AgentMessage) : Session := ⟨0, none, messages, .idle, []⟩

section

variable (env : Env) (s : Session)

/-- `_emit`. -/
def emit (e : Event) : Session := { s with events := s.events ++ [e] }

/-- `_runAgentPrompt` returns, or throws. -/
def resolve : Session := ({ s with phase := .idle }).emit .resolved

/-- The agent goes on, or the loop of `_runAgentPrompt` ends. An agent that is active throws. -/
def goOn (o : Outcome) : Session :=
  let (messages, canContinue) := safeAgentContinue s.messages o.queued
  let s := { s with messages }
  if canContinue && !o.busy then { s with phase := .running } else s.resolve

/-- The end of a series whose last attempt is not tried again. -/
def failSeries (m : AssistantMessage) : Session :=
  if m.stopReason = .error ∧ 0 < s.retryAttempt then
    { s.emit (.autoRetryEnd false s.retryAttempt m.errorMessage) with retryAttempt := 0 }
  else s

/-- The escalations and the compaction, and what comes after them. -/
def afterChecks (o : Outcome) : Session :=
  let s := { s with messages := o.context }
  if o.firstPromptOverflow || o.repetitiveLoop || o.compacted || o.queued then s.goOn o else s.resolve

/-- `_handlePostAgentRun` behind the retry. -/
def afterRetry (m : AssistantMessage) (o : Outcome) : Session := (s.failSeries m).afterChecks o

/-- `_prepareRetry` up to the wait. -/
def startRetry (baseDelayMs : ℕ) (m : AssistantMessage) : Session :=
  let attempt := s.retryAttempt + 1
  { s.emit (.autoRetryStart attempt env.maxRetries (baseDelayMs * 2 ^ (attempt - 1))
      (if m.errorMessage.any truthy then m.errorMessage.getD "" else "Unknown error")) with
    retryAttempt := attempt
    messages := dropAssistant s.messages
    phase := .waiting m }

/-- `_willRetryAfterAgentEnd`. -/
def willRetryAfterAgentEnd : Bool :=
  env.retryEnabled && s.retryAttempt < env.maxRetries && s.lastAssistantMessage.any (isRetryableError env)

/-- The agent has ended: `_handleAgentEvent`, then `_handlePostAgentRun` up to the wait of a retry. -/
def agentEnd (baseDelayMs : ℕ) (o : Outcome) : Session :=
  let s := s.emit (.agentEnd (s.willRetryAfterAgentEnd env))
  match s.lastAssistantMessage with
  | none => s.resolve
  | some m =>
    let s := { s with lastAssistantMessage := none }
    if isRetryableError env m ∧ env.retryEnabled ∧ s.retryAttempt + 1 ≤ env.maxRetries then s.startRetry env baseDelayMs m
    else s.afterRetry m o

/-- The wait ends, or `abortRetry` cuts it short. -/
def waitEnd (m : AssistantMessage) (aborted : Bool) (o : Outcome) : Session :=
  if aborted then
    let s := { s with retryAttempt := 0 }.emit (.autoRetryEnd false s.retryAttempt (some "Retry cancelled"))
    s.afterRetry m o
  else s.goOn o

/-- The end of a series with a reply that is no error. -/
def succeedSeries (m : AssistantMessage) : Session :=
  if m.stopReason ≠ .error ∧ 0 < s.retryAttempt then
    { s.emit (.autoRetryEnd true s.retryAttempt none) with retryAttempt := 0 }
  else s

/-- A `message_end`: the agent appends the message, then `_handleAgentEvent`. -/
def messageEnd (message : AgentMessage) : Session :=
  let s := { s with messages := s.messages ++ [message] }
  match message with
  | .assistant m => { s.emit (.reply m) with lastAssistantMessage := some m }.succeedSeries m
  | _ => s

end

end Session

/-- What happens to a session. The settings and the model are those at the step. -/
inductive Step
  | prompt
  /-- the context is replaced from outside, by a command or an extension -/
  | setMessages (messages : List AgentMessage)
  | messageEnd (message : AgentMessage)
  | agentEnd (env : Env) (baseDelayMs : ℕ) (o : Outcome)
  | waitEnd (aborted : Bool) (o : Outcome)
  /-- an error is thrown out of the loop of `_runAgentPrompt` -/
  | throws

/-- One step. -/
def Session.step (s : Session) : Step → Option Session
  | .prompt => if s.phase = .idle then some { s with phase := .running } else none
  | .setMessages messages => some { s with messages }
  | .messageEnd message => if s.phase = .running then some (s.messageEnd message) else none
  | .agentEnd env baseDelayMs o => if s.phase = .running then some (s.agentEnd env baseDelayMs o) else none
  | .waitEnd aborted o =>
    match s.phase with
    | .waiting m => some (s.waitEnd m aborted o)
    | _ => none
  | .throws => if s.phase = .idle then none else some s.resolve

/-! ### Series -/

/-- A series that is open: its attempts so far, and the reply of the last one. -/
structure Series where
  attempts : ℕ
  reply : Option AssistantMessage
  deriving DecidableEq

/-- A reply that succeeded. -/
def succeeded (m : AssistantMessage) : Bool := m.stopReason ≠ .error && m.stopReason ≠ .aborted

/-- What the log of a session may go on with where a series is open, and where none is: attempts in order up to the
maximum, an end for each series, with a success only behind a reply that succeeded, and no prompt that resolves
before. -/
def follow : Option Series → Event → Option (Option Series)
  | series, .autoRetryStart attempt maxAttempts _ _ =>
    if attempt = (series.map (·.attempts)).getD 0 + 1 ∧ attempt ≤ maxAttempts then some (some ⟨attempt, none⟩) else none
  | some series, .autoRetryEnd success _ _ =>
    if success = true → series.reply.any succeeded = true then some none else none
  | none, .autoRetryEnd .. => none
  | series, .reply m => some (series.map fun series => { series with reply := some m })
  | some _, .resolved => none
  | none, .resolved => some none
  | series, .agentEnd _ => some series

/-- The series of a log are well formed. -/
def WellFormed (events : List Event) : Prop := (Machine.run follow none events).isSome = true

instance : DecidablePred WellFormed := fun events => inferInstanceAs (Decidable ((Machine.run follow none events).isSome = true))

/-- The steps that leave the series well formed: no reply is aborted while a series is open, its prompt does not end
before it, and after a wait the agent has something to go on with. -/
def Fine (s : Session) : Step → Prop
  | .messageEnd (.assistant m) => 0 < s.retryAttempt → m.stopReason ≠ .aborted
  | .agentEnd _ _ _ => 0 < s.retryAttempt → s.lastAssistantMessage ≠ none
  | .waitEnd false o => (safeAgentContinue s.messages o.queued).2 = true ∧ o.busy = false
  | .throws => s.retryAttempt = 0
  | _ => True

/-- The counter counts the attempts of the series that is open. -/
structure Inv (s : Session) (series : Option Series) : Prop where
  count : s.retryAttempt = (series.map (·.attempts)).getD 0
  pos : ∀ x ∈ series, 0 < x.attempts
  idle : s.phase = .idle → series = none
  waiting : ∀ m, s.phase = .waiting m → series ≠ none
  error : 0 < s.retryAttempt → ∀ m ∈ s.lastAssistantMessage, m.stopReason = .error

/-- What is added to the log closes a series, if one is open, and leaves none. -/
structure Closes (s s' : Session) (series : Option Series) : Prop where
  events : ∃ new, s'.events = s.events ++ new ∧ Machine.run follow series new = some none
  inv : Inv s' none

section

variable {s : Session} {series : Option Series} {m : AssistantMessage}

theorem Inv.none_iff (h : Inv s series) : s.retryAttempt = 0 ↔ series = none := by
  rw [h.count]
  cases series with
  | none => simp
  | some x =>
    have := h.pos x rfl
    simp only [Option.map_some, Option.getD_some, reduceCtorEq, iff_false]
    omega

/-- Where no series is open only the phase matters. -/
theorem inv_closed (h : s.retryAttempt = 0) (hphase : ∀ m, s.phase ≠ .waiting m) : Inv s none :=
  ⟨h, fun _ hx => (by cases hx), fun _ => rfl, fun m hm => absurd hm (hphase m), fun hpos => (by omega)⟩

theorem closes_resolve (h : s.retryAttempt = 0) : Closes s s.resolve none :=
  ⟨⟨[.resolved], rfl, rfl⟩, inv_closed h fun _ hm => (by cases hm)⟩

theorem closes_goOn (h : s.retryAttempt = 0) (o : Outcome) : Closes s (s.goOn o) none := by
  unfold Session.goOn
  dsimp only
  split
  · exact ⟨⟨[], (List.append_nil _).symm, rfl⟩, inv_closed h fun _ hm => (by cases hm)⟩
  · have hresolve := @closes_resolve { s with messages := (safeAgentContinue s.messages o.queued).1 } h
    exact ⟨hresolve.events, hresolve.inv⟩

/-- What closes a series, and what comes after it. -/
theorem Closes.after {t u : Session} {new : List Event} (h : Closes t u none) (ht : t.events = s.events ++ new)
    (hnew : Machine.run follow series new = some none) : Closes s u series := by
  obtain ⟨more, hmore, hrun⟩ := h.events
  refine ⟨⟨new ++ more, by rw [hmore, ht, List.append_assoc], ?_⟩, h.inv⟩
  rw [Machine.run_append, hnew, Option.bind_some, hrun]

/-- A series that is open is closed by a failure. -/
theorem follow_failure {x : Series} (attempt : ℕ) (finalError : Option String) :
    Machine.run follow (some x) [.autoRetryEnd false attempt finalError] = some none := rfl

theorem closes_afterChecks (h : s.retryAttempt = 0) (o : Outcome) : Closes s (s.afterChecks o) none := by
  unfold Session.afterChecks
  dsimp only
  split
  · have hgo := @closes_goOn { s with messages := o.context } h o
    exact ⟨hgo.events, hgo.inv⟩
  · have hresolve := @closes_resolve { s with messages := o.context } h
    exact ⟨hresolve.events, hresolve.inv⟩

/-- After a run that is not tried again no series is open. -/
theorem closes_afterRetry (h : s.retryAttempt = 0 ↔ series = none) (herror : 0 < s.retryAttempt → m.stopReason = .error)
    (o : Outcome) : Closes s (s.afterRetry m o) series := by
  unfold Session.afterRetry Session.failSeries
  by_cases hpos : 0 < s.retryAttempt
  · rw [if_pos ⟨herror hpos, hpos⟩]
    obtain ⟨x, rfl⟩ : ∃ x, series = some x := by
      rw [← Option.ne_none_iff_exists']
      exact fun hnone => absurd (h.mpr hnone) (by omega)
    exact (closes_afterChecks rfl o).after rfl (follow_failure s.retryAttempt m.errorMessage)
  · rw [if_neg fun hc => hpos hc.2]
    have h0 : s.retryAttempt = 0 := by omega
    obtain rfl := h.mp h0
    exact closes_afterChecks h0 o

/-! ### Steps -/

/-- What the log may go on with where an `agent_end` has announced another attempt, and where none has. -/
def announced : Bool → Event → Option Bool
  | false, .agentEnd willRetry => some willRetry
  | true, .autoRetryStart .. => some false
  | false, .autoRetryEnd .. | false, .reply _ | false, .resolved => some false
  | _, _ => none

/-- The log of the one goes on in the log of the other, and every attempt in it is announced. -/
def Announces (s t : Session) : Prop := ∃ new, t.events = s.events ++ new ∧ Machine.run announced false new = some false

theorem Announces.of_eq {t : Session} (h : t.events = s.events) : Announces s t := ⟨[], by rw [h, List.append_nil], rfl⟩

theorem Announces.trans {t u : Session} (h : Announces s t) (h' : Announces t u) : Announces s u := by
  obtain ⟨new, hnew, hrun⟩ := h
  obtain ⟨new', hnew', hrun'⟩ := h'
  exact ⟨new ++ new', by rw [hnew', hnew, List.append_assoc], by rw [Machine.run_append, hrun, Option.bind_some, hrun']⟩

theorem announces_goOn (s : Session) (o : Outcome) : Announces s (s.goOn o) := by
  unfold Session.goOn
  dsimp only
  split
  · exact .of_eq rfl
  · exact ⟨[.resolved], rfl, rfl⟩

theorem announces_afterChecks (s : Session) (o : Outcome) : Announces s (s.afterChecks o) := by
  unfold Session.afterChecks
  dsimp only
  split
  · obtain ⟨new, hnew⟩ := announces_goOn { s with messages := o.context } o
    exact ⟨new, hnew⟩
  · exact ⟨[.resolved], rfl, rfl⟩

theorem announces_afterRetry (s : Session) (m : AssistantMessage) (o : Outcome) : Announces s (s.afterRetry m o) := by
  refine Announces.trans ?_ (announces_afterChecks (s.failSeries m) o)
  unfold Session.failSeries
  split
  · exact ⟨[.autoRetryEnd false s.retryAttempt m.errorMessage], rfl, rfl⟩
  · exact .of_eq rfl

theorem announces_agentEnd (s : Session) (env : Env) (baseDelayMs : ℕ) (o : Outcome) :
    Announces s (s.agentEnd env baseDelayMs o) := by
  unfold Session.agentEnd
  dsimp only
  cases hlast : s.lastAssistantMessage with
  | none =>
    have hnone : (s.emit (.agentEnd (s.willRetryAfterAgentEnd env))).lastAssistantMessage = none := hlast
    have hwill : s.willRetryAfterAgentEnd env = false := by
      rw [Session.willRetryAfterAgentEnd, hlast, Option.any_none, Bool.and_false]
    rw [hnone, hwill]
    exact ⟨[.agentEnd false, .resolved], List.append_assoc s.events [_] [_], rfl⟩
  | some m =>
    have hsome : (s.emit (.agentEnd (s.willRetryAfterAgentEnd env))).lastAssistantMessage = some m := hlast
    have hwill : s.willRetryAfterAgentEnd env = true ↔
        isRetryableError env m = true ∧ env.retryEnabled = true ∧ s.retryAttempt + 1 ≤ env.maxRetries := by
      rw [Session.willRetryAfterAgentEnd, hlast, Option.any_some, Bool.and_eq_true, Bool.and_eq_true, decide_eq_true_iff]
      tauto
    rw [hsome]
    dsimp only
    split
    · next hretry =>
      rw [hwill.mpr hretry]
      exact ⟨[.agentEnd true, _], List.append_assoc s.events [_] [_], rfl⟩
    · next hretry =>
      rw [Bool.eq_false_iff.mpr (hwill.not.mpr hretry)]
      obtain ⟨new, hnew, hrun⟩ := announces_afterRetry { s.emit (.agentEnd false) with lastAssistantMessage := none } m o
      exact ⟨.agentEnd false :: new, hnew.trans (List.append_assoc s.events [_] new), hrun⟩

theorem announces_messageEnd (s : Session) (message : AgentMessage) : Announces s (s.messageEnd message) := by
  cases message with
  | assistant m =>
    unfold Session.messageEnd Session.succeedSeries
    dsimp only
    split
    · exact ⟨[.reply m, .autoRetryEnd true s.retryAttempt none], List.append_assoc s.events [_] [_], rfl⟩
    · exact ⟨[.reply m], rfl, rfl⟩
  | _ => exact .of_eq rfl

theorem step_announces (s : Session) (input : Step) (s' : Session) (h : s.step input = some s') : Announces s s' := by
  cases input with
  | prompt =>
    obtain ⟨-, h⟩ := Option.ite_none_right_eq_some.mp h
    exact .of_eq (congrArg Session.events (Option.some.inj h)).symm
  | setMessages messages =>
    obtain rfl := Option.some.inj h
    exact .of_eq rfl
  | messageEnd message =>
    obtain ⟨-, h⟩ := Option.ite_none_right_eq_some.mp h
    obtain rfl := Option.some.inj h
    exact announces_messageEnd s message
  | agentEnd env baseDelayMs o =>
    obtain ⟨-, h⟩ := Option.ite_none_right_eq_some.mp h
    obtain rfl := Option.some.inj h
    exact announces_agentEnd s env baseDelayMs o
  | waitEnd aborted o =>
    unfold Session.step at h
    dsimp only at h
    split at h
    · next m _ =>
      obtain rfl := Option.some.inj h
      unfold Session.waitEnd
      split
      · exact Announces.trans ⟨[_], rfl, rfl⟩ (announces_afterRetry _ m o)
      · exact announces_goOn s o
    · cases h
  | throws =>
    obtain ⟨-, h⟩ := Option.ite_none_left_eq_some.mp h
    obtain rfl := Option.some.inj h
    exact ⟨[.resolved], rfl, rfl⟩

/-- A step says more and takes nothing back. -/
theorem step_grows (s : Session) (input : Step) (s' : Session) (h : s.step input = some s') :
    ∃ new, s'.events = s.events ++ new := (step_announces s input s' h).imp fun _ hnew => hnew.1

/-- What a step adds to the log, for a step that is fine and for one that is not. -/
inductive Follows (s : Session) (series : Option Series) (input : Step) (s' : Session) : Prop
  | fine (hfine : Fine s input) (new : List Event) (series' : Option Series) (hnew : s'.events = s.events ++ new)
      (hrun : Machine.run follow series new = some series') (hinv : Inv s' series')
  | stops (hbad : ¬ Fine s input) (new : List Event) (hnew : s'.events = s.events ++ new)
      (hrun : Machine.run follow series new = none)

theorem Closes.follows {s' : Session} {input : Step} (h : Closes s s' series) (hfine : Fine s input) :
    Follows s series input s' := by
  obtain ⟨new, hnew, hrun⟩ := h.events
  exact .fine hfine new none hnew hrun h.inv

theorem Inv.exists_some (h : Inv s series) (hpos : 0 < s.retryAttempt) : ∃ x, series = some x := by
  rw [← Option.ne_none_iff_exists']
  exact fun hnone => absurd (h.none_iff.mpr hnone) (by omega)

/-- A prompt ends before the series that is open. -/
theorem follows_resolve {input : Step} (h : Inv s series) (hfine : Fine s input ↔ s.retryAttempt = 0)
    {new : List Event} {t : Session} (ht : t.retryAttempt = s.retryAttempt) (hnew : t.events = s.events ++ new)
    (hrun : Machine.run follow series new = some series) : Follows s series input t.resolve := by
  by_cases h0 : s.retryAttempt = 0
  · obtain rfl := h.none_iff.mp h0
    exact ((closes_resolve (ht.trans h0)).after hnew hrun).follows (hfine.mpr h0)
  · obtain ⟨x, rfl⟩ := h.exists_some (by omega)
    refine .stops (fun hc => h0 (hfine.mp hc)) (new ++ [Event.resolved]) ?_ ?_
    · show t.events ++ [Event.resolved] = _
      rw [hnew, List.append_assoc]
    · rw [Machine.run_append, hrun]
      rfl

theorem follows_messageEnd (h : Inv s series) (hphase : s.phase = .running) (message : AgentMessage) :
    Follows s series (.messageEnd message) (s.messageEnd message) := by
  have hidle : s.phase ≠ .idle := fun hp => by rw [hphase] at hp; cases hp
  have hwaiting : ∀ x, s.phase ≠ .waiting x := fun x hp => by rw [hphase] at hp; cases hp
  cases message with
  | assistant m =>
    show Follows s series _ (Session.succeedSeries { s with
      messages := s.messages ++ [.assistant m], events := s.events ++ [.reply m], lastAssistantMessage := some m } m)
    unfold Session.succeedSeries
    by_cases hend : m.stopReason ≠ .error ∧ 0 < s.retryAttempt
    · -- the series is closed as a success
      rw [if_pos hend]
      obtain ⟨x, rfl⟩ := h.exists_some hend.2
      have hrun : Machine.run follow (some x) [.reply m, .autoRetryEnd true s.retryAttempt none] =
          if succeeded m = true then some none else none := by
        by_cases hm : succeeded m = true
        · simp [Machine.run, follow, hm]
        · simp [Machine.run, follow, hm]
      by_cases haborted : m.stopReason = .aborted
      · refine .stops (fun hc => hc hend.2 haborted) _ (List.append_assoc s.events [_] [_]) (hrun.trans (if_neg ?_))
        rw [succeeded, haborted]
        decide
      · refine .fine (fun _ => haborted) _ none (List.append_assoc s.events [_] [_]) (hrun.trans (if_pos ?_))
          (inv_closed rfl fun x hx => hwaiting x hx)
        rw [succeeded, decide_eq_true hend.1, decide_eq_true haborted]
        rfl
    · rw [if_neg hend]
      have herror : 0 < s.retryAttempt → m.stopReason = .error := fun hpos => not_not.mp fun hne => hend ⟨hne, hpos⟩
      refine .fine (fun hpos hc => ?_) [.reply m] (series.map fun x => { x with reply := some m }) rfl rfl ?_
      · rw [herror hpos] at hc
        cases hc
      · refine ⟨?_, ?_, fun hp => absurd hp hidle, fun x hx => absurd hx (hwaiting x), ?_⟩
        · rw [Option.map_map]
          exact h.count
        · intro x hx
          obtain ⟨y, hy, rfl⟩ := Option.map_eq_some_iff.mp hx
          exact h.pos y hy
        · intro hpos x hx
          rw [← Option.some.inj hx]
          exact herror hpos
  | _ => exact .fine trivial [] series (List.append_nil _).symm rfl ⟨h.count, h.pos, h.idle, h.waiting, h.error⟩

theorem follows_agentEnd (h : Inv s series) (hphase : s.phase = .running) (env : Env) (baseDelayMs : ℕ) (o : Outcome) :
    Follows s series (.agentEnd env baseDelayMs o) (s.agentEnd env baseDelayMs o) := by
  have hidle : s.phase ≠ .idle := fun hp => by rw [hphase] at hp; cases hp
  have hwaiting : ∀ x, s.phase ≠ .waiting x := fun x hp => by rw [hphase] at hp; cases hp
  have hlog : ∀ w, Machine.run follow series [.agentEnd w] = some series := fun w => by cases series <;> rfl
  unfold Session.agentEnd
  dsimp only
  cases hlast : s.lastAssistantMessage with
  | none =>
    have hnone : (s.emit (.agentEnd (s.willRetryAfterAgentEnd env))).lastAssistantMessage = none := hlast
    rw [hnone]
    refine follows_resolve h ?_ rfl rfl (hlog _)
    show (0 < s.retryAttempt → s.lastAssistantMessage ≠ none) ↔ _
    rw [hlast]
    constructor
    · intro hc
      by_contra h0
      exact hc (by omega) rfl
    · intro h0 hpos
      omega
  | some m =>
    have hsome : (s.emit (.agentEnd (s.willRetryAfterAgentEnd env))).lastAssistantMessage = some m := hlast
    rw [hsome]
    have hfine : Fine s (.agentEnd env baseDelayMs o) := fun _ hc => by rw [hlast] at hc; cases hc
    dsimp only
    split
    · next hretry =>
      -- the next attempt of the series, or the first of a new one
      refine .fine hfine [.agentEnd _, .autoRetryStart (s.retryAttempt + 1) env.maxRetries _ _] (some ⟨s.retryAttempt + 1, none⟩)
        (List.append_assoc s.events [_] [_]) ?_ ?_
      · have hstart : follow series (.autoRetryStart (s.retryAttempt + 1) env.maxRetries
            (baseDelayMs * 2 ^ (s.retryAttempt + 1 - 1)) (if m.errorMessage.any truthy then m.errorMessage.getD "" else "Unknown error")) =
            some (some ⟨s.retryAttempt + 1, none⟩) := by
          have hcond : s.retryAttempt + 1 = (series.map (·.attempts)).getD 0 + 1 ∧ s.retryAttempt + 1 ≤ env.maxRetries :=
            ⟨by rw [h.count], hretry.2.2⟩
          cases series <;> exact if_pos hcond
        rw [Machine.run_cons]
        have := hlog (s.willRetryAfterAgentEnd env)
        rw [Machine.run_singleton] at this
        rw [this, Option.bind_some, Machine.run_singleton]
        exact hstart
      · exact ⟨rfl, fun x hx => by rw [← Option.some.inj hx]; exact Nat.succ_pos _, fun hp => (by cases hp),
          fun x _ hc => (by cases hc), fun _ x hx => (by cases hx)⟩
    · have hcount : Session.retryAttempt { s.emit (.agentEnd (s.willRetryAfterAgentEnd env)) with lastAssistantMessage := none } =
          0 ↔ series = none := h.none_iff
      have hclose := closes_afterRetry hcount (fun hpos => h.error hpos m hlast) o
      obtain ⟨more, hmore, hrun⟩ := hclose.events
      refine .fine hfine (.agentEnd (s.willRetryAfterAgentEnd env) :: more) none ?_ ?_ hclose.inv
      · rw [hmore]
        exact List.append_assoc s.events [_] more
      · rw [Machine.run_cons]
        have := hlog (s.willRetryAfterAgentEnd env)
        rw [Machine.run_singleton] at this
        rw [this, Option.bind_some, hrun]

theorem follows_waitEnd (h : Inv s series) (hphase : s.phase = .waiting m) (aborted : Bool) (o : Outcome) :
    Follows s series (.waitEnd aborted o) (s.waitEnd m aborted o) := by
  obtain ⟨x, rfl⟩ := Option.ne_none_iff_exists'.mp (h.waiting m hphase)
  unfold Session.waitEnd
  cases aborted with
  | true =>
    -- the series is closed at once, and what comes after finds none
    rw [if_pos rfl]
    have hclose := @closes_afterRetry ({ s with retryAttempt := 0 }.emit (.autoRetryEnd false s.retryAttempt (some "Retry cancelled")))
      none m (iff_of_true rfl rfl) (fun hpos => absurd hpos (lt_irrefl 0)) o
    have hall : Closes s _ (some x) := hclose.after rfl (follow_failure s.retryAttempt _)
    exact hall.follows trivial
  | false =>
    rw [if_neg Bool.false_ne_true]
    unfold Session.goOn
    dsimp only
    split
    · next hgo =>
      rw [Bool.and_eq_true, Bool.not_eq_true'] at hgo
      exact .fine hgo [] _ (List.append_nil _).symm rfl ⟨h.count, h.pos, fun hp => (by cases hp), fun y hy => (by cases hy), h.error⟩
    · next hgo =>
      refine .stops (fun hc => hgo ?_) [.resolved] rfl rfl
      have hc : (safeAgentContinue s.messages o.queued).2 = true ∧ o.busy = false := hc
      rw [hc.1, hc.2]
      rfl

/-- What a step adds to the log is well formed exactly if the step is fine. -/
theorem step_follows {s' : Session} {input : Step} (h : Inv s series) (hs : s.step input = some s') :
    Follows s series input s' := by
  cases input with
  | prompt =>
    obtain ⟨hidle, hs⟩ := Option.ite_none_right_eq_some.mp hs
    obtain rfl := Option.some.inj hs
    obtain rfl := h.idle hidle
    exact .fine trivial [] none (List.append_nil _).symm rfl
      (inv_closed (h.none_iff.mpr rfl) fun x hx => by cases hx)
  | setMessages messages =>
    obtain rfl := Option.some.inj hs
    exact .fine trivial [] series (List.append_nil _).symm rfl ⟨h.count, h.pos, h.idle, h.waiting, h.error⟩
  | messageEnd message =>
    obtain ⟨hphase, hs⟩ := Option.ite_none_right_eq_some.mp hs
    obtain rfl := Option.some.inj hs
    exact follows_messageEnd h hphase message
  | agentEnd env baseDelayMs o =>
    obtain ⟨hphase, hs⟩ := Option.ite_none_right_eq_some.mp hs
    obtain rfl := Option.some.inj hs
    exact follows_agentEnd h hphase env baseDelayMs o
  | waitEnd aborted o =>
    unfold Session.step at hs
    dsimp only at hs
    split at hs
    · next m hphase =>
      obtain rfl := Option.some.inj hs
      exact follows_waitEnd h hphase aborted o
    · cases hs
  | throws =>
    obtain ⟨-, hs⟩ := Option.ite_none_left_eq_some.mp hs
    obtain rfl := Option.some.inj hs
    exact follows_resolve h Iff.rfl rfl (List.append_nil _).symm rfl

/-- **Retry episodes are well formed**, in a run of a session, exactly if in all its steps: a reply that ends while a
series is open is not aborted, a run of the agent in a series ends a reply, no error is thrown while a series is open,
and after a wait the agent goes on. -/
theorem episodes_iff (messages : List AgentMessage) (steps : List Step) {s : Session}
    (hrun : Machine.run Session.step (.new messages) steps = some s) :
    WellFormed s.events ↔ Machine.Throughout Session.step Fine (.new messages) steps := by
  refine Machine.accepts_iff_throughout step_grows (fun t input t' series h ht => ?_) steps
    (inv_closed rfl fun _ hp => (by cases hp)) rfl hrun
  cases step_follows h ht with
  | fine hfine new series' hnew hrun hinv => exact ⟨new, hnew, .inl ⟨hfine, series', hrun, hinv⟩⟩
  | stops hbad new hnew hrun => exact ⟨new, hnew, .inr ⟨hbad, hrun⟩⟩

end

/-- A session with three attempts, where every error is tried again. -/
def patientEnv : Env :=
  ⟨"provider", "model", 0, ⟨false, 1, 1⟩, true, 3, fun _ => false, fun _ => false, fun _ => true, fun _ => 0⟩

/-- A reply that ended in some way. -/
def replyWith (stopReason : StopReason) : AgentMessage :=
  .assistant ⟨[], "api", "provider", "model", none, stopReason, some "overloaded", 0⟩

/-- Nothing is compacted and nothing is queued. -/
def quiet : Outcome := ⟨false, false, false, [], false, false⟩

/-- A reply fails, and the second attempt ends in some way. -/
def secondAttempt (stopReason : StopReason) : List Step :=
  [.prompt, .messageEnd (.user (.text "go") 0), .messageEnd (replyWith .error), .agentEnd patientEnv 2000 quiet,
    .waitEnd false quiet, .messageEnd (replyWith stopReason), .agentEnd patientEnv 2000 quiet]

theorem episodes_second : ∃ s, Machine.run Session.step (.new []) (secondAttempt .stop) = some s ∧
    (WellFormed s.events ↔ Machine.Throughout Session.step Fine (.new []) (secondAttempt .stop)) :=
  ⟨_, rfl, episodes_iff [] (secondAttempt .stop) rfl⟩

/-- The second attempt is aborted, and the series ends with a success. -/
theorem aborted_not_wellFormed : ∃ s, Machine.run Session.step (.new []) (secondAttempt .aborted) = some s ∧
    ¬ WellFormed s.events ∧ Event.autoRetryEnd true 1 none ∈ s.events := by
  refine ⟨_, rfl, ?_, ?_⟩
  · decide
  · decide

end Retry

end Trek
