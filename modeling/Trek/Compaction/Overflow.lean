/-
# Recovering from an overflow

When a reply says that the context is too large for the model, `AgentSession` compacts the
session and lets the agent try again, once: `_overflowRecoveryAttempted` is set and stays set
until a message of the user starts or a reply ends that is no error. But `isContextOverflow`
also recognizes replies that are no errors. Such a reply takes the flag back and is itself
recovered from, again and again. Without one in that place two recoveries are kept apart by a
message of the user or a reply that fits (`run_bounded`).
-/
import Trek.Compaction.Prepare
import Trek.Lib.Machine
import Trek.Lib.Separated

namespace Trek

namespace Overflow

/-! ### What is an overflow -/

/-- What the session is run with: its model, its settings, and the tests of an error text. -/
structure Env where
  provider : String
  modelId : String
  contextWindow : ℕ
  /-- `_fittedCompactionSettings` -/
  compaction : CompactionSettings
  retryEnabled : Bool
  maxRetries : ℕ
  /-- `OVERFLOW_PATTERNS` and `NON_OVERFLOW_PATTERNS` -/
  overflowPatterns : String → Bool
  nonOverflowPatterns : String → Bool
  /-- the patterns of `_isRetryableError` -/
  retryablePatterns : String → Bool
  /-- `JSON.stringify(arguments).length` -/
  argumentsLength : Json → ℕ

/-- `message.usage.input + message.usage.cacheRead`. -/
def inputTokens (m : AssistantMessage) : ℕ := (m.usage.map fun u => u.input + u.cacheRead).getD 0

section

variable (env : Env)

/-- The first case of `isContextOverflow`: the error of a provider. -/
def isErrorOverflow (m : AssistantMessage) : Bool :=
  m.stopReason = .error && m.errorMessage.any fun e =>
    truthy e && !env.nonOverflowPatterns e && env.overflowPatterns e

/-- The other cases: a reply whose input fills the window. -/
def isSilentOverflow (m : AssistantMessage) : Bool :=
  env.contextWindow ≠ 0 &&
    ((m.stopReason = .stop && env.contextWindow < inputTokens m) ||
      (m.stopReason = .length && (m.usage.map (·.output)).getD 0 = 0 &&
        (env.contextWindow : ℚ) * (99 / 100) ≤ inputTokens m))

/-- `isContextOverflow`. -/
def isContextOverflow (m : AssistantMessage) : Bool := isErrorOverflow env m || isSilentOverflow env m

/-- `_isRetryableError`. -/
def isRetryableError (m : AssistantMessage) : Bool :=
  m.stopReason = .error && !isContextOverflow env m && m.errorMessage.any fun e => truthy e && env.retryablePatterns e

/-- `shouldCompact`. -/
def shouldCompact (contextTokens : ℕ) : Bool :=
  env.compaction.enabled && (env.contextWindow : ℚ) - env.compaction.reserveTokens < contextTokens

end

/-! ### The session -/

/-- What the session goes through, as far as it bears on recoveries. -/
inductive Mark
  /-- `message_start` of a user message -/
  | user
  /-- `message_end` of an assistant message -/
  | reply (message : AssistantMessage)
  /-- `_runAutoCompaction("overflow", true)` -/
  | recovery
  deriving DecidableEq

/-- Where the session is. -/
inductive Phase
  | idle
  /-- the agent runs; `prompt` waits for that run where it is one of the check before a prompt -/
  | running (beforePrompt : Bool)
  deriving DecidableEq

/-- `AgentSession`, with `agent.state.messages` and the time of the latest compaction entry. -/
structure Session where
  overflowRecoveryAttempted : Bool
  lastAssistantMessage : Option AssistantMessage
  retryAttempt : ℕ
  messages : List AgentMessage
  compactedAt : Option ℤ
  phase : Phase
  trace : List Mark
  deriving DecidableEq

/-- What a check after a run meets: whether the wait before a retry is aborted, the context and the
time of a compaction, and whether messages are queued afterwards. -/
structure Outcome where
  retryAborted : Bool
  context : List AgentMessage
  time : ℤ
  queued : Bool

/-- `messages` without an assistant message at its end. -/
def dropAssistant (messages : List AgentMessage) : List AgentMessage :=
  if messages.getLast?.any (·.isAssistant) then messages.dropLast else messages

/-- `_trimTrailingAssistantsForRetry`. -/
def trimTrailingAssistants (messages : List AgentMessage) : List AgentMessage :=
  (messages.reverse.dropWhile fun
    | .assistant a => a.toolCalls.isEmpty
    | _ => false).reverse

/-- `_findLastAssistantMessage`. -/
def findLastAssistantMessage (messages : List AgentMessage) : Option AssistantMessage :=
  messages.reverse.findSome? fun
    | .assistant a => some a
    | _ => none

/-- The message whose usage `estimateContextTokens` starts from. -/
def lastUsageMessage (messages : List AgentMessage) : Option AssistantMessage :=
  messages.reverse.findSome? fun
    | .assistant a => if (getAssistantUsage (.assistant a)).isSome then some a else none
    | _ => none

namespace Session

/-- A session at its start. -/
def new (messages : List AgentMessage) (compactedAt : Option ℤ) : Session :=
  ⟨false, none, 0, messages, compactedAt, .idle, []⟩

section

variable (env : Env) (s : Session)

/-- A message is from before the latest compaction. -/
def isStale (m : AssistantMessage) : Bool := s.compactedAt.any (m.timestamp ≤ ·)

/-- `_runAutoCompaction("threshold", false)`, where the compaction succeeds. -/
def compactAtThreshold (o : Outcome) : Session × Bool :=
  ({ s with messages := o.context, compactedAt := some o.time }, o.queued)

/-- `_runAutoCompaction("overflow", true)`, where the compaction succeeds. -/
def compactAndRetry (o : Outcome) : Session × Bool :=
  let messages := match o.context.getLast? with
    | some (.assistant a) =>
      trimTrailingAssistants (if a.stopReason = .error then o.context.dropLast else o.context)
    | _ => o.context
  ({ s with messages, compactedAt := some o.time, trace := s.trace ++ [.recovery] }, true)

/-- The second case of `_checkCompaction`. -/
def checkThreshold (m : AssistantMessage) (o : Outcome) : Session × Bool :=
  let contextTokens? : Option ℕ :=
    if m.stopReason = .error then
      match lastUsageMessage s.messages with
      | none => none
      | some usageMessage =>
        if s.isStale usageMessage then none else some (estimateContextTokens env.argumentsLength s.messages)
    else some ((m.usage.map calculateContextTokens).getD 0)
  match contextTokens? with
  | none => (s, false)
  | some contextTokens => if shouldCompact env contextTokens then s.compactAtThreshold o else (s, false)

/-- `_checkCompaction`. -/
def checkCompaction (m : AssistantMessage) (skipAbortedCheck : Bool) (o : Outcome) : Session × Bool :=
  if !env.compaction.enabled then (s, false)
  else if skipAbortedCheck && m.stopReason = .aborted then (s, false)
  else if s.isStale m then (s, false)
  else if m.provider = env.provider ∧ m.model = env.modelId ∧ isContextOverflow env m then
    if s.overflowRecoveryAttempted then (s, false)
    else
      { s with overflowRecoveryAttempted := true, messages := dropAssistant s.messages }.compactAndRetry o
  else s.checkThreshold env m o

/-- `_prepareRetry`. -/
def prepareRetry (o : Outcome) : Session × Bool :=
  if !env.retryEnabled then (s, false)
  else if env.maxRetries < s.retryAttempt + 1 then (s, false)
  else if o.retryAborted then ({ s with retryAttempt := 0, messages := dropAssistant s.messages }, false)
  else ({ s with retryAttempt := s.retryAttempt + 1, messages := dropAssistant s.messages }, true)

/-- `_handlePostAgentRun`. With one model the two escalations come to nothing. -/
def handlePostAgentRun (o : Outcome) : Session × Bool :=
  match s.lastAssistantMessage with
  | none => (s, false)
  | some m =>
    let s := { s with lastAssistantMessage := none }
    let (s, retry) := if isRetryableError env m then s.prepareRetry env o else (s, false)
    if retry then (s, true)
    else
      let s := if m.stopReason = .error then { s with retryAttempt := 0 } else s
      let (s, again) := s.checkCompaction env m true o
      (s, again || o.queued)

/-- `_safeAgentContinue`: whether the agent goes on. -/
def safeAgentContinue (queued : Bool) : Session × Bool :=
  match s.messages.getLast? with
  | none => (s, false)
  | some (.assistant _) =>
    if queued then (s, true)
    else
      let s := { s with messages := trimTrailingAssistants s.messages }
      (s, s.messages.getLast?.any (!·.isAssistant))
  | some _ => (s, true)

/-- After a check that asks for it the agent goes on, if it can. -/
def goOn (checked : Session × Bool) (queued beforePrompt : Bool) : Session × Bool :=
  if checked.2 then
    let (s, running) := checked.1.safeAgentContinue queued
    ({ s with phase := if running then .running beforePrompt else s.phase }, running)
  else (checked.1, false)

/-- The start of `prompt` up to its run of the agent, or to the run that a compaction before it
asks for. -/
def prompt (o : Outcome) : Session :=
  let started : Session × Bool :=
    match findLastAssistantMessage s.messages with
    | none => (s, false)
    | some lastAssistant => goOn (s.checkCompaction env lastAssistant false o) o.queued true
  if started.2 then started.1 else { started.1 with phase := .running false }

/-- The agent has ended: the loops of `_runAgentPrompt` and of `prompt`. -/
def agentEnd (beforePrompt : Bool) (o : Outcome) : Session :=
  let next := goOn (s.handlePostAgentRun env o) o.queued beforePrompt
  if next.2 then next.1 else { next.1 with phase := if beforePrompt then .running false else .idle }

/-- `_handleAgentEvent` of a `message_start`. -/
def messageStart (message : AgentMessage) : Session :=
  match message with
  | .user _ _ => { s with overflowRecoveryAttempted := false, trace := s.trace ++ [.user] }
  | _ => s

/-- A `message_end`: the agent appends the message, then `_handleAgentEvent`. -/
def messageEnd (message : AgentMessage) : Session :=
  let s := { s with messages := s.messages ++ [message] }
  match message with
  | .assistant m =>
    { s with
      lastAssistantMessage := some m
      overflowRecoveryAttempted := if m.stopReason = .error then s.overflowRecoveryAttempted else false
      retryAttempt := if m.stopReason = .error then s.retryAttempt else 0
      trace := s.trace ++ [.reply m] }
  | _ => s

end

end Session

/-- What happens to a session. `customPrompt` is a message of an extension that runs the agent
without a check before. -/
inductive Step
  | prompt (o : Outcome)
  | customPrompt
  | messageStart (message : AgentMessage)
  | messageEnd (message : AgentMessage)
  | agentEnd (o : Outcome)

/-- One step. Prompts come when the agent does not run, events while it does. -/
def Session.step (env : Env) (s : Session) : Step → Option Session
  | .prompt o => if s.phase = .idle then some (s.prompt env o) else none
  | .customPrompt => if s.phase = .idle then some { s with phase := .running false } else none
  | .messageStart message => if s.phase = .idle then none else some (s.messageStart message)
  | .messageEnd message => if s.phase = .idle then none else some (s.messageEnd message)
  | .agentEnd o =>
    match s.phase with
    | .idle => none
    | .running beforePrompt => some (s.agentEnd env beforePrompt o)

/-! ### Recoveries -/

/-- `recovery`. -/
def IsRecovery (e : Mark) : Prop := e = .recovery

/-- A user message, or a reply that is no overflow. -/
def Separates (env : Env) : Mark → Prop
  | .user => True
  | .reply m => isContextOverflow env m = false
  | .recovery => False

/-- Between any two recoveries there is a user message or a reply that is no overflow. -/
def Bounded (env : Env) (s : Session) : Prop := KeptApart IsRecovery (Separates env) s.trace

/-- The recoveries are bounded, and without the flag another one may come. -/
structure Inv (env : Env) (s : Session) : Prop where
  bounded : Bounded env s
  reset : s.overflowRecoveryAttempted = false → OpenTo IsRecovery (Separates env) s.trace

namespace Session

variable {env : Env} {s s' : Session}

/-- Nothing that bears on recoveries happens. -/
structure Quiet (s s' : Session) : Prop where
  trace : s'.trace = s.trace
  flag : s'.overflowRecoveryAttempted = s.overflowRecoveryAttempted

/-- At most one recovery happens, if none is marked as attempted. -/
inductive Effect (s s' : Session) : Prop
  | quiet (h : s.Quiet s')
  | recovery (hflag : s.overflowRecoveryAttempted = false) (hset : s'.overflowRecoveryAttempted = true)
      (htrace : s'.trace = s.trace ++ [Mark.recovery])

theorem Quiet.refl (s : Session) : s.Quiet s := ⟨rfl, rfl⟩

theorem Quiet.effect {t : Session} (h : s.Quiet t) (ht : t.Effect s') : s.Effect s' := by
  rcases ht with ⟨htrace, hflag⟩ | ⟨hflag, hset, htrace⟩
  · exact .quiet ⟨htrace.trans h.trace, hflag.trans h.flag⟩
  · exact .recovery (h.flag ▸ hflag) hset (h.trace ▸ htrace)

theorem Effect.quiet_after {t : Session} (h : s.Effect t) (ht : t.Quiet s') : s.Effect s' := by
  rcases h with ⟨htrace, hflag⟩ | ⟨hflag, hset, htrace⟩
  · exact .quiet ⟨ht.trace.trans htrace, ht.flag.trans hflag⟩
  · exact .recovery hflag (ht.flag.trans hset) (ht.trace.trans htrace)

theorem quiet_checkThreshold (env : Env) (s : Session) (m : AssistantMessage) (o : Outcome) :
    s.Quiet (s.checkThreshold env m o).1 := by
  rw [checkThreshold]
  split
  · exact Quiet.refl s
  · split
    · exact ⟨rfl, rfl⟩
    · exact Quiet.refl s

theorem checkCompaction_effect (env : Env) (s : Session) (m : AssistantMessage) (skipAbortedCheck : Bool) (o : Outcome) :
    s.Effect (s.checkCompaction env m skipAbortedCheck o).1 := by
  unfold checkCompaction
  split
  · exact .quiet (Quiet.refl s)
  · split
    · exact .quiet (Quiet.refl s)
    · split
      · exact .quiet (Quiet.refl s)
      · split
        · split
          · exact .quiet (Quiet.refl s)
          · -- the overflow is recovered from
            rename_i hflag
            exact .recovery (Bool.eq_false_iff.mpr hflag) rfl rfl
        · exact .quiet (quiet_checkThreshold env s m o)

theorem quiet_prepareRetry (env : Env) (s : Session) (o : Outcome) : s.Quiet (s.prepareRetry env o).1 := by
  unfold prepareRetry
  split
  · exact Quiet.refl s
  · split
    · exact Quiet.refl s
    · split
      · exact ⟨rfl, rfl⟩
      · exact ⟨rfl, rfl⟩

theorem handlePostAgentRun_effect (env : Env) (s : Session) (o : Outcome) :
    s.Effect (s.handlePostAgentRun env o).1 := by
  unfold handlePostAgentRun
  cases s.lastAssistantMessage with
  | none => exact .quiet (Quiet.refl s)
  | some m =>
    dsimp only
    have hretry : s.Quiet (if isRetryableError env m then { s with lastAssistantMessage := none }.prepareRetry env o
        else ({ s with lastAssistantMessage := none }, false)).1 := by
      split
      · have h := quiet_prepareRetry env { s with lastAssistantMessage := none } o
        exact ⟨h.trace, h.flag⟩
      · exact ⟨rfl, rfl⟩
    generalize (if isRetryableError env m then { s with lastAssistantMessage := none }.prepareRetry env o
      else ({ s with lastAssistantMessage := none }, false)) = r at hretry
    obtain ⟨t, retry⟩ := r
    dsimp only at hretry ⊢
    split
    · exact .quiet hretry
    · have hreset : t.Quiet (if m.stopReason = .error then { t with retryAttempt := 0 } else t) := by
        split
        · exact ⟨rfl, rfl⟩
        · exact Quiet.refl t
      exact hretry.effect (hreset.effect (checkCompaction_effect env _ m true o))

theorem quiet_safeAgentContinue (s : Session) (queued : Bool) : s.Quiet (s.safeAgentContinue queued).1 := by
  unfold safeAgentContinue
  split
  · exact Quiet.refl s
  · split
    · exact Quiet.refl s
    · exact ⟨rfl, rfl⟩
  · exact Quiet.refl s

theorem goOn_effect {checked : Session × Bool} (h : s.Effect checked.1) (queued beforePrompt : Bool) :
    s.Effect (goOn checked queued beforePrompt).1 := by
  unfold goOn
  split
  · have hquiet := quiet_safeAgentContinue checked.1 queued
    exact h.quiet_after ⟨hquiet.trace, hquiet.flag⟩
  · exact h

theorem prompt_effect (env : Env) (s : Session) (o : Outcome) : s.Effect (s.prompt env o) := by
  unfold prompt
  have hstarted : s.Effect (match findLastAssistantMessage s.messages with
      | none => (s, false)
      | some lastAssistant => goOn (s.checkCompaction env lastAssistant false o) o.queued true).1 := by
    split
    · exact .quiet (Quiet.refl s)
    · exact goOn_effect (checkCompaction_effect env s _ false o) _ _
  generalize (match findLastAssistantMessage s.messages with
      | none => (s, false)
      | some lastAssistant => goOn (s.checkCompaction env lastAssistant false o) o.queued true) = started at hstarted
  dsimp only
  split
  · exact hstarted
  · exact hstarted.quiet_after ⟨rfl, rfl⟩

theorem agentEnd_effect (env : Env) (s : Session) (beforePrompt : Bool) (o : Outcome) :
    s.Effect (s.agentEnd env beforePrompt o) := by
  unfold agentEnd
  have hnext := goOn_effect (handlePostAgentRun_effect env s o) o.queued beforePrompt
  dsimp only
  split
  · exact hnext
  · exact hnext.quiet_after ⟨rfl, rfl⟩

end Session

open Session

variable {env : Env} {s s' : Session}

theorem inv_new (env : Env) (messages : List AgentMessage) (compactedAt : Option ℤ) :
    Inv env (.new messages compactedAt) := ⟨keptApart_nil, fun _ => openTo_nil⟩

/-- A recovery comes only where no other is marked as attempted. -/
theorem Inv.effect (h : Inv env s) (heffect : s.Effect s') : Inv env s' := by
  rcases heffect with ⟨htrace, hflag⟩ | ⟨hflag, hset, htrace⟩
  · exact ⟨by rw [Bounded, htrace]; exact h.bounded, fun hf => htrace ▸ h.reset (hflag ▸ hf)⟩
  · refine ⟨?_, fun hf => ?_⟩
    · rw [Bounded, htrace]
      exact h.bounded.concat fun _ => h.reset hflag
    · rw [hset] at hf
      cases hf

/-- No reply takes the flag back that is an overflow itself. -/
def FlagKept (env : Env) (s : Session) : Step → Prop
  | .messageEnd (.assistant m) => ¬ (s.overflowRecoveryAttempted = true ∧ isSilentOverflow env m = true)
  | _ => True

theorem isSilentOverflow_of_ne_error {m : AssistantMessage} (h : m.stopReason ≠ .error) :
    isContextOverflow env m = isSilentOverflow env m := by
  have herror : isErrorOverflow env m = false := by simp [isErrorOverflow, h]
  rw [isContextOverflow, herror, Bool.false_or]

theorem Inv.messageStart (h : Inv env s) (message : AgentMessage) : Inv env (s.messageStart message) := by
  unfold Session.messageStart
  split
  · exact ⟨h.bounded.concat fun he => Mark.noConfusion he, fun _ => openTo_concat_of_sep trivial fun he => Mark.noConfusion he⟩
  · exact h

/-- A reply that is no error is no overflow where the flag was set; where it was not set it does
not matter. -/
theorem Inv.messageEnd (h : Inv env s) {message : AgentMessage} (hkept : FlagKept env s (.messageEnd message)) :
    Inv env (s.messageEnd message) := by
  unfold Session.messageEnd
  split
  · rename_i m
    have hno : ¬ IsRecovery (.reply m) := fun he => Mark.noConfusion he
    refine ⟨h.bounded.concat fun he => absurd he hno, fun hflag => ?_⟩
    by_cases hattempted : s.overflowRecoveryAttempted = true
    · have herror : m.stopReason ≠ .error := fun he => by
        simp only [he, if_true] at hflag
        rw [hattempted] at hflag
        cases hflag
      have hfits : isContextOverflow env m = false := by
        rw [isSilentOverflow_of_ne_error herror]
        exact Bool.eq_false_iff.mpr fun hsilent => hkept ⟨hattempted, hsilent⟩
      exact openTo_concat_of_sep hfits hno
    · exact (h.reset (Bool.eq_false_iff.mpr hattempted)).concat hno
  · exact ⟨h.bounded, h.reset⟩

theorem Inv.step (h : Inv env s) {input : Step} (hkept : FlagKept env s input) (hs : s.step env input = some s') :
    Inv env s' := by
  cases input with
  | prompt o =>
    obtain ⟨-, hs⟩ := Option.ite_none_right_eq_some.mp hs
    obtain rfl := Option.some.inj hs
    exact h.effect (prompt_effect env s o)
  | customPrompt =>
    obtain ⟨-, hs⟩ := Option.ite_none_right_eq_some.mp hs
    obtain rfl := Option.some.inj hs
    exact ⟨h.bounded, h.reset⟩
  | messageStart message =>
    obtain ⟨-, hs⟩ := Option.ite_none_left_eq_some.mp hs
    obtain rfl := Option.some.inj hs
    exact h.messageStart message
  | messageEnd message =>
    obtain ⟨-, hs⟩ := Option.ite_none_left_eq_some.mp hs
    obtain rfl := Option.some.inj hs
    exact h.messageEnd hkept
  | agentEnd o =>
    rw [Session.step] at hs
    split at hs
    · cases hs
    · obtain rfl := Option.some.inj hs
      exact h.effect (agentEnd_effect env s _ o)

/-- **In every run in which no reply that is no error and yet an overflow ends while a recovery is
marked as attempted, there is a user message or a reply that is no overflow between any two
recoveries.** -/
theorem run_bounded (env : Env) (messages : List AgentMessage) (compactedAt : Option ℤ) (steps : List Step) (s : Session)
    (hkept : Machine.Throughout (Session.step env) (FlagKept env) (.new messages compactedAt) steps)
    (hrun : Machine.run (Session.step env) (.new messages compactedAt) steps = some s) : Bounded env s :=
  (Machine.inv_throughout (fun _ _ _ h hkept hs => Inv.step h hkept hs) steps (inv_new env messages compactedAt) hkept
    hrun).bounded

/-! ### A session that is compacted again and again -/

/-- A model with room for ten tokens. -/
def tinyEnv : Env :=
  ⟨"provider", "model", 10, ⟨true, 1, 1⟩, false, 0, fun _ => true, fun _ => false, fun _ => false, fun _ => 0⟩

/-- A reply that stops and whose input is larger than the window. -/
def fullReply (timestamp : ℤ) : AssistantMessage :=
  ⟨[.text "done"], "api", "provider", "model", some ⟨11, 1, 0, 0, 12⟩, .stop, none, timestamp⟩

/-- What the compaction at some time leaves: the request. -/
def compactedTo (time : ℤ) : Outcome := ⟨false, [.user (.text "go") 0], time, false⟩

/-- One request to a model that overflows in the same way every time. -/
def fullRun : List Step :=
  [.prompt (compactedTo 0), .messageStart (.user (.text "go") 0), .messageEnd (.user (.text "go") 0),
    .messageEnd (.assistant (fullReply 1)), .agentEnd (compactedTo 2),
    .messageEnd (.assistant (fullReply 3)), .agentEnd (compactedTo 4)]

theorem fullRun_run : (Machine.run (Session.step tinyEnv) (.new [] none) fullRun).map (·.trace) =
    some [.user, .reply (fullReply 1), .recovery, .reply (fullReply 3), .recovery] := by decide

/-- One message of the user, a reply that overflows every time, and two recoveries. -/
theorem fullRun_not_bounded : ¬ ∀ s, Machine.run (Session.step tinyEnv) (.new [] none) fullRun = some s →
    Bounded tinyEnv s := by
  intro h
  obtain ⟨s, hs, htrace⟩ := Option.map_eq_some_iff.mp fullRun_run
  obtain ⟨e, he, hsep⟩ := h s hs [.user, .reply (fullReply 1)] .recovery [.reply (fullReply 3)] .recovery []
    htrace rfl rfl
  obtain rfl := List.mem_singleton.mp he
  revert hsep
  simp only [Separates]
  decide

/-- The run up to its first recovery keeps the flag. -/
theorem fullRun_bounded : ∃ s, Machine.run (Session.step tinyEnv) (.new [] none) (fullRun.take 5) = some s ∧
    Bounded tinyEnv s := by
  refine ⟨_, rfl, run_bounded tinyEnv [] none (fullRun.take 5) _ ?_ rfl⟩
  refine Machine.throughout_cons trivial rfl (Machine.throughout_cons trivial rfl (Machine.throughout_cons trivial rfl
    (Machine.throughout_cons ?_ rfl (Machine.throughout_cons trivial rfl trivial))))
  exact fun h => Bool.noConfusion h.1

end Overflow

end Trek
