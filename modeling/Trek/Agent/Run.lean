/-
# Every run keeps the protocol

The monitor of `Protocol` accepts what the loop emits: a batch by how it runs
its calls (`executeToolCalls_executes`), a run turn by turn (`accept_runLoop`).
Late updates do not disturb it as long as the run goes on, so a run keeps the
protocol exactly when no tool calls `onUpdate` after `agent_end`
(`runAgentLoop_protocol_iff`).
-/
import Trek.Agent.Loop
import Trek.Agent.Protocol

namespace Trek

open Monitor

/-! ### Messages -/

@[simp] theorem eventsOf_append (a b : List Step) : eventsOf (a ++ b) = eventsOf a ++ eventsOf b :=
  List.filterMap_append

@[simp] theorem eventsOf_nil : eventsOf [] = [] := rfl

@[simp] theorem eventsOf_event (e : AgentEvent) (steps : List Step) :
    eventsOf (.event e :: steps) = e :: eventsOf steps := rfl

@[simp] theorem eventsOf_settled (toolCall : ToolCall) (steps : List Step) :
    eventsOf (.settled toolCall :: steps) = eventsOf steps := rfl

theorem between_message (M : List AgentMessage) (m : AgentMessage) :
    (between M).message m = some (between (M ++ [m])) := by
  cases m <;> rfl

/-- Between tool executions any message may come. -/
theorem accept_messageSteps : ∀ (pending M : List AgentMessage),
    accept (between M) (eventsOf (pending.flatMap messageSteps)) = some (between (M ++ pending))
  | [], M => by simp [accept]
  | m :: pending, M => by
    have ih := accept_messageSteps pending (M ++ [m])
    rw [List.append_assoc, List.singleton_append] at ih
    rw [List.flatMap_cons, eventsOf_append, accept_append]
    have hm : accept (between M) (eventsOf (messageSteps m)) = some (between (M ++ [m])) := by
      show ((between M).message m).bind (fun σ => some σ) = _
      rw [between_message]
      rfl
    rw [hm]
    exact ih

/-- A response ends with its final message. -/
theorem accept_streamResponse (result : AssistantMessage) (M : List AgentMessage) :
    ∀ (events : List AssistantMessageEvent) (addedPartial : Bool) (messages : List AgentMessage),
    accept (between M) (eventsOf (streamResponse result addedPartial messages events).1) =
      some (between (M ++ [AgentMessage.assistant result]))
  | [], addedPartial, _ => by cases addedPartial <;> rfl
  | .start _ :: events, _, messages => accept_streamResponse result M events true _
  | .delta _ _ :: events, true, _ => accept_streamResponse result M events true _
  | .delta _ _ :: events, false, _ => accept_streamResponse result M events false _
  | .done :: _, addedPartial, _ => by cases addedPartial <;> rfl
  | .error :: _, addedPartial, _ => by cases addedPartial <;> rfl

/-! ### Tool executions -/

/-- Some steps run calls: they start them, end each, and emit the messages, the
results of the calls in the order of their starts. -/
def Executes (steps : List Step) (messages : List ToolResultMessage) : Prop :=
  ∀ M S E R, List.Perm E S → R.map (·.toolCallId) = S → ∃ E', E'.Perm (messages.map (·.toolCallId)) ∧
    accept ⟨.running, M, S, E, R⟩ (eventsOf steps) =
      some ⟨.running, M ++ messages.map .toolResult, S ++ messages.map (·.toolCallId), E ++ E', R ++ messages⟩

theorem Executes.nil : Executes [] [] := by
  intro M S E R _ _
  refine ⟨[], List.Perm.refl _, ?_⟩
  simp [accept]

theorem Executes.append {a b : List Step} {ra rb : List ToolResultMessage} (ha : Executes a ra) (hb : Executes b rb) :
    Executes (a ++ b) (ra ++ rb) := by
  intro M S E R hE hR
  obtain ⟨Ea, hEa, h1⟩ := ha M S E R hE hR
  obtain ⟨Eb, hEb, h2⟩ := hb (M ++ ra.map .toolResult) (S ++ ra.map (·.toolCallId)) (E ++ Ea) (R ++ ra)
    (hE.append hEa) (by rw [List.map_append, hR])
  refine ⟨Ea ++ Eb, ?_, ?_⟩
  · rw [List.map_append]
    exact hEa.append hEb
  · rw [eventsOf_append, accept_append, h1]
    simp only [Option.bind_some, h2, List.map_append, List.append_assoc]

/-- Ends of calls that are started, and updates. -/
theorem accept_ends (M : List AgentMessage) (S : List String) (R : List ToolResultMessage) :
    ∀ (trace : List AgentEvent) (E : List String),
    (∀ e ∈ trace, (∃ c r, e = updateEvent c r) ∨ ∃ f, e = endEvent f) →
    (∀ id, (E ++ endIds trace).count id ≤ S.count id) →
    accept ⟨.running, M, S, E, R⟩ trace = some ⟨.running, M, S, E ++ endIds trace, R⟩
  | [], E, _, _ => by simp [accept, endIds]
  | e :: trace, E, hkind, hcount => by
    have hrest := fun e he => hkind e (List.mem_cons_of_mem _ he)
    rcases hkind e List.mem_cons_self with ⟨c, r, rfl⟩ | ⟨f, rfl⟩
    · have ih := accept_ends M S R trace E hrest hcount
      exact ih
    · have hids : endIds (endEvent f :: trace) = f.toolCall.id :: endIds trace := rfl
      rw [hids] at hcount ⊢
      have happ : E ++ f.toolCall.id :: endIds trace = (E ++ [f.toolCall.id]) ++ endIds trace := by simp
      rw [happ] at hcount ⊢
      have hlt : E.count f.toolCall.id < S.count f.toolCall.id := by
        have := hcount f.toolCall.id
        rw [List.count_append, List.count_append, List.count_singleton_self] at this
        omega
      have ih := accept_ends M S R trace (E ++ [f.toolCall.id]) hrest hcount
      simp only [accept, step, running, endEvent, hlt, ↓reduceIte, Option.bind_some]
      exact ih

/-- The result messages of calls that have ended. -/
theorem accept_results (S E : List String) (hS : S ≠ []) : ∀ (messages : List ToolResultMessage)
    (M : List AgentMessage) (R : List ToolResultMessage),
    (∀ id, ((R ++ messages).map (·.toolCallId)).count id ≤ E.count id) →
    accept ⟨.running, M, S, E, R⟩ (eventsOf (messages.flatMap emitToolResultMessage)) =
      some ⟨.running, M ++ messages.map .toolResult, S, E, R ++ messages⟩
  | [], M, R, _ => by simp [accept]
  | r :: messages, M, R, hcount => by
    have happ : R ++ r :: messages = (R ++ [r]) ++ messages := by simp
    rw [happ] at hcount ⊢
    have hlt : (R.map (·.toolCallId)).count r.toolCallId < E.count r.toolCallId := by
      have := hcount r.toolCallId
      rw [List.map_append, List.map_append, List.count_append, List.count_append, List.map_singleton,
        List.count_singleton_self] at this
      omega
    have ih := accept_results S E hS messages (M ++ [AgentMessage.toolResult r]) (R ++ [r]) hcount
    rw [List.flatMap_cons, eventsOf_append, accept_append]
    have hm : accept ⟨.running, M, S, E, R⟩ (eventsOf (emitToolResultMessage r)) =
        some ⟨.running, M ++ [AgentMessage.toolResult r], S, E, R ++ [r]⟩ := by
      simp [emitToolResultMessage, accept, step, running, message, hS, hlt]
    rw [hm, Option.bind_some, ih, List.map_cons, List.append_assoc, List.singleton_append]

/-- What is made of a prepared call: updates, then its end. -/
theorem preparedSteps_kind (config : AgentLoopConfig) (script : CallScript) (toolCall : ToolCall) :
    (∀ e ∈ eventsOf (preparedSteps config script toolCall), (∃ c r, e = updateEvent c r) ∨ ∃ f, e = endEvent f) ∧
      endIds (eventsOf (preparedSteps config script toolCall)) = [(preparedOutcome config script toolCall).toolCall.id] := by
  have hev : eventsOf (preparedSteps config script toolCall) =
      script.updates.map (updateEvent toolCall) ++ [endEvent (preparedOutcome config script toolCall)] := by
    unfold preparedSteps executePreparedToolCall
    rw [eventsOf_append, eventsOf_append]
    simp [eventsOf, List.filterMap_map]
  have hupd : endIds (script.updates.map (updateEvent toolCall)) = [] := by
    simp [endIds, updateEvent, List.filterMap_eq_nil_iff]
  rw [hev]
  refine ⟨fun e he => ?_, by rw [endIds_append, hupd]; rfl⟩
  rcases List.mem_append.mp he with he | he
  · obtain ⟨r, -, rfl⟩ := List.mem_map.mp he
    exact Or.inl ⟨toolCall, r, rfl⟩
  · exact Or.inr ⟨_, List.mem_singleton.mp he⟩

section

variable (config : AgentLoopConfig) (context : AgentContext) (abortedFrom : Option ℕ) (calls : ℕ → CallScript)

/-- A call of a sequential batch, between its start and its message. -/
theorem sequentialCall_kind (script : CallScript) (toolCall : ToolCall) (preparation : Preparation) :
    (∀ e ∈ eventsOf (sequentialCall config script toolCall preparation).1,
      (∃ c r, e = updateEvent c r) ∨ ∃ f, e = endEvent f) ∧
      endIds (eventsOf (sequentialCall config script toolCall preparation).1) = [toolCall.id] ∧
      (sequentialCall config script toolCall preparation).2.toolCall = toolCall := by
  cases preparation with
  | immediate result isError =>
    refine ⟨fun e he => Or.inr ⟨_, List.mem_singleton.mp he⟩, rfl, rfl⟩
  | prepared =>
    have hid : (preparedOutcome config script toolCall).toolCall = toolCall :=
      finalizeExecutedToolCall_toolCall config script toolCall _
    obtain ⟨h1, h2⟩ := preparedSteps_kind config script toolCall
    exact ⟨h1, by rw [← hid, ← h2, hid]; rfl, hid⟩

/-- One call of a sequential batch. -/
theorem executes_call (toolCall : ToolCall) {steps : List Step} {r : ToolResultMessage}
    (hkind : ∀ e ∈ eventsOf steps, (∃ c r, e = updateEvent c r) ∨ ∃ f, e = endEvent f)
    (hids : endIds (eventsOf steps) = [toolCall.id]) (hr : r.toolCallId = toolCall.id) :
    Executes (.event (startEvent toolCall) :: steps ++ emitToolResultMessage r) [r] := by
  intro M S E R hE hR
  refine ⟨[toolCall.id], by rw [List.map_singleton, hr], ?_⟩
  have hcount : ∀ id, (E ++ endIds (eventsOf steps)).count id ≤ (S ++ [toolCall.id]).count id := by
    intro id
    rw [hids, List.count_append, List.count_append, hE.count_eq]
  have h1 := accept_ends M (S ++ [toolCall.id]) R (eventsOf steps) E hkind hcount
  have h2 := accept_results (S ++ [toolCall.id]) (E ++ [toolCall.id]) (by simp) [r] M R (by
    intro id
    rw [List.map_append, List.map_singleton, hr, hR, List.count_append, List.count_append, hE.count_eq])
  rw [List.flatMap_singleton, List.map_singleton] at h2
  rw [hids] at h1
  rw [eventsOf_append, eventsOf_event, List.cons_append, List.map_singleton, List.map_singleton, hr]
  show accept ⟨.running, M, S ++ [toolCall.id], E, R⟩ _ = _
  rw [accept_append, h1, Option.bind_some, h2]

theorem sequentialCalls_executes : ∀ (toolCalls : List ToolCall) (k checks : ℕ),
    Executes (sequentialCalls config context abortedFrom calls k checks toolCalls).1
        (sequentialCalls config context abortedFrom calls k checks toolCalls).2.2.1 ∧
      (sequentialCalls config context abortedFrom calls k checks toolCalls).2.2.1.map (·.toolCallId) <+:
        toolCalls.map (·.id)
  | [], _, _ => ⟨Executes.nil, List.prefix_refl _⟩
  | toolCall :: rest, k, checks => by
    rw [sequentialCalls]
    dsimp only
    generalize prepareToolCall config context abortedFrom (calls k) toolCall checks = preparation
    obtain ⟨hkind, hids, hid⟩ := sequentialCall_kind config (calls k) toolCall preparation.1
    generalize sequentialCall config (calls k) toolCall preparation.1 = call at hkind hids hid
    have hr : (createToolResultMessage call.2 (calls k).timestamp).toolCallId = toolCall.id := by
      rw [createToolResultMessage, hid]
    have hcall := executes_call toolCall hkind hids hr
    obtain ⟨ih1, ih2⟩ := sequentialCalls_executes rest (k + 1) (preparation.2 + 1)
    split
    · refine ⟨hcall, ?_⟩
      simp only [List.map_cons, List.map_nil, hr]
      exact (List.prefix_cons_inj _).mpr List.nil_prefix
    · refine ⟨hcall.append ih1, ?_⟩
      simp only [List.map_cons, hr]
      exact (List.prefix_cons_inj _).mpr ih2

/-! ### All at once -/

/-- The id of the call of an entry. -/
def entryId : FinalizedToolCallEntry → String
  | .finalized outcome => outcome.toolCall.id
  | .prepared _ toolCall => toolCall.id

/-- The entries that have ended when the first loop is over. -/
def immediateIds (entries : List FinalizedToolCallEntry) : List String :=
  entries.filterMap fun
    | .finalized outcome => some outcome.toolCall.id
    | .prepared _ _ => none

theorem entry_outcome_id (entry : FinalizedToolCallEntry) : (entry.outcome config).toolCall.id = entryId entry := by
  cases entry with
  | finalized outcome => rfl
  | prepared script toolCall => exact congrArg ToolCall.id (finalizeExecutedToolCall_toolCall config script toolCall _)

theorem startedCall_id (script : CallScript) (toolCall : ToolCall) (preparation : Preparation) :
    entryId (startedCall script toolCall preparation).2 = toolCall.id := by
  cases preparation <;> rfl

/-- A call of the first loop. -/
theorem accept_startedCall (script : CallScript) (toolCall : ToolCall) (preparation : Preparation)
    (M : List AgentMessage) (S E : List String) (R : List ToolResultMessage) (hE : ∀ id, E.count id ≤ S.count id) :
    accept ⟨.running, M, S, E, R⟩ (eventsOf (startedCall script toolCall preparation).1) =
      some ⟨.running, M, S ++ [toolCall.id], E ++ immediateIds [(startedCall script toolCall preparation).2], R⟩ := by
  cases preparation with
  | prepared => simp [startedCall, accept, step, running, startEvent, immediateIds]
  | immediate result isError =>
    have hlt : E.count toolCall.id < (S ++ [toolCall.id]).count toolCall.id := by
      rw [List.count_append, List.count_singleton_self]
      have := hE toolCall.id
      omega
    simp only [startedCall, eventsOf_event, eventsOf_nil, accept, step, running, startEvent, endEvent,
      Option.bind_some, hlt, ↓reduceIte, immediateIds]
    rfl

theorem immediateIds_sublist : ∀ (entries : List FinalizedToolCallEntry),
    (immediateIds entries).Sublist (entries.map entryId)
  | [] => List.Sublist.refl _
  | .finalized _ :: entries => (immediateIds_sublist entries).cons_cons _
  | .prepared _ _ :: entries => (immediateIds_sublist entries).cons _

theorem aborted_succ {n : ℕ} (h : aborted abortedFrom n = true) : aborted abortedFrom (n + 1) = true := by
  unfold aborted at h ⊢
  cases abortedFrom with
  | none => cases h
  | some k =>
    simp only [Option.any_some, decide_eq_true_eq] at h ⊢
    omega

/-- The first loop starts the calls, the first ones if an abort stops it. -/
theorem accept_startCalls (M : List AgentMessage) (R : List ToolResultMessage) : ∀ (toolCalls : List ToolCall)
    (k checks : ℕ) (S E : List String), (∀ id, E.count id ≤ S.count id) →
    ∃ entries, (startCalls config context abortedFrom calls k checks toolCalls).2.1 = entries ∧
      accept ⟨.running, M, S, E, R⟩ (eventsOf (startCalls config context abortedFrom calls k checks toolCalls).1) =
        some ⟨.running, M, S ++ entries.map entryId, E ++ immediateIds entries, R⟩ ∧
      entries.map entryId <+: toolCalls.map (·.id) ∧
      (entries.map entryId = toolCalls.map (·.id) ∨
        aborted abortedFrom (startCalls config context abortedFrom calls k checks toolCalls).2.2 = true)
  | [], _, _, S, E, _ => ⟨[], rfl, by simp [startCalls, accept, immediateIds], List.prefix_refl _, Or.inl rfl⟩
  | toolCall :: rest, k, checks, S, E, hE => by
    rw [startCalls]
    dsimp only
    generalize prepareToolCall config context abortedFrom (calls k) toolCall checks = preparation
    have hcall := accept_startedCall (calls k) toolCall preparation.1 M S E R hE
    have hid := startedCall_id (calls k) toolCall preparation.1
    generalize startedCall (calls k) toolCall preparation.1 = call at hcall hid
    split
    · rename_i hab
      refine ⟨_, rfl, ?_, ?_, Or.inr (aborted_succ abortedFrom hab)⟩
      · rw [hcall, List.map_singleton, hid]
      · rw [List.map_singleton, hid, List.map_cons]
        exact (List.prefix_cons_inj _).mpr List.nil_prefix
    · have hE' : ∀ id, (E ++ immediateIds [call.2]).count id ≤ (S ++ [toolCall.id]).count id := by
        intro id
        have h1 := (immediateIds_sublist [call.2]).count_le id
        rw [List.map_singleton, hid] at h1
        have h2 := hE id
        rw [List.count_append, List.count_append]
        omega
      obtain ⟨entries, hent, hacc, hpre, hall⟩ := accept_startCalls M R rest (k + 1) (preparation.2 + 1) _ _ hE'
      refine ⟨_, rfl, ?_, ?_, ?_⟩
      · rw [eventsOf_append, accept_append, hcall, Option.bind_some, hacc, hent, List.map_cons, hid]
        have himm : immediateIds (call.2 :: entries) = immediateIds [call.2] ++ immediateIds entries :=
          List.filterMap_append (l := [call.2])
        rw [himm, List.append_assoc, List.append_assoc, List.singleton_append]
      · rw [hent, List.map_cons, hid, List.map_cons]
        exact (List.prefix_cons_inj _).mpr hpre
      · rcases hall with hall | hall
        · exact Or.inl (by rw [hent, List.map_cons, hid, List.map_cons, hall])
        · exact Or.inr hall

theorem map_toolCallId_toolResultMessages : ∀ (k : ℕ) (finalized : List FinalizedToolCallOutcome),
    (toolResultMessages calls k finalized).map (·.toolCallId) = finalized.map (·.toolCall.id)
  | _, [] => rfl
  | k, f :: finalized => by
    rw [toolResultMessages, List.map_cons, List.map_cons, map_toolCallId_toolResultMessages (k + 1) finalized]
    rfl

/-- What is left to do after the first loop: updates, and the end of each call
that has not ended. -/
theorem entries_kind : ∀ (entries : List FinalizedToolCallEntry),
    (∀ e ∈ eventsOf (entries.map (·.steps config)).flatten, (∃ c r, e = updateEvent c r) ∨ ∃ f, e = endEvent f) ∧
      (immediateIds entries ++ endIds (eventsOf (entries.map (·.steps config)).flatten)).Perm (entries.map entryId)
  | [] => ⟨by simp, List.Perm.refl _⟩
  | .finalized outcome :: entries => by
    obtain ⟨h1, h2⟩ := entries_kind entries
    exact ⟨h1, h2.cons outcome.toolCall.id⟩
  | .prepared script toolCall :: entries => by
    obtain ⟨h1, h2⟩ := entries_kind entries
    obtain ⟨p1, p2⟩ := preparedSteps_kind config script toolCall
    have hid : (preparedOutcome config script toolCall).toolCall.id = toolCall.id :=
      congrArg ToolCall.id (finalizeExecutedToolCall_toolCall config script toolCall _)
    rw [List.map_cons, List.flatten_cons, eventsOf_append, endIds_append]
    refine ⟨fun e he => ?_, ?_⟩
    · rcases List.mem_append.mp he with he | he
      · exact p1 e he
      · exact h1 e he
    · show (immediateIds entries ++ (endIds (eventsOf (preparedSteps config script toolCall)) ++ _)).Perm
        (toolCall.id :: entries.map entryId)
      rw [p2, hid, List.singleton_append]
      exact List.perm_middle.trans (h2.cons _)

/-- A batch that runs its calls at once. -/
theorem executeToolCallsParallel_executes (schedule : List ℕ) (k checks : ℕ) (toolCalls : List ToolCall) :
    Executes (executeToolCallsParallel config context abortedFrom calls schedule k checks toolCalls).steps
        (executeToolCallsParallel config context abortedFrom calls schedule k checks toolCalls).messages ∧
      (executeToolCallsParallel config context abortedFrom calls schedule k checks toolCalls).messages.map
        (·.toolCallId) <+: toolCalls.map (·.id) ∧
      ((executeToolCallsParallel config context abortedFrom calls schedule k checks toolCalls).messages.map
          (·.toolCallId) = toolCalls.map (·.id) ∨
        aborted abortedFrom
          (executeToolCallsParallel config context abortedFrom calls schedule k checks toolCalls).checks = true) := by
  have hids : (executeToolCallsParallel config context abortedFrom calls schedule k checks toolCalls).messages.map
      (·.toolCallId) = (startCalls config context abortedFrom calls k checks toolCalls).2.1.map entryId := by
    rw [executeToolCallsParallel]
    dsimp only
    rw [map_toolCallId_toolResultMessages, List.map_map]
    exact List.map_congr_left fun entry _ => entry_outcome_id config entry
  obtain ⟨-, rfl, -, hpre, hall⟩ := accept_startCalls config context abortedFrom calls [] [] toolCalls k checks [] []
    fun _ => le_rfl
  rw [hids]
  refine ⟨?_, hpre, hall⟩
  intro M S E R hE hR
  obtain ⟨entries, hent, hstart, -, -⟩ := accept_startCalls config context abortedFrom calls M R toolCalls k checks S E
    fun id => (hE.count_eq id).le
  rw [hids, hent]
  obtain ⟨hkind, hperm⟩ := entries_kind config entries
  -- the calls go on in some order, which changes the order of the ends only
  have hmerge := interleave_perm schedule (entries.map (·.steps config))
  have hevents : (eventsOf (interleave schedule (entries.map (·.steps config)))).Perm
      (eventsOf (entries.map (·.steps config)).flatten) := hmerge.filterMap _
  have hkind' : ∀ e ∈ eventsOf (interleave schedule (entries.map (·.steps config))),
      (∃ c r, e = updateEvent c r) ∨ ∃ f, e = endEvent f := fun e he => hkind e (hevents.mem_iff.mp he)
  set ends := endIds (eventsOf (interleave schedule (entries.map (·.steps config)))) with hends
  have hperm' : (immediateIds entries ++ ends).Perm (entries.map entryId) := by
    refine List.Perm.trans (List.Perm.append_left _ ?_) hperm
    exact hevents.filterMap _
  have hE' : (E ++ immediateIds entries ++ ends).Perm (S ++ entries.map entryId) := by
    rw [List.append_assoc]
    exact hE.append hperm'
  have h1 := accept_ends M (S ++ entries.map entryId) R _ (E ++ immediateIds entries) hkind'
    fun id => (hE'.count_eq id).le
  refine ⟨immediateIds entries ++ ends, hperm', ?_⟩
  have hmessages : ∃ messages, messages =
      (executeToolCallsParallel config context abortedFrom calls schedule k checks toolCalls).messages := ⟨_, rfl⟩
  obtain ⟨messages, hm⟩ := hmessages
  rw [← hm, hent] at hids
  have hresults : accept ⟨.running, M, S ++ entries.map entryId, E ++ immediateIds entries ++ ends, R⟩
      (eventsOf (messages.flatMap emitToolResultMessage)) =
      some ⟨.running, M ++ messages.map .toolResult, S ++ entries.map entryId,
        E ++ immediateIds entries ++ ends, R ++ messages⟩ := by
    by_cases hS : S ++ entries.map entryId = []
    · have h0 : messages = [] := by
        have := (List.append_eq_nil_iff.mp hS).2
        rw [← hids] at this
        exact List.map_eq_nil_iff.mp this
      subst h0
      simp [accept]
    · refine accept_results _ _ hS messages M R fun id => ?_
      rw [List.map_append, hR, hids]
      exact (hE'.count_eq id).ge
  have hsteps : (executeToolCallsParallel config context abortedFrom calls schedule k checks toolCalls).steps =
      (startCalls config context abortedFrom calls k checks toolCalls).1 ++
        interleave schedule (entries.map (·.steps config)) ++ messages.flatMap emitToolResultMessage := by
    rw [hm, ← hent]
    rfl
  rw [hsteps, ← hm, eventsOf_append, eventsOf_append, accept_append, accept_append, hstart, Option.bind_some, h1,
    Option.bind_some, hresults, List.append_assoc E]

/-! ### Groups, and the batch -/

theorem executeGroups_executes (schedule : ℕ → List ℕ) : ∀ (groups : List (List ToolCall)) (g k checks : ℕ),
    Executes (executeGroups config context abortedFrom calls schedule g k checks groups).steps
        (executeGroups config context abortedFrom calls schedule g k checks groups).messages ∧
      (executeGroups config context abortedFrom calls schedule g k checks groups).messages.map (·.toolCallId) <+:
        groups.flatten.map (·.id)
  | [], _, _, _ => ⟨Executes.nil, List.prefix_refl _⟩
  | group :: groups, g, k, checks => by
    rw [executeGroups]
    dsimp only
    obtain ⟨h1, h2, h3⟩ := executeToolCallsParallel_executes config context abortedFrom calls (schedule g) k checks group
    generalize executeToolCallsParallel config context abortedFrom calls (schedule g) k checks group = batch at h1 h2 h3
    rw [List.flatten_cons, List.map_append]
    split
    · rename_i he
      rw [List.isEmpty_iff.mp he]
      exact executeGroups_executes schedule groups (g + 1) k checks
    · split
      · exact ⟨h1, h2.trans (List.prefix_append _ _)⟩
      · split
        · exact ⟨h1, h2.trans (List.prefix_append _ _)⟩
        · rename_i hab
          obtain ⟨ih1, ih2⟩ := executeGroups_executes schedule groups (g + 1) (k + group.length) (batch.checks + 1)
          refine ⟨h1.append ih1, ?_⟩
          dsimp only
          rw [List.map_append, h3.resolve_right hab]
          exact (List.prefix_append_right_inj _).mpr ih2

/-- `partitionToolCalls` splits the calls into groups, in order. -/
def PartitionsInOrder (config : AgentLoopConfig) : Prop :=
  ∀ f, config.partitionToolCalls = some f → ∀ toolCalls, (f toolCalls).flatten = toolCalls

/-- **Every batch starts the first calls of a message, ends each of them and
emits their results in order.** -/
theorem executeToolCalls_executes (hpart : PartitionsInOrder config) (schedule : ℕ → List ℕ) (checks : ℕ)
    (toolCalls : List ToolCall) :
    Executes (executeToolCalls config context abortedFrom calls schedule checks toolCalls).steps
        (executeToolCalls config context abortedFrom calls schedule checks toolCalls).messages ∧
      (executeToolCalls config context abortedFrom calls schedule checks toolCalls).messages.map (·.toolCallId) <+:
        toolCalls.map (·.id) := by
  have hflat : (toolGroups config toolCalls).flatten = toolCalls :=
    flatten_toolGroups config fun f hf => hpart f hf toolCalls
  unfold executeToolCalls
  split
  · exact sequentialCalls_executes config context abortedFrom calls toolCalls 0 checks
  · have hparallel := fun group =>
      executeToolCallsParallel_executes config context abortedFrom calls (schedule 0) 0 checks group
    generalize toolGroups config toolCalls = groups at hflat
    split
    · exact ⟨(hparallel toolCalls).1, (hparallel toolCalls).2.1⟩
    · rename_i group
      rw [List.flatten_singleton] at hflat
      subst hflat
      exact ⟨(hparallel group).1, (hparallel group).2.1⟩
    · have := executeGroups_executes config context abortedFrom calls schedule groups 0 0 checks
      rwa [hflat] at this

end

/-! ### The loop -/

/-- The state of the monitor after a run that adds these messages. -/
def afterRun (run : Run) : Monitor :=
  if run.ended then { between run.messages with phase := .ended } else between run.messages

/-- The events of a turn. -/
theorem accept_turnEnd {M : List AgentMessage} {steps : List Step} {toolResults : List ToolResultMessage}
    {message : AssistantMessage} (h : Executes steps toolResults)
    (hp : toolResults.map (·.toolCallId) <+: message.toolCalls.map (·.id)) :
    accept (between M) (eventsOf (steps ++ [Step.event (.turnEnd message toolResults)])) =
      some (between (M ++ toolResults.map .toolResult)) := by
  obtain ⟨E, hE, hacc⟩ := h M [] [] [] (List.Perm.refl _) rfl
  rw [eventsOf_append, accept_append]
  have : between M = ⟨.running, M, [], [], []⟩ := rfl
  rw [this, hacc, Option.bind_some]
  simp only [List.nil_append, eventsOf_event, eventsOf_nil, accept_singleton, step, running, hp, hE, and_self,
    ↓reduceIte]

theorem accept_agentEnd (M : List AgentMessage) :
    accept (between M) [.agentEnd M] = some { between M with phase := .ended } := by
  simp [accept, step, running, between]

/-- **The monitor accepts every run of the loop.** -/
theorem accept_runLoop {config : AgentLoopConfig} (hpart : PartitionsInOrder config) (script : RunScript) :
    ∀ (turns i : ℕ) (firstTurn : Bool) (context : AgentContext) (newMessages pending : List AgentMessage) (checks : ℕ),
    ∃ run, runLoop config script turns i firstTurn context newMessages pending checks = run ∧
      accept (between newMessages) (eventsOf run.steps) = some (afterRun run) ∧ newMessages <+: run.messages
  | 0, _, _, _, newMessages, _, _ => ⟨_, rfl, rfl, List.prefix_refl _⟩
  | turns + 1, i, firstTurn, context, newMessages, pending, checks => by
    refine ⟨_, rfl, ?_⟩
    rw [runLoop]
    dsimp only
    generalize (script.turns i).result = message
    generalize hopening : (if firstTurn = true then [] else [Step.event .turnStart]) ++ pending.flatMap messageSteps = opening
    generalize hresponse : streamResponse message false (context.messages ++ pending) (script.turns i).response = response
    generalize hmessages : newMessages ++ pending ++ [AgentMessage.assistant message] = messages
    have hhead : accept (between newMessages) (eventsOf (opening ++ response.1)) = some (between messages) := by
      have hstart : accept (between newMessages) (eventsOf (if firstTurn = true then [] else [Step.event .turnStart])) =
          some (between newMessages) := by
        cases firstTurn <;> rfl
      rw [← hopening, eventsOf_append, eventsOf_append, accept_append, accept_append, hstart, Option.bind_some,
        accept_messageSteps, Option.bind_some, ← hresponse, accept_streamResponse, ← hmessages]
    have hnew : newMessages <+: messages := by
      rw [← hmessages, List.append_assoc]
      exact List.prefix_append _ _
    split
    · -- the response failed: the turn and the run end
      refine ⟨?_, hnew⟩
      have hend := @accept_turnEnd messages [] [] message Executes.nil List.nil_prefix
      rw [List.nil_append, List.map_nil, List.append_nil] at hend
      have hsplit : [Step.event (.turnEnd message []), .event (.agentEnd messages)] =
          [Step.event (.turnEnd message [])] ++ [Step.event (.agentEnd messages)] := rfl
      rw [hsplit, eventsOf_append (opening ++ response.1), accept_append, hhead, Option.bind_some, eventsOf_append,
        accept_append, hend, Option.bind_some]
      exact accept_agentEnd messages
    · have hbatch : ∃ batch, batch = (if message.toolCalls.isEmpty = true then (⟨[], [], true, checks⟩ : Batch)
          else executeToolCalls config ⟨response.2, context.tools⟩ script.abortedFrom (script.turns i).calls
            (script.turns i).schedule checks message.toolCalls) ∧ Executes batch.steps batch.messages ∧
          batch.messages.map (·.toolCallId) <+: message.toolCalls.map (·.id) := by
        refine ⟨_, rfl, ?_⟩
        split
        · exact ⟨Executes.nil, List.nil_prefix⟩
        · exact executeToolCalls_executes config _ _ _ hpart _ _ _
      obtain ⟨batch, hb, hexec, hids⟩ := hbatch
      rw [← hb]
      have hturn : accept (between newMessages) (eventsOf (opening ++ response.1 ++ batch.steps ++
          [Step.event (.turnEnd message batch.messages)])) = some (between (messages ++ batch.messages.map .toolResult)) := by
        rw [List.append_assoc, eventsOf_append, accept_append, hhead, Option.bind_some, accept_turnEnd hexec hids]
      generalize opening ++ response.1 ++ batch.steps ++ [Step.event (.turnEnd message batch.messages)] = steps at hturn
      have hnew' : newMessages <+: messages ++ batch.messages.map .toolResult := hnew.trans (List.prefix_append _ _)
      generalize messages ++ batch.messages.map .toolResult = all at hturn hnew' ⊢
      have hdone : accept (between newMessages) (eventsOf (steps ++ [Step.event (.agentEnd all)])) =
          some { between all with phase := .ended } := by
        rw [eventsOf_append, accept_append, hturn, Option.bind_some]
        exact accept_agentEnd all
      have hgo : ∀ context pending, accept (between newMessages) (eventsOf (steps ++
          (runLoop config script turns (i + 1) false context all pending batch.checks).steps)) =
          some (afterRun (runLoop config script turns (i + 1) false context all pending batch.checks)) ∧
          newMessages <+: (runLoop config script turns (i + 1) false context all pending batch.checks).messages := by
        intro context pending
        obtain ⟨run, hrun, hacc, hpre⟩ := accept_runLoop hpart script turns (i + 1) false context all pending batch.checks
        rw [hrun, eventsOf_append, accept_append, hturn, Option.bind_some]
        exact ⟨hacc, hnew'.trans hpre⟩
      split
      · exact ⟨hdone, hnew'⟩
      · split
        · exact hgo _ _
        · split
          · exact hgo _ _
          · exact ⟨hdone, hnew'⟩

/-! ### Late updates -/

/-- While the run goes on, updates of tools leave the monitor alone. -/
theorem accept_lateEvents {σ : Monitor} (hσ : σ.phase = .running) (settled : List ToolCall) :
    ∀ (late : List (ToolCall × AgentToolResult)), accept σ (lateEvents settled late) = some σ
  | [] => rfl
  | x :: late => by
    have ih := accept_lateEvents hσ settled late
    unfold lateEvents at ih ⊢
    by_cases hx : x.1 ∈ settled
    · rw [List.filter_cons_of_pos (by simpa using hx), List.map_cons]
      have hstep : σ.step (updateEvent x.1 x.2) = some σ := by
        simp [step, hσ, running, updateEvent]
      rw [accept, hstep]
      exact ih
    · rw [List.filter_cons_of_neg (by simpa using hx)]
      exact ih

theorem observe_of_no_events (late : ℕ → List (ToolCall × AgentToolResult)) (n : ℕ) : ∀ (steps : List Step)
    (settled : List ToolCall), eventsOf steps = [] →
    observe late n settled steps = lateEvents (settled ++ settledCalls steps) (late n)
  | [], settled, _ => by simp [observe, settledCalls]
  | .settled toolCall :: steps, settled, h => by
    rw [observe, observe_of_no_events late n steps (settled ++ [toolCall]) h]
    simp [settledCalls]
  | .event e :: steps, _, h => by
    rw [eventsOf_event] at h
    exact absurd h (List.cons_ne_nil _ _)

/-- What is seen up to the last event, and after it. -/
theorem observe_accept (late : ℕ → List (ToolCall × AgentToolResult)) : ∀ (steps : List Step) (n : ℕ)
    (settled : List ToolCall) {σ σ' : Monitor}, σ.phase = .running → accept σ (eventsOf steps) = some σ' →
    ∃ front, observe late n settled steps =
        front ++ lateEvents (settled ++ settledCalls steps) (late (n + (eventsOf steps).length)) ∧
      accept σ front = some σ'
  | [], n, settled, σ, σ', _, h => by
    refine ⟨[], ?_, h⟩
    simp [observe, settledCalls]
  | .settled toolCall :: steps, n, settled, σ, σ', hσ, h => by
    obtain ⟨front, h1, h2⟩ := observe_accept late steps n (settled ++ [toolCall]) hσ h
    refine ⟨front, ?_, h2⟩
    rw [observe, h1]
    simp [settledCalls]
  | .event e :: steps, n, settled, σ, σ', hσ, h => by
    rw [eventsOf_event] at h
    obtain ⟨σ₁, h1, h2⟩ := Option.bind_eq_some_iff.mp h
    have hlate := accept_lateEvents hσ settled (late n)
    rcases step_phase h1 with ⟨h0, -⟩ | ⟨-, -, ⟨-, hr⟩ | ⟨-, -, hend⟩⟩
    · rw [hσ] at h0
      cases h0
    · obtain ⟨front, h3, h4⟩ := observe_accept late steps (n + 1) settled hr h2
      refine ⟨lateEvents settled (late n) ++ e :: front, ?_, ?_⟩
      · rw [observe, h3]
        have harith : n + 1 + (eventsOf steps).length = n + (e :: eventsOf steps).length := by
          rw [List.length_cons]
          omega
        rw [harith]
        simp [settledCalls]
      · rw [accept_append, hlate, Option.bind_some, accept, h1]
        exact h4
    · -- the run has ended, so no event follows
      have hno := (accept_ended (by rw [hend]) h2).1
      cases (accept_ended (by rw [hend]) h2).2
      refine ⟨lateEvents settled (late n) ++ [e], ?_, ?_⟩
      · rw [observe, observe_of_no_events late (n + 1) steps settled hno, eventsOf_event, hno]
        simp [settledCalls]
      · rw [accept_append, hlate, Option.bind_some, accept_singleton, h1]

/-! ### Runs -/

/-- The updates that tools make after the last event of a run. -/
def lateAfterEnd (script : RunScript) (run : Run) : List AgentEvent :=
  lateEvents (settledCalls run.steps) (script.late (eventsOf run.steps).length)

/-- What the monitor accepts keeps the protocol, if nothing comes after it. -/
theorem protocol_iff_of_accept {script : RunScript} {run : Run} {prompts : List AgentMessage} {rest : List Step}
    (hsteps : run.steps = .event .agentStart :: rest) (hrest : accept (between []) (eventsOf rest) = some (afterRun run))
    (hend : run.ended = true) (hp : prompts <+: run.messages) :
    Protocol prompts (run.trace script) ↔ lateAfterEnd script run = [] := by
  have hafter : afterRun run = { between run.messages with phase := .ended } := by
    rw [afterRun, if_pos hend]
  obtain ⟨front, h1, h2⟩ := observe_accept script.late rest 1 [] rfl hrest
  have hnone : lateEvents [] (script.late 0) = [] := by simp [lateEvents]
  have htrace : run.trace script = (.agentStart :: front) ++ lateAfterEnd script run := by
    rw [Run.trace, hsteps, observe, hnone, List.nil_append, h1, lateAfterEnd, hsteps, List.cons_append,
      List.nil_append]
    have hset : settledCalls (.event .agentStart :: rest) = settledCalls rest := rfl
    have hlen : (eventsOf (.event .agentStart :: rest)).length = 1 + (eventsOf rest).length := by
      rw [eventsOf_event, List.length_cons, Nat.add_comm]
    rw [hset, hlen]
  have haccept : accept init (.agentStart :: front) = some (afterRun run) := h2
  rw [htrace]
  constructor
  · intro h
    obtain ⟨f, m, hf, -⟩ := h.last
    by_contra hne
    obtain ⟨xs, x, hx⟩ := List.eq_nil_or_concat (lateAfterEnd script run) |>.resolve_left hne
    have hlast := congrArg List.getLast? hf
    rw [hx, List.concat_eq_append, ← List.append_assoc, List.getLast?_concat, List.getLast?_concat,
      Option.some.injEq] at hlast
    have hmem : x ∈ lateAfterEnd script run := by rw [hx, List.concat_eq_append]; simp
    obtain ⟨y, -, hy⟩ := List.mem_map.mp hmem
    rw [← hy] at hlast
    cases hlast
  · intro h0
    rw [h0, List.append_nil]
    exact protocol_of_accept haccept (by rw [hafter]) (by rw [hafter]; exact hp)

/-- A run that goes on, however long it has been going, has not emitted
`agent_end`, and all its turns so far are as they should be. -/
theorem runAgentLoop_so_far {config : AgentLoopConfig} (hpart : PartitionsInOrder config) (script : RunScript)
    (context : AgentContext) (turns : ℕ) (prompts : List AgentMessage)
    (hend : (runAgentLoop config script turns prompts context).ended = false) :
    TurnsOk ((runAgentLoop config script turns prompts context).trace script) ∧
      ∀ m, .agentEnd m ∉ (runAgentLoop config script turns prompts context).trace script := by
  obtain ⟨rest, hrun, hacc, -⟩ := accept_runLoop hpart script turns 0 true
    { context with messages := context.messages ++ prompts } prompts script.steering 0
  have hrun' : runAgentLoop config script turns prompts context =
      ⟨.event .agentStart :: .event .turnStart :: prompts.flatMap messageSteps ++ rest.steps, rest.messages,
        rest.ended⟩ := by
    rw [runAgentLoop, hrun]
  rw [hrun'] at hend ⊢
  have hsteps : accept (between []) (eventsOf (.event .turnStart :: prompts.flatMap messageSteps ++ rest.steps)) =
      some (between rest.messages) := by
    show accept (between []) (eventsOf (prompts.flatMap messageSteps ++ rest.steps)) = _
    rw [eventsOf_append, accept_append, accept_messageSteps, Option.bind_some, List.nil_append, hacc, afterRun,
      if_neg (by simp [show rest.ended = false from hend])]
  obtain ⟨front, h1, h2⟩ := observe_accept script.late _ 1 [] rfl hsteps
  have hnone : lateEvents [] (script.late 0) = [] := by simp [lateEvents]
  have haccept : accept init (Run.trace script ⟨.event .agentStart :: .event .turnStart ::
      prompts.flatMap messageSteps ++ rest.steps, rest.messages, rest.ended⟩) = some (between rest.messages) := by
    show accept init (observe script.late 0 [] (.event .agentStart :: (.event .turnStart ::
      prompts.flatMap messageSteps ++ rest.steps))) = _
    rw [observe, hnone, List.nil_append, h1]
    show accept (between []) (front ++ _) = _
    rw [accept_append, h2, Option.bind_some]
    exact accept_lateEvents rfl _ _
  exact ⟨turnsOk_of_accept haccept, not_mem_agentEnd haccept rfl⟩

/-- **A run of the loop keeps the protocol exactly when no tool calls `onUpdate`
after it has ended.** The prompts of the run are the first of its messages. -/
theorem runAgentLoop_protocol_iff {config : AgentLoopConfig} (hpart : PartitionsInOrder config) (script : RunScript)
    (context : AgentContext) :
    (∀ (turns : ℕ) (prompts : List AgentMessage), (runAgentLoop config script turns prompts context).ended = true →
      (Protocol prompts ((runAgentLoop config script turns prompts context).trace script) ↔
        lateAfterEnd script (runAgentLoop config script turns prompts context) = [])) ∧
    ∀ (turns : ℕ) (run : Run), runAgentLoopContinue config script turns context = .ok run → run.ended = true →
      (Protocol [] (run.trace script) ↔ lateAfterEnd script run = []) := by
  constructor
  · intro turns prompts hend
    obtain ⟨rest, hrun, hacc, hpre⟩ := accept_runLoop hpart script turns 0 true
      { context with messages := context.messages ++ prompts } prompts script.steering 0
    have hrun' : runAgentLoop config script turns prompts context =
        ⟨.event .agentStart :: .event .turnStart :: prompts.flatMap messageSteps ++ rest.steps, rest.messages,
          rest.ended⟩ := by
      rw [runAgentLoop, hrun]
    rw [hrun'] at hend ⊢
    refine protocol_iff_of_accept rfl ?_ hend hpre
    show accept (between []) (eventsOf (prompts.flatMap messageSteps ++ rest.steps)) = some (afterRun rest)
    rw [eventsOf_append, accept_append, accept_messageSteps, Option.bind_some, List.nil_append]
    exact hacc
  · intro turns run hrun hend
    rw [runAgentLoopContinue] at hrun
    obtain ⟨rest, hrest, hacc, hpre⟩ := accept_runLoop hpart script turns 0 true context [] script.steering 0
    rw [hrest] at hrun
    split at hrun
    · cases hrun
    · cases hrun
    · cases hrun
      exact protocol_iff_of_accept rfl hacc hend List.nil_prefix

/-! ### An update after the end -/

/-- One tool, and no hooks. -/
def plainConfig : AgentLoopConfig := ⟨none, none, false, false⟩

/-- The call of a tool that keeps `onUpdate`. -/
def lateCall : ToolCall := ⟨"a", "watch", .null⟩

/-- A response with the given content. -/
def plainResponse (content : List AssistantBlock) (stopReason : StopReason) : AssistantMessage :=
  ⟨content, "api", "provider", "model", none, stopReason, none, 0⟩

/-- The first turn calls the tool, the second ends the run; then the tool calls
`onUpdate`. -/
def lateScript : RunScript where
  steering := []
  turns i :=
    { response := []
      result := if i = 0 then plainResponse [.toolCall lateCall] .toolUse else plainResponse [.text "done"] .stop
      calls := fun _ => ⟨.ok .null, .ok none, [], .ok ⟨[], none, none⟩, .ok none, 0⟩
      schedule := fun _ => []
      nextContext := none
      shouldStop := false
      steering := []
      followUp := [] }
  abortedFrom := none
  late n := if n = 16 then [(lateCall, ⟨[], none, none⟩)] else []

/-- Its run. -/
def lateRun : Run := runAgentLoop plainConfig lateScript 2 [.user (.text "watch") 0] ⟨[], [⟨"watch", none⟩]⟩

theorem plainConfig_partition : PartitionsInOrder plainConfig := by
  intro f hf
  cases hf

theorem lateRun_ended : lateRun.ended = true := by decide

/-- The last event is not `agent_end`. -/
theorem runAgentLoop_late_update : ¬ ∀ (config : AgentLoopConfig) (script : RunScript) (context : AgentContext) (turns : ℕ)
    (prompts : List AgentMessage), PartitionsInOrder config →
    (runAgentLoop config script turns prompts context).ended = true →
    Protocol prompts ((runAgentLoop config script turns prompts context).trace script) := by
  intro h
  obtain ⟨front, messages, htrace, -⟩ := (h plainConfig lateScript ⟨[], [⟨"watch", none⟩]⟩ 2
    [.user (.text "watch") 0] plainConfig_partition lateRun_ended).last
  have hlast : (lateRun.trace lateScript).getLast? = some (updateEvent lateCall ⟨[], none, none⟩) := by decide
  rw [lateRun, htrace, List.getLast?_concat, Option.some.injEq] at hlast
  cases hlast

theorem runAgentLoop_protocol_iff_late :
    Protocol [.user (.text "watch") 0] (lateRun.trace lateScript) ↔ lateAfterEnd lateScript lateRun = [] :=
  (runAgentLoop_protocol_iff plainConfig_partition lateScript ⟨[], [⟨"watch", none⟩]⟩).1 2 [.user (.text "watch") 0]
    lateRun_ended

/-- After its first turn. -/
theorem runAgentLoop_so_far_watch : TurnsOk ((runAgentLoop plainConfig lateScript 1 [.user (.text "watch") 0]
    ⟨[], [⟨"watch", none⟩]⟩).trace lateScript) :=
  (runAgentLoop_so_far plainConfig_partition lateScript _ 1 _ (by decide)).1

end Trek
