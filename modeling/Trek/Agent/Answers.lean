/-
# Which tool calls are answered

Without an abort a batch that runs its calls one after the other, or all at
once, answers each of them and stops the agent if all of them say so. Groups
stop at the first group all of whose calls say so: the calls after it are left
without a result, and even if it is the last one the agent stops where the whole
batch would not have stopped it (`executeToolCalls_answers_iff`).
-/
import Trek.Agent.Batch

namespace Trek

variable (config : AgentLoopConfig) (context : AgentContext) {abortedFrom : Option ℕ} (calls : ℕ → CallScript)

/-! ### A signal that is not aborted -/

/-- No check from `a` to before `b` sees the signal aborted. -/
def NotAborted (abortedFrom : Option ℕ) (a b : ℕ) : Prop := ∀ i, a ≤ i → i < b → aborted abortedFrom i = false

theorem NotAborted.mono {a b a' b' : ℕ} (h : NotAborted abortedFrom a b) (ha : a ≤ a') (hb : b' ≤ b) :
    NotAborted abortedFrom a' b' := fun i hi hi' => h i (by omega) (by omega)

theorem aborted_none (i : ℕ) : aborted none i = false := rfl

theorem le_prepareToolCall (abortedFrom : Option ℕ) (script : CallScript) (toolCall : ToolCall) (checks : ℕ) :
    checks ≤ (prepareToolCall config context abortedFrom script toolCall checks).2 := by
  unfold prepareToolCall
  dsimp only
  repeat' split
  all_goals simp only [le_refl]
  all_goals omega

theorem prepareToolCall_of_notAborted {script : CallScript} {toolCall : ToolCall} {checks : ℕ}
    (h : NotAborted abortedFrom checks (prepareToolCall config context abortedFrom script toolCall checks).2) :
    prepareToolCall config context abortedFrom script toolCall checks =
      prepareToolCall config context none script toolCall checks := by
  cases htool : context.tool? toolCall.name with
  | none => simp only [prepareToolCall, htool]
  | some tool =>
    cases hargs : script.arguments with
    | error message => simp only [prepareToolCall, htool, hargs]
    | ok args =>
      simp only [prepareToolCall, htool, hargs, aborted_none, Bool.false_eq_true, ↓reduceIte] at h ⊢
      -- the first check sees no abort, whether it is the only one or not
      have hfirst : ∀ {n}, checks < n → NotAborted abortedFrom checks n → aborted abortedFrom checks = false :=
        fun hn h => h checks le_rfl hn
      by_cases hb : config.beforeToolCall = true
      · simp only [hb, ↓reduceIte] at h ⊢
        cases hbefore : script.before with
        | error message => simp only
        | ok beforeResult =>
          simp only [hbefore] at h
          by_cases h0 : aborted abortedFrom checks = true
          · rw [if_pos h0] at h
            exact absurd (hfirst (Nat.lt_succ_self _) h) (by simp [h0])
          · simp only [h0, Bool.false_eq_true, ↓reduceIte] at h ⊢
            cases beforeResult with
            | none =>
              have := h (checks + 1) (by omega) (by simp)
              simp [this]
            | some r =>
              by_cases hr : r.block = true
              · simp only [hr, ↓reduceIte]
              · simp only [hr, Bool.false_eq_true, ↓reduceIte] at h ⊢
                have := h (checks + 1) (by omega) (by simp)
                simp [this]
      · simp only [hb, Bool.false_eq_true, ↓reduceIte] at h ⊢
        simp [hfirst (Nat.lt_succ_self _) h]

/-! ### What comes of each call -/

/-- What comes of a call that no abort reaches. -/
def callOutcome (script : CallScript) (toolCall : ToolCall) : FinalizedToolCallOutcome :=
  match (prepareToolCall config context none script toolCall 0).1 with
  | .immediate result isError => ⟨toolCall, result, isError⟩
  | .prepared => preparedOutcome config script toolCall

/-- What comes of some calls, the `k`-th of the turn and those after it. -/
def callOutcomes : ℕ → List ToolCall → List FinalizedToolCallOutcome
  | _, [] => []
  | k, toolCall :: rest => callOutcome config context (calls k) toolCall :: callOutcomes (k + 1) rest

theorem callOutcome_toolCall (script : CallScript) (toolCall : ToolCall) :
    (callOutcome config context script toolCall).toolCall = toolCall := by
  unfold callOutcome
  split
  · rfl
  · exact finalizeExecutedToolCall_toolCall config _ _ _

theorem callOutcomes_append : ∀ (a b : List ToolCall) (k : ℕ),
    callOutcomes config context calls k (a ++ b) =
      callOutcomes config context calls k a ++ callOutcomes config context calls (k + a.length) b
  | [], b, k => by simp [callOutcomes]
  | c :: a, b, k => by
    have harith : k + 1 + a.length = k + (a.length + 1) := by omega
    rw [List.cons_append, callOutcomes, callOutcomes, callOutcomes_append a b (k + 1), List.cons_append,
      List.length_cons, harith]

theorem length_callOutcomes : ∀ (k : ℕ) (toolCalls : List ToolCall),
    (callOutcomes config context calls k toolCalls).length = toolCalls.length
  | _, [] => rfl
  | k, c :: rest => by rw [callOutcomes, List.length_cons, length_callOutcomes (k + 1) rest, List.length_cons]

theorem toolResultMessages_append : ∀ (a b : List FinalizedToolCallOutcome) (k : ℕ),
    toolResultMessages calls k (a ++ b) =
      toolResultMessages calls k a ++ toolResultMessages calls (k + a.length) b
  | [], b, k => by simp [toolResultMessages]
  | c :: a, b, k => by
    have harith : k + 1 + a.length = k + (a.length + 1) := by omega
    rw [List.cons_append, toolResultMessages, toolResultMessages, toolResultMessages_append a b (k + 1),
      List.cons_append, List.length_cons, harith]

/-- The result messages of some calls that no abort reaches. -/
def answers (k : ℕ) (toolCalls : List ToolCall) : List ToolResultMessage :=
  toolResultMessages calls k (callOutcomes config context calls k toolCalls)

theorem answers_append (a b : List ToolCall) (k : ℕ) :
    answers config context calls k (a ++ b) =
      answers config context calls k a ++ answers config context calls (k + a.length) b := by
  rw [answers, callOutcomes_append, toolResultMessages_append, length_callOutcomes]
  rfl

theorem map_toolCallId_answers : ∀ (k : ℕ) (toolCalls : List ToolCall),
    (answers config context calls k toolCalls).map (·.toolCallId) = toolCalls.map (·.id)
  | _, [] => rfl
  | k, c :: rest => by
    have ih := map_toolCallId_answers (k + 1) rest
    unfold answers at ih ⊢
    rw [callOutcomes, toolResultMessages, List.map_cons, List.map_cons, ih, createToolResultMessage,
      callOutcome_toolCall]

/-- The outcome does not depend on how often the signal was checked before. -/
theorem prepareToolCall_none (script : CallScript) (toolCall : ToolCall) (checks : ℕ) :
    (prepareToolCall config context none script toolCall checks).1 =
      (prepareToolCall config context none script toolCall 0).1 := by
  unfold prepareToolCall
  simp only [aborted_none, Bool.false_eq_true, ↓reduceIte]
  repeat' split
  all_goals rfl

/-! ### The batches -/

theorem le_startCalls (abortedFrom : Option ℕ) : ∀ (toolCalls : List ToolCall) (k checks : ℕ),
    checks ≤ (startCalls config context abortedFrom calls k checks toolCalls).2.2
  | [], _, _ => le_rfl
  | toolCall :: rest, k, checks => by
    have hp := le_prepareToolCall config context abortedFrom (calls k) toolCall checks
    have ih := le_startCalls abortedFrom rest (k + 1)
      ((prepareToolCall config context abortedFrom (calls k) toolCall checks).2 + 1)
    rw [startCalls]
    dsimp only
    split
    · exact hp.trans (Nat.le_succ _)
    · dsimp only
      omega

theorem le_sequentialCalls (abortedFrom : Option ℕ) : ∀ (toolCalls : List ToolCall) (k checks : ℕ),
    checks ≤ (sequentialCalls config context abortedFrom calls k checks toolCalls).2.2.2
  | [], _, _ => le_rfl
  | toolCall :: rest, k, checks => by
    have hp := le_prepareToolCall config context abortedFrom (calls k) toolCall checks
    have ih := le_sequentialCalls abortedFrom rest (k + 1)
      ((prepareToolCall config context abortedFrom (calls k) toolCall checks).2 + 1)
    rw [sequentialCalls]
    dsimp only
    split
    · exact hp.trans (Nat.le_succ _)
    · dsimp only
      omega

/-- A prepared call that no abort reaches comes to its outcome. -/
theorem outcome_of_notAborted {script : CallScript} {toolCall : ToolCall} {checks : ℕ}
    (h : NotAborted abortedFrom checks (prepareToolCall config context abortedFrom script toolCall checks).2) :
    ∃ preparation, (prepareToolCall config context abortedFrom script toolCall checks).1 = preparation ∧
      (sequentialCall config script toolCall preparation).2 = callOutcome config context script toolCall ∧
      (startedCall script toolCall preparation).2.outcome config = callOutcome config context script toolCall := by
  refine ⟨_, rfl, ?_⟩
  rw [prepareToolCall_of_notAborted config context h, prepareToolCall_none]
  unfold callOutcome
  cases (prepareToolCall config context none script toolCall 0).1 <;> exact ⟨rfl, rfl⟩

/-- The first loop starts all calls. -/
theorem startCalls_of_notAborted : ∀ (toolCalls : List ToolCall) (k checks : ℕ),
    NotAborted abortedFrom checks (startCalls config context abortedFrom calls k checks toolCalls).2.2 →
    (startCalls config context abortedFrom calls k checks toolCalls).2.1.map (·.outcome config) =
      callOutcomes config context calls k toolCalls
  | [], _, _, _ => rfl
  | toolCall :: rest, k, checks, h => by
    have hle := le_startCalls config context calls abortedFrom rest (k + 1)
      ((prepareToolCall config context abortedFrom (calls k) toolCall checks).2 + 1)
    have hp := le_prepareToolCall config context abortedFrom (calls k) toolCall checks
    rw [startCalls] at h ⊢
    dsimp only at h ⊢
    split at h
    · rename_i hab
      have := h _ hp (Nat.lt_succ_self _)
      rw [hab] at this
      cases this
    · dsimp only at h
      have hna : NotAborted abortedFrom checks
          (prepareToolCall config context abortedFrom (calls k) toolCall checks).2 := h.mono le_rfl (by omega)
      obtain ⟨preparation, hprep, -, hout⟩ := outcome_of_notAborted config context hna
      rw [if_neg (by assumption), hprep, callOutcomes, List.map_cons, hout,
        startCalls_of_notAborted rest (k + 1) _ (h.mono (by omega) le_rfl)]

/-- The calls run one after the other, all of them. -/
theorem sequentialCalls_of_notAborted : ∀ (toolCalls : List ToolCall) (k checks : ℕ),
    NotAborted abortedFrom checks (sequentialCalls config context abortedFrom calls k checks toolCalls).2.2.2 →
    (sequentialCalls config context abortedFrom calls k checks toolCalls).2.1 =
        callOutcomes config context calls k toolCalls ∧
      (sequentialCalls config context abortedFrom calls k checks toolCalls).2.2.1 =
        answers config context calls k toolCalls
  | [], _, _, _ => ⟨rfl, rfl⟩
  | toolCall :: rest, k, checks, h => by
    have hle := le_sequentialCalls config context calls abortedFrom rest (k + 1)
      ((prepareToolCall config context abortedFrom (calls k) toolCall checks).2 + 1)
    have hp := le_prepareToolCall config context abortedFrom (calls k) toolCall checks
    rw [sequentialCalls] at h ⊢
    dsimp only at h ⊢
    split at h
    · rename_i hab
      have := h _ hp (Nat.lt_succ_self _)
      rw [hab] at this
      cases this
    · dsimp only at h
      have hna : NotAborted abortedFrom checks
          (prepareToolCall config context abortedFrom (calls k) toolCall checks).2 := h.mono le_rfl (by omega)
      obtain ⟨preparation, hprep, hout, -⟩ := outcome_of_notAborted config context hna
      obtain ⟨ih1, ih2⟩ := sequentialCalls_of_notAborted rest (k + 1) _ (h.mono (by omega) le_rfl)
      rw [if_neg (by assumption), hprep, hout, ih1, ih2]
      exact ⟨rfl, rfl⟩

theorem executeToolCallsParallel_of_notAborted {schedule : List ℕ} {k checks : ℕ} {toolCalls : List ToolCall}
    (h : NotAborted abortedFrom checks
      (executeToolCallsParallel config context abortedFrom calls schedule k checks toolCalls).checks) :
    (executeToolCallsParallel config context abortedFrom calls schedule k checks toolCalls).messages =
        answers config context calls k toolCalls ∧
      (executeToolCallsParallel config context abortedFrom calls schedule k checks toolCalls).terminate =
        shouldTerminateToolBatch (callOutcomes config context calls k toolCalls) := by
  have hs := startCalls_of_notAborted config context calls toolCalls k checks h
  unfold executeToolCallsParallel
  dsimp only
  rw [hs]
  exact ⟨rfl, rfl⟩

/-! ### Groups -/

/-- All calls of a group say that the agent should stop. -/
def groupTerminates (k : ℕ) (group : List ToolCall) : Bool :=
  shouldTerminateToolBatch (callOutcomes config context calls k group)

/-- No group says that the agent should stop. -/
def noGroupTerminates : ℕ → List (List ToolCall) → Bool
  | _, [] => true
  | k, group :: groups => !groupTerminates config context calls k group && noGroupTerminates (k + group.length) groups

/-- The calls up to the end of the first group that says so. -/
def answeredCalls : ℕ → List (List ToolCall) → List ToolCall
  | _, [] => []
  | k, group :: groups =>
    if groupTerminates config context calls k group then group else group ++ answeredCalls (k + group.length) groups

theorem groupTerminates_nil (k : ℕ) : groupTerminates config context calls k [] = false := rfl

theorem groupTerminates_append {k : ℕ} {a b : List ToolCall} (ha : a ≠ []) :
    groupTerminates config context calls k (a ++ b) = true →
      groupTerminates config context calls k a = true := by
  unfold groupTerminates shouldTerminateToolBatch
  rw [callOutcomes_append, List.all_append, Bool.and_eq_true, Bool.and_eq_true, Bool.and_eq_true]
  rintro ⟨-, h, -⟩
  refine ⟨?_, h⟩
  rw [Bool.not_eq_true', List.isEmpty_eq_false_iff_exists_mem]
  obtain ⟨x, xs, rfl⟩ := List.exists_cons_of_ne_nil ha
  exact ⟨_, List.mem_cons_self⟩

theorem answeredCalls_isPrefix : ∀ (groups : List (List ToolCall)) (k : ℕ),
    answeredCalls config context calls k groups <+: groups.flatten
  | [], _ => List.prefix_refl _
  | group :: groups, k => by
    unfold answeredCalls
    split
    · exact List.prefix_append _ _
    · exact (List.prefix_append_right_inj _).mpr (answeredCalls_isPrefix groups _)

theorem answeredCalls_of_noGroupTerminates : ∀ (groups : List (List ToolCall)) (k : ℕ),
    noGroupTerminates config context calls k groups = true →
    answeredCalls config context calls k groups = groups.flatten
  | [], _, _ => rfl
  | group :: groups, k, h => by
    rw [noGroupTerminates, Bool.and_eq_true, Bool.not_eq_true'] at h
    rw [answeredCalls, h.1, if_neg Bool.false_ne_true, List.flatten_cons,
      answeredCalls_of_noGroupTerminates groups _ h.2]

theorem noGroupTerminates_of_flatten_nil : ∀ (groups : List (List ToolCall)) (k : ℕ), groups.flatten = [] →
    noGroupTerminates config context calls k groups = true
  | [], _, _ => rfl
  | group :: groups, k, h => by
    rw [List.flatten_cons, List.append_eq_nil_iff] at h
    rw [noGroupTerminates, h.1, groupTerminates_nil, noGroupTerminates_of_flatten_nil groups _ h.2]
    rfl

/-- All calls are in the groups up to the first that stops the agent, and it
stops where all of them would stop it, exactly when no group stops it or one
group has all the calls. -/
theorem answeredCalls_complete_iff : ∀ (groups : List (List ToolCall)) (k : ℕ),
    ((answeredCalls config context calls k groups).length = groups.flatten.length ∧
      (!noGroupTerminates config context calls k groups) = groupTerminates config context calls k groups.flatten) ↔
    noGroupTerminates config context calls k groups = true ∨
      ∃ group ∈ groups, group.length = groups.flatten.length
  | [], _ => by simp [answeredCalls, noGroupTerminates, groupTerminates_nil]
  | [] :: groups, k => by
    have ih := answeredCalls_complete_iff groups k
    simp only [answeredCalls, noGroupTerminates, groupTerminates_nil, Bool.false_eq_true, ↓reduceIte, List.nil_append,
      List.length_nil, Nat.add_zero, List.flatten_cons, Bool.not_false, Bool.true_and, List.mem_cons,
      exists_eq_or_imp] at ih ⊢
    rw [ih]
    constructor
    · rintro (h | h)
      · exact Or.inl h
      · exact Or.inr (Or.inr h)
    · rintro (h | h | h)
      · exact Or.inl h
      · exact Or.inl (noGroupTerminates_of_flatten_nil config context calls _ _ (List.length_eq_zero_iff.mp h.symm))
      · exact Or.inr h
  | (c :: cs) :: groups, k => by
    have hne : (c :: cs) ≠ [] := List.cons_ne_nil _ _
    generalize hg : (c :: cs) = group at hne
    have hpos : 0 < group.length := List.length_pos_iff.mpr hne
    -- no later group has all the calls
    have hlater : ¬ ∃ g ∈ groups, g.length = (group :: groups).flatten.length := by
      rintro ⟨g, hmem, hlen⟩
      have := (List.sublist_flatten_of_mem hmem).length_le
      rw [List.flatten_cons, List.length_append] at hlen
      omega
    have hwhole : group.length = (group :: groups).flatten.length ↔ groups.flatten = [] := by
      rw [List.flatten_cons, List.length_append, ← List.length_eq_zero_iff]
      omega
    have hor : (∃ g ∈ group :: groups, g.length = (group :: groups).flatten.length) ↔ groups.flatten = [] := by
      rw [List.exists_mem_cons_iff, hwhole, or_iff_left hlater]
    rw [hor]
    by_cases ht : groupTerminates config context calls k group = true
    · rw [answeredCalls, if_pos ht, noGroupTerminates, ht, hwhole]
      simp only [Bool.not_true, Bool.false_and, Bool.not_false, Bool.false_eq_true, false_or, and_iff_left_iff_imp]
      intro h
      rw [List.flatten_cons, h, List.append_nil, ht]
    · have hall : groupTerminates config context calls k (group :: groups).flatten = false := by
        rw [← Bool.not_eq_true]
        exact fun h => ht (groupTerminates_append config context calls hne h)
      rw [answeredCalls, if_neg ht, noGroupTerminates, hall, Bool.eq_false_iff.mpr ht]
      simp only [Bool.not_false, Bool.true_and, Bool.not_eq_eq_eq_not, List.flatten_cons, List.length_append,
        Nat.add_left_cancel_iff]
      constructor
      · exact fun h => Or.inl h.2
      · rintro (h | h)
        · exact ⟨by rw [answeredCalls_of_noGroupTerminates config context calls _ _ h], h⟩
        · have hn := noGroupTerminates_of_flatten_nil config context calls _ (k + group.length) h
          exact ⟨by rw [answeredCalls_of_noGroupTerminates config context calls _ _ hn], hn⟩

theorem le_executeGroups (abortedFrom : Option ℕ) (schedule : ℕ → List ℕ) :
    ∀ (groups : List (List ToolCall)) (g k checks : ℕ),
    checks ≤ (executeGroups config context abortedFrom calls schedule g k checks groups).checks
  | [], _, _, _ => le_rfl
  | group :: groups, g, k, checks => by
    have hb : checks ≤
        (executeToolCallsParallel config context abortedFrom calls (schedule g) k checks group).checks :=
      le_startCalls config context calls abortedFrom group k checks
    have ih0 := le_executeGroups abortedFrom schedule groups (g + 1) k checks
    have ih := le_executeGroups abortedFrom schedule groups (g + 1) (k + group.length)
      ((executeToolCallsParallel config context abortedFrom calls (schedule g) k checks group).checks + 1)
    rw [executeGroups]
    dsimp only
    split
    · exact ih0
    · split
      · exact hb
      · split
        · exact hb.trans (Nat.le_succ _)
        · exact hb.trans ((Nat.le_succ _).trans ih)

/-- The groups run up to the first that stops the agent. -/
theorem executeGroups_of_notAborted {schedule : ℕ → List ℕ} : ∀ (groups : List (List ToolCall)) (g k checks : ℕ),
    NotAborted abortedFrom checks
      (executeGroups config context abortedFrom calls schedule g k checks groups).checks →
    (executeGroups config context abortedFrom calls schedule g k checks groups).messages =
        answers config context calls k (answeredCalls config context calls k groups) ∧
      (executeGroups config context abortedFrom calls schedule g k checks groups).terminate =
        !noGroupTerminates config context calls k groups
  | [], _, _, _, _ => ⟨rfl, rfl⟩
  | group :: groups, g, k, checks, h => by
    have hle := le_executeGroups config context calls abortedFrom schedule groups (g + 1) (k + group.length)
      ((executeToolCallsParallel config context abortedFrom calls (schedule g) k checks group).checks + 1)
    have hb : checks ≤
        (executeToolCallsParallel config context abortedFrom calls (schedule g) k checks group).checks :=
      le_startCalls config context calls abortedFrom group k checks
    rw [executeGroups] at h ⊢
    dsimp only at h ⊢
    rw [answeredCalls, noGroupTerminates]
    by_cases he : group.isEmpty = true
    · rw [if_pos he] at h ⊢
      obtain ⟨ih1, ih2⟩ := executeGroups_of_notAborted groups (g + 1) k checks h
      rw [List.isEmpty_iff.mp he, groupTerminates_nil, ih1, ih2]
      exact ⟨rfl, rfl⟩
    · rw [if_neg he] at h ⊢
      have hbatch : NotAborted abortedFrom checks
          (executeToolCallsParallel config context abortedFrom calls (schedule g) k checks group).checks := by
        refine h.mono le_rfl ?_
        split
        · exact le_rfl
        · split
          · exact Nat.le_succ _
          · exact (Nat.le_succ _).trans hle
      obtain ⟨hm, ht⟩ := executeToolCallsParallel_of_notAborted config context calls hbatch
      rw [← groupTerminates] at ht
      rw [ht] at h ⊢
      by_cases hterm : groupTerminates config context calls k group = true
      · rw [if_pos hterm, if_pos hterm, hm, hterm]
        exact ⟨rfl, ht.trans hterm⟩
      · rw [if_neg hterm] at h ⊢
        have hab : aborted abortedFrom
            (executeToolCallsParallel config context abortedFrom calls (schedule g) k checks group).checks = false := by
          by_contra hab
          rw [Bool.not_eq_false] at hab
          rw [if_pos hab] at h
          exact absurd (h _ hb (Nat.lt_succ_self _)) (by simp [hab])
        rw [hab, if_neg Bool.false_ne_true] at h ⊢
        obtain ⟨ih1, ih2⟩ := executeGroups_of_notAborted groups (g + 1) (k + group.length) _
          (h.mono (by omega) le_rfl)
        rw [if_neg hterm, hm, ih1, ih2, answers_append, Bool.eq_false_iff.mpr hterm]
        exact ⟨rfl, rfl⟩

/-! ### Every call is answered -/

/-- A batch has one result message for each call, the messages of a batch that
runs all of them at once, and its decision to stop the agent. -/
structure Answered (batch all : Batch) (toolCalls : List ToolCall) : Prop where
  one : (batch.messages.map (·.toolCallId)).Perm (toolCalls.map (·.id))
  same : ∀ message, message ∈ batch.messages ↔ message ∈ all.messages
  stop : batch.terminate = all.terminate

theorem executeToolCallsParallel_none (schedule : List ℕ) (toolCalls : List ToolCall) :
    (executeToolCallsParallel config context none calls schedule 0 0 toolCalls).messages =
        answers config context calls 0 toolCalls ∧
      (executeToolCallsParallel config context none calls schedule 0 0 toolCalls).terminate =
        groupTerminates config context calls 0 toolCalls :=
  executeToolCallsParallel_of_notAborted config context calls fun i _ _ => aborted_none i

/-- A batch that answers some first calls in order answers all if these are all. -/
theorem answered_iff {batch : Batch} {answered toolCalls : List ToolCall} (schedule : List ℕ)
    (hm : batch.messages = answers config context calls 0 answered) (hp : answered <+: toolCalls) :
    Answered batch (executeToolCallsParallel config context none calls schedule 0 0 toolCalls) toolCalls ↔
      answered.length = toolCalls.length ∧ batch.terminate = groupTerminates config context calls 0 toolCalls := by
  obtain ⟨ha1, ha2⟩ := executeToolCallsParallel_none config context calls schedule toolCalls
  constructor
  · intro h
    refine ⟨?_, h.stop.trans ha2⟩
    have := h.one.length_eq
    rwa [hm, map_toolCallId_answers, List.length_map, List.length_map] at this
  · rintro ⟨hlen, hstop⟩
    have heq := hp.eq_of_length hlen
    refine ⟨?_, fun m => by rw [hm, ha1, heq], hstop.trans ha2.symm⟩
    rw [hm, map_toolCallId_answers, heq]

/-- **Every call is answered, and the agent stops where one batch of all calls
would stop it, exactly when the calls run one after the other, no group stops
the agent, or one group has all the calls.** -/
theorem executeToolCalls_answers_iff {toolCalls : List ToolCall} {schedule : ℕ → List ℕ} {checks : ℕ}
    (hpart : ∀ f, config.partitionToolCalls = some f → (f toolCalls).flatten = toolCalls)
    (hsig : NotAborted abortedFrom checks
      (executeToolCalls config context abortedFrom calls schedule checks toolCalls).checks) (schedule' : List ℕ) :
    Answered (executeToolCalls config context abortedFrom calls schedule checks toolCalls)
        (executeToolCallsParallel config context none calls schedule' 0 0 toolCalls) toolCalls ↔
      runsSequentially config context toolCalls = true ∨
        noGroupTerminates config context calls 0 (toolGroups config toolCalls) = true ∨
        ∃ group ∈ toolGroups config toolCalls, group.length = toolCalls.length := by
  have hflat := flatten_toolGroups config hpart
  rw [executeToolCalls] at hsig ⊢
  by_cases hseq : runsSequentially config context toolCalls = true
  · rw [if_pos hseq] at hsig ⊢
    obtain ⟨h1, h2⟩ := sequentialCalls_of_notAborted config context calls toolCalls 0 checks hsig
    refine iff_of_true ?_ (Or.inl hseq)
    refine (answered_iff config context calls schedule' h2 (List.prefix_refl _)).mpr ⟨rfl, ?_⟩
    rw [executeToolCallsSequential, h1]
    rfl
  · rw [if_neg hseq] at hsig ⊢
    rw [or_iff_right hseq]
    generalize toolGroups config toolCalls = groups at hflat hsig ⊢
    match groups with
    | [] =>
      obtain ⟨h1, h2⟩ := executeToolCallsParallel_of_notAborted config context calls hsig
      exact iff_of_true ((answered_iff config context calls schedule' h1 (List.prefix_refl _)).mpr ⟨rfl, h2⟩)
        (Or.inl rfl)
    | [group] =>
      rw [List.flatten_singleton] at hflat
      subst hflat
      obtain ⟨h1, h2⟩ := executeToolCallsParallel_of_notAborted config context calls hsig
      exact iff_of_true ((answered_iff config context calls schedule' h1 (List.prefix_refl _)).mpr ⟨rfl, h2⟩)
        (Or.inr ⟨group, List.mem_singleton_self _, rfl⟩)
    | group :: group' :: groups =>
      obtain ⟨h1, h2⟩ := executeGroups_of_notAborted config context calls _ 0 0 checks hsig
      have hp := answeredCalls_isPrefix config context calls (group :: group' :: groups) 0
      have hiff := answeredCalls_complete_iff config context calls (group :: group' :: groups) 0
      rw [hflat] at hp hiff
      rw [answered_iff config context calls schedule' h1 hp, h2]
      exact hiff

/-! ### A group that stops the agent -/

/-- Every call is a group of its own. -/
def singletonConfig : AgentLoopConfig := ⟨none, some fun toolCalls => toolCalls.map ([·]), false, false⟩

/-- One tool. -/
def oneToolContext : AgentContext := ⟨[], [⟨"finish", none⟩]⟩

/-- The result of the first call says that the agent should stop. -/
def firstTerminates (k : ℕ) : CallScript :=
  ⟨.ok .null, .ok none, [], .ok ⟨[.text "ok"], none, some (k = 0)⟩, .ok none, 0⟩

/-- Two calls of the tool. -/
def twoCalls : List ToolCall := [⟨"a", "finish", .null⟩, ⟨"b", "finish", .null⟩]

theorem singletonConfig_partition : ∀ f, singletonConfig.partitionToolCalls = some f → (f twoCalls).flatten = twoCalls := by
  intro f hf
  cases hf
  rfl

/-- The second call is left without a result. -/
theorem executeToolCalls_unanswered : ¬ ∀ (config : AgentLoopConfig) (context : AgentContext) (abortedFrom : Option ℕ)
    (calls : ℕ → CallScript) (toolCalls : List ToolCall) (schedule : ℕ → List ℕ) (checks : ℕ),
    (toolCalls.map (·.id)).Nodup →
    (∀ f, config.partitionToolCalls = some f → (f toolCalls).flatten = toolCalls) →
    NotAborted abortedFrom checks
      (executeToolCalls config context abortedFrom calls schedule checks toolCalls).checks →
    ∀ schedule', Answered (executeToolCalls config context abortedFrom calls schedule checks toolCalls)
      (executeToolCallsParallel config context none calls schedule' 0 0 toolCalls) toolCalls := by
  intro h
  have hone := (h singletonConfig oneToolContext none firstTerminates twoCalls (fun _ => []) 0 (by decide)
    singletonConfig_partition (fun _ _ _ => rfl) []).one
  have hids : (executeToolCalls singletonConfig oneToolContext none firstTerminates (fun _ => []) 0 twoCalls).messages.map
      (·.toolCallId) = ["a"] := by decide
  rw [hids] at hone
  exact absurd hone.length_eq (by decide)

theorem executeToolCalls_answers_iff_twoCalls :
    Answered (executeToolCalls singletonConfig oneToolContext none firstTerminates (fun _ => []) 0 twoCalls)
        (executeToolCallsParallel singletonConfig oneToolContext none firstTerminates [] 0 0 twoCalls) twoCalls ↔
      runsSequentially singletonConfig oneToolContext twoCalls = true ∨
        noGroupTerminates singletonConfig oneToolContext firstTerminates 0 (toolGroups singletonConfig twoCalls) = true ∨
        ∃ group ∈ toolGroups singletonConfig twoCalls, group.length = twoCalls.length :=
  executeToolCalls_answers_iff singletonConfig oneToolContext firstTerminates singletonConfig_partition
    (fun _ _ _ => rfl) []

end Trek
