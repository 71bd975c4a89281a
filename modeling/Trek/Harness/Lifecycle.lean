/-
# The runs of an agent harness

The phases of `AgentHarness` (`harness/agent-harness.ts`), and where `phase`,
`runAbortController` and `runPromise` are set and cleared. A listener may call the harness
at any time, so the calls and the awaited steps come in any order. `agent_end` makes the
harness idle while its run goes on, and the end of that run clears what a run started since
has stored. Where no call is accepted until the run promise is gone, there is one run and
the stored ones are its own (`step_steady`).
-/
import Mathlib.Data.List.Basic

namespace Trek

/-- `AgentHarnessPhase`. -/
inductive AgentHarnessPhase
  | idle | turn | compaction | branchSummary
  deriving DecidableEq

/-- What a `prompt`, `skill` or `promptFromTemplate` call awaits. -/
inductive Stage
  /-- `createTurnState`. -/
  | creating
  /-- The queue update in `executeTurn`. -/
  | announcing
  /-- The hook `before_agent_start`. -/
  | starting
  /-- `runAgentLoop`, until its `agent_end` has made the harness idle. -/
  | looping
  /-- `runAgentLoop` after that: the listeners of `agent_end` and of `settled`. -/
  | looped
  /-- `emitRunFailure`, until its `agent_end` has made the harness idle. -/
  | failing
  /-- `emitRunFailure` after that. -/
  | failed
  /-- The last flush of `executeTurn`; `ok` where there is nothing to throw so far. -/
  | flushing (ok : Bool)
  /-- `executeTurn` has cleared the controller and is left. -/
  | closing (ok : Bool)
  | settled
  deriving DecidableEq

/-- The stages in which a run has its controller. -/
def Stage.controlled : Stage → Bool
  | .looping | .looped | .failing | .failed | .flushing _ => true
  | _ => false

/-- The phases that a run leaves the harness in, by its stage. -/
def Stage.allows (stage : Stage) (phase : AgentHarnessPhase) : Bool :=
  match stage with
  | .creating | .announcing | .starting | .looping => phase = .turn
  | .looped | .failed | .flushing true | .closing true => phase = .idle
  | .failing | .flushing false | .closing false => phase = .turn || phase = .idle
  | .settled => false

/-- A call that holds the phase. -/
inductive Operation
  | run (stage : Stage)
  /-- `compact` or `navigateTree`. -/
  | structural (phase : AgentHarnessPhase) (settled : Bool)
  deriving DecidableEq

/-- The call has not settled. -/
def Operation.active : Operation → Bool
  | .run stage => stage ≠ .settled
  | .structural _ settled => !settled

/-- How `createTurnState` goes: it throws (or the skill is unknown), or there are queued
messages to announce, or there are none. -/
inductive TurnState
  | thrown | queued | ready
  deriving DecidableEq

/-- A call or a step of one. -/
inductive LifeStep
  | prompt
  | compact
  | navigateTree
  | abort
  | waitForIdle
  | turnState (i : ℕ) (result : TurnState)
  | queueUpdate (i : ℕ) (ok : Bool)
  | beforeAgentStart (i : ℕ) (ok : Bool)
  | agentEnd (i : ℕ)
  | throw (i : ℕ)
  | finishLoop (i : ℕ)
  | flush (i : ℕ) (ok : Bool)
  | finishPrompt (i : ℕ)
  | finishStructural (i : ℕ)
  deriving DecidableEq

/-- The fields of the harness that belong to its runs, the controllers that were aborted, the
promises that `waitForIdle` calls got, and the calls in the order they were accepted. A run's
controller and promise have the number of its call. -/
structure Lifecycle where
  phase : AgentHarnessPhase
  runAbortController : Option ℕ
  runPromise : Option ℕ
  aborted : List ℕ
  awaited : List (Option ℕ)
  operations : List Operation
  deriving DecidableEq

namespace Lifecycle

/-- A harness as it is constructed. -/
def new : Lifecycle := ⟨.idle, none, none, [], [], []⟩

/-- A call goes on. -/
def put (s : Lifecycle) (i : ℕ) (operation : Operation) : Lifecycle :=
  { s with operations := s.operations.set i operation }

/-- A step of the `i`-th call, by what it awaits. -/
def advance (s : Lifecycle) (i : ℕ) (next : Stage → Option Lifecycle) : Option Lifecycle :=
  match s.operations[i]? with
  | some (.run stage) => next stage
  | _ => none

/-- A structural call is accepted when the harness is idle, and rejected as busy otherwise. -/
def structural (s : Lifecycle) (phase : AgentHarnessPhase) : Lifecycle :=
  if s.phase = .idle then { s with phase, operations := s.operations ++ [.structural phase false] } else s

/-- The end of `prompt`, `skill` and `promptFromTemplate`: `catch` and `finally`. -/
def leavePrompt (s : Lifecycle) (i : ℕ) (ok : Bool) : Lifecycle :=
  { s.put i (.run .settled) with
    phase := if ok then s.phase else .idle
    runPromise := none }

/-- One step of the harness. -/
def step (s : Lifecycle) : LifeStep → Option Lifecycle
  | .prompt =>
    some (if s.phase = .idle then
      { s with
        phase := .turn
        runPromise := some s.operations.length
        operations := s.operations ++ [.run .creating] }
    else s)
  | .compact => some (s.structural .compaction)
  | .navigateTree => some (s.structural .branchSummary)
  | .abort => some { s with aborted := s.aborted ++ s.runAbortController.toList }
  | .waitForIdle => some { s with awaited := s.awaited ++ [s.runPromise] }
  | .turnState i result =>
    s.advance i fun
      | .creating =>
        some (match result with
          | .thrown => s.leavePrompt i false
          | .queued => s.put i (.run .announcing)
          | .ready => s.put i (.run .starting))
      | _ => none
  | .queueUpdate i ok =>
    s.advance i fun
      | .announcing => some (if ok then s.put i (.run .starting) else s.leavePrompt i false)
      | _ => none
  | .beforeAgentStart i ok =>
    s.advance i fun
      | .starting =>
        some (if ok then { s.put i (.run .looping) with runAbortController := some i } else s.leavePrompt i false)
      | _ => none
  | .agentEnd i =>
    s.advance i fun
      | .looping => some { s.put i (.run .looped) with phase := .idle }
      | .failing => some { s.put i (.run .failed) with phase := .idle }
      | _ => none
  | .throw i =>
    s.advance i fun
      | .looping => some (s.put i (.run .failing))
      | .looped => some (s.put i (.run .failing))
      | .failing => some (s.put i (.run (.flushing false)))
      | .failed => some (s.put i (.run (.flushing false)))
      | _ => none
  | .finishLoop i =>
    s.advance i fun
      | .looped => some (s.put i (.run (.flushing true)))
      | .failed => some (s.put i (.run (.flushing true)))
      | _ => none
  | .flush i ok =>
    s.advance i fun
      | .flushing before => some { s.put i (.run (.closing (before && ok))) with runAbortController := none }
      | _ => none
  | .finishPrompt i =>
    s.advance i fun
      | .closing ok => some (s.leavePrompt i ok)
      | _ => none
  | .finishStructural i =>
    match s.operations[i]? with
    | some (.structural phase false) => some { s.put i (.structural phase true) with phase := .idle }
    | _ => none

/-- A run of the harness. -/
def run (s : Lifecycle) (steps : List LifeStep) : Option Lifecycle := steps.foldlM step s

/-! ### One run, and the stored ones are its own -/

/-- One call at a time holds the phase; in a turn the stored controller and promise are those
of the run; and without a call the harness is idle and has none. -/
structure OneRun (s : Lifecycle) : Prop where
  one : ∀ (i j : ℕ) (a b : Operation), s.operations[i]? = some a → s.operations[j]? = some b →
    a.active = true → b.active = true → i = j
  attached : s.phase = .turn → ∃ (i : ℕ) (stage : Stage), s.operations[i]? = some (.run stage) ∧
    stage ≠ .settled ∧ s.runAbortController = some i ∧ s.runPromise = some i
  idle : (∀ a ∈ s.operations, a.active = false) →
    s.phase = .idle ∧ s.runAbortController = none ∧ s.runPromise = none

/-- A run in a turn that has no controller: it is prepared, or it has failed and is left. -/
def Uncontrolled (s : Lifecycle) : Prop :=
  s.phase = .turn ∧ ∃ stage : Stage, .run stage ∈ s.operations ∧ stage ≠ .settled ∧ stage.controlled = false

/-- No call is accepted while the promise of a run is stored. -/
def Calm (s : Lifecycle) (input : LifeStep) : Prop :=
  input = .prompt ∨ input = .compact ∨ input = .navigateTree → s.phase = .idle → s.runPromise = none

/-- Every step of a run is such a step. -/
def AllCalm : Lifecycle → List LifeStep → Prop
  | _, [] => True
  | s, input :: steps => s.Calm input ∧ ∀ s', s.step input = some s' → AllCalm s' steps

/-! ### The phases of a run -/

/-- The fields of the harness fit the only active call. -/
def Fits (s : Lifecycle) (i : ℕ) : Operation → Prop
  | .run stage => stage.allows s.phase = true ∧ s.runPromise = some i ∧
      s.runAbortController = if stage.controlled then some i else none
  | .structural phase _ => s.phase = phase ∧ phase ≠ .turn ∧ phase ≠ .idle ∧ s.runPromise = none ∧
      s.runAbortController = none

/-- What every step keeps: there is no active call and the harness is idle, or there is one and
the fields fit it. -/
def Steady (s : Lifecycle) : Prop :=
  ((∀ (j : ℕ) (b : Operation), s.operations[j]? = some b → b.active = false) ∧ s.phase = .idle ∧
    s.runPromise = none ∧ s.runAbortController = none) ∨
  ∃ (i : ℕ) (a : Operation), s.operations[i]? = some a ∧ a.active = true ∧ s.Fits i a ∧
    ∀ (j : ℕ) (b : Operation), s.operations[j]? = some b → b.active = true → j = i

theorem steady_new : new.Steady := by
  refine Or.inl ⟨fun j b h => ?_, rfl, rfl, rfl⟩
  cases h

theorem Steady.of_active {s : Lifecycle} (h : s.Steady) {i : ℕ} {a : Operation} (ha : s.operations[i]? = some a)
    (hactive : a.active = true) :
    s.Fits i a ∧ ∀ (j : ℕ) (b : Operation), s.operations[j]? = some b → b.active = true → j = i := by
  rcases h with ⟨hnone, -⟩ | ⟨k, b, hb, -, hfits, honly⟩
  · rw [hnone i a ha] at hactive
    cases hactive
  · obtain rfl := honly i a ha hactive
    obtain rfl : b = a := Option.some.inj (hb.symm.trans ha)
    exact ⟨hfits, honly⟩

theorem advance_eq_some {s s' : Lifecycle} {i : ℕ} {next : Stage → Option Lifecycle} :
    s.advance i next = some s' ↔ ∃ stage, s.operations[i]? = some (.run stage) ∧ next stage = some s' := by
  unfold advance
  constructor
  · intro h
    split at h
    · rename_i stage hi
      exact ⟨stage, hi, h⟩
    · cases h
  · rintro ⟨stage, hi, h⟩
    rw [hi]
    exact h

theorem getElem?_set {l : List Operation} {i j : ℕ} {a b : Operation} (h : (l.set i a)[j]? = some b) :
    (j = i ∧ b = a) ∨ (j ≠ i ∧ l[j]? = some b) := by
  by_cases hij : i = j
  · subst hij
    obtain ⟨hlt, hb⟩ := List.getElem?_eq_some_iff.mp h
    rw [List.getElem_set_self] at hb
    exact Or.inl ⟨rfl, hb.symm⟩
  · rw [List.getElem?_set_ne hij] at h
    exact Or.inr ⟨Ne.symm hij, h⟩

/-- The only active call goes on. -/
theorem steady_of_set {s s' : Lifecycle} {i : ℕ} {a a' : Operation} (ha : s.operations[i]? = some a)
    (honly : ∀ (j : ℕ) (b : Operation), s.operations[j]? = some b → b.active = true → j = i)
    (hset : s'.operations = s.operations.set i a') (hactive : a'.active = true) (hfits : s'.Fits i a') : s'.Steady := by
  refine Or.inr ⟨i, a', ?_, hactive, hfits, fun j b hb hb' => ?_⟩
  · rw [hset, List.getElem?_set_self (List.getElem?_eq_some_iff.mp ha).1]
  · rw [hset] at hb
    rcases getElem?_set hb with ⟨rfl, -⟩ | ⟨-, hb⟩
    · rfl
    · exact honly j b hb hb'

/-- The only active call settles. -/
theorem steady_of_over {s s' : Lifecycle} {i : ℕ} {a' : Operation}
    (honly : ∀ (j : ℕ) (b : Operation), s.operations[j]? = some b → b.active = true → j = i)
    (hset : s'.operations = s.operations.set i a') (hover : a'.active = false) (hphase : s'.phase = .idle)
    (hpromise : s'.runPromise = none) (hcontroller : s'.runAbortController = none) : s'.Steady := by
  refine Or.inl ⟨fun j b hb => ?_, hphase, hpromise, hcontroller⟩
  rw [hset] at hb
  rcases getElem?_set hb with ⟨-, rfl⟩ | ⟨hne, hb⟩
  · exact hover
  · by_contra hb'
    exact hne (honly j b hb (by simpa using hb'))

/-- A call is accepted by a harness without one. -/
theorem steady_of_accept {s s' : Lifecycle} {a : Operation}
    (hnone : ∀ (j : ℕ) (b : Operation), s.operations[j]? = some b → b.active = false)
    (happend : s'.operations = s.operations ++ [a]) (hactive : a.active = true)
    (hfits : s'.Fits s.operations.length a) : s'.Steady := by
  refine Or.inr ⟨s.operations.length, a, ?_, hactive, hfits, fun j b hb hb' => ?_⟩
  · rw [happend, List.getElem?_concat_length]
  · rw [happend] at hb
    by_contra hne
    rcases Nat.lt_or_gt_of_ne hne with hlt | hgt
    · rw [List.getElem?_append_left hlt] at hb
      rw [hnone j b hb] at hb'
      cases hb'
    · rw [List.getElem?_eq_none (by simp; omega)] at hb
      cases hb

/-- An idle harness without a run promise has no active call. -/
theorem Steady.none_active {s : Lifecycle} (h : s.Steady) (hidle : s.phase = .idle) (hpromise : s.runPromise = none) :
    (∀ (j : ℕ) (b : Operation), s.operations[j]? = some b → b.active = false) ∧ s.runAbortController = none := by
  rcases h with ⟨hnone, -, -, hcontroller⟩ | ⟨i, a, -, hactive, hfits, -⟩
  · exact ⟨hnone, hcontroller⟩
  · exfalso
    cases a with
    | run stage =>
      rw [hfits.2.1] at hpromise
      cases hpromise
    | structural phase settled => exact hfits.2.2.1 (hfits.1.symm.trans hidle)

/-- A run goes to another stage. -/
theorem Steady.goes {s s' : Lifecycle} {i : ℕ} {stage next : Stage} (h : s.Steady)
    (hi : s.operations[i]? = some (.run stage)) (hstage : stage ≠ .settled) (hnext : next ≠ .settled)
    (hset : s'.operations = s.operations.set i (.run next)) (hpromise : s'.runPromise = s.runPromise)
    (hphase : stage.allows s.phase = true → next.allows s'.phase = true)
    (hcontroller : s.runAbortController = (if stage.controlled then some i else none) →
      s'.runAbortController = if next.controlled then some i else none) : s'.Steady := by
  have hactive : (Operation.run stage).active = true := by simpa [Operation.active] using hstage
  obtain ⟨⟨h1, h2, h3⟩, honly⟩ := h.of_active hi hactive
  refine steady_of_set hi honly hset ?_ ⟨hphase h1, hpromise.trans h2, hcontroller h3⟩
  simpa [Operation.active] using hnext

/-- A run settles. -/
theorem Steady.leaves {s : Lifecycle} {i : ℕ} {stage : Stage} {ok : Bool} (h : s.Steady)
    (hi : s.operations[i]? = some (.run stage)) (hstage : stage ≠ .settled) (hcontrolled : stage.controlled = false)
    (hok : ok = true → stage.allows s.phase = true → s.phase = .idle) : (s.leavePrompt i ok).Steady := by
  have hactive : (Operation.run stage).active = true := by simpa [Operation.active] using hstage
  obtain ⟨⟨h1, -, h3⟩, honly⟩ := h.of_active hi hactive
  refine steady_of_over honly rfl rfl ?_ rfl ?_
  · show (if ok = true then s.phase else AgentHarnessPhase.idle) = .idle
    by_cases hok' : ok = true
    · rw [if_pos hok']
      exact hok hok' h1
    · rw [if_neg hok']
  · show s.runAbortController = none
    rw [h3, hcontrolled]
    rfl

/-- **What every step keeps**, if no call is accepted while a run promise is stored. -/
theorem Steady.step {s s' : Lifecycle} {input : LifeStep} (h : s.Steady) (hcalm : s.Calm input)
    (hs : s.step input = some s') : s'.Steady := by
  have haccept : s.phase = .idle → input = .prompt ∨ input = .compact ∨ input = .navigateTree →
      (∀ (j : ℕ) (b : Operation), s.operations[j]? = some b → b.active = false) ∧ s.runPromise = none ∧
        s.runAbortController = none := by
    intro hidle hcall
    have hpromise := hcalm hcall hidle
    obtain ⟨hnone, hcontroller⟩ := h.none_active hidle hpromise
    exact ⟨hnone, hpromise, hcontroller⟩
  have hstructural : ∀ phase, phase ≠ .turn → phase ≠ .idle → (input = .compact ∨ input = .navigateTree) →
      (s.structural phase).Steady := by
    intro phase hturn hidle' hcall
    unfold structural
    by_cases hidle : s.phase = .idle
    · rw [if_pos hidle]
      obtain ⟨hnone, hpromise, hcontroller⟩ := haccept hidle (Or.inr hcall)
      exact steady_of_accept hnone rfl rfl ⟨rfl, hturn, hidle', hpromise, hcontroller⟩
    · rw [if_neg hidle]
      exact h
  cases input with
  | prompt =>
    obtain rfl := Option.some.inj hs
    by_cases hidle : s.phase = .idle
    · rw [if_pos hidle]
      obtain ⟨hnone, -, hcontroller⟩ := haccept hidle (Or.inl rfl)
      exact steady_of_accept hnone rfl rfl ⟨rfl, rfl, hcontroller⟩
    · rw [if_neg hidle]
      exact h
  | compact =>
    obtain rfl := Option.some.inj hs
    exact hstructural .compaction (by decide) (by decide) (Or.inl rfl)
  | navigateTree =>
    obtain rfl := Option.some.inj hs
    exact hstructural .branchSummary (by decide) (by decide) (Or.inr rfl)
  | abort =>
    obtain rfl := Option.some.inj hs
    exact h
  | waitForIdle =>
    obtain rfl := Option.some.inj hs
    exact h
  | turnState i result =>
    obtain ⟨stage, hi, hs⟩ := advance_eq_some.mp hs
    cases stage with
    | creating =>
      obtain rfl := Option.some.inj hs
      cases result with
      | thrown => exact h.leaves hi (by decide) rfl (fun hok => by cases hok)
      | queued => exact h.goes hi (by decide) (by decide) rfl rfl id id
      | ready => exact h.goes hi (by decide) (by decide) rfl rfl id id
    | _ => cases hs
  | queueUpdate i ok =>
    obtain ⟨stage, hi, hs⟩ := advance_eq_some.mp hs
    cases stage with
    | announcing =>
      obtain rfl := Option.some.inj hs
      cases ok with
      | true => exact h.goes hi (by decide) (by decide) rfl rfl id id
      | false => exact h.leaves hi (by decide) rfl (fun hok => by cases hok)
    | _ => cases hs
  | beforeAgentStart i ok =>
    obtain ⟨stage, hi, hs⟩ := advance_eq_some.mp hs
    cases stage with
    | starting =>
      obtain rfl := Option.some.inj hs
      cases ok with
      | true => exact h.goes hi (by decide) (by decide) rfl rfl id fun _ => rfl
      | false => exact h.leaves hi (by decide) rfl (fun hok => by cases hok)
    | _ => cases hs
  | agentEnd i =>
    obtain ⟨stage, hi, hs⟩ := advance_eq_some.mp hs
    cases stage with
    | looping =>
      obtain rfl := Option.some.inj hs
      exact h.goes hi (by decide) (by decide) rfl rfl (fun _ => rfl) id
    | failing =>
      obtain rfl := Option.some.inj hs
      exact h.goes hi (by decide) (by decide) rfl rfl (fun _ => rfl) id
    | _ => cases hs
  | throw i =>
    obtain ⟨stage, hi, hs⟩ := advance_eq_some.mp hs
    cases stage with
    | looping =>
      obtain rfl := Option.some.inj hs
      refine h.goes hi (by decide) (by decide) rfl rfl (fun hp => ?_) id
      have hp : s.phase = .turn := of_decide_eq_true hp
      show Stage.failing.allows s.phase = true
      rw [hp]
      rfl
    | looped =>
      obtain rfl := Option.some.inj hs
      refine h.goes hi (by decide) (by decide) rfl rfl (fun hp => ?_) id
      have hp : s.phase = .idle := of_decide_eq_true hp
      show Stage.failing.allows s.phase = true
      rw [hp]
      rfl
    | failing =>
      obtain rfl := Option.some.inj hs
      exact h.goes hi (by decide) (by decide) rfl rfl id id
    | failed =>
      obtain rfl := Option.some.inj hs
      refine h.goes hi (by decide) (by decide) rfl rfl (fun hp => ?_) id
      have hp : s.phase = .idle := of_decide_eq_true hp
      show (Stage.flushing false).allows s.phase = true
      rw [hp]
      rfl
    | _ => cases hs
  | finishLoop i =>
    obtain ⟨stage, hi, hs⟩ := advance_eq_some.mp hs
    cases stage with
    | looped =>
      obtain rfl := Option.some.inj hs
      exact h.goes hi (by decide) (by decide) rfl rfl id id
    | failed =>
      obtain rfl := Option.some.inj hs
      exact h.goes hi (by decide) (by decide) rfl rfl id id
    | _ => cases hs
  | flush i ok =>
    obtain ⟨stage, hi, hs⟩ := advance_eq_some.mp hs
    cases stage with
    | flushing before =>
      obtain rfl := Option.some.inj hs
      refine h.goes hi (by simp) (by simp) rfl rfl (fun hp => ?_) fun _ => rfl
      show (Stage.closing (before && ok)).allows s.phase = true
      cases before with
      | false => exact hp
      | true =>
        have hp : s.phase = .idle := of_decide_eq_true hp
        rw [hp]
        cases ok <;> rfl
    | _ => cases hs
  | finishPrompt i =>
    obtain ⟨stage, hi, hs⟩ := advance_eq_some.mp hs
    cases stage with
    | closing ok =>
      obtain rfl := Option.some.inj hs
      refine h.leaves hi (by simp) rfl fun hok hp => ?_
      rw [hok] at hp
      exact of_decide_eq_true hp
    | _ => cases hs
  | finishStructural i =>
    simp only [Lifecycle.step] at hs
    split at hs
    · rename_i phase hi
      obtain rfl := Option.some.inj hs
      obtain ⟨⟨-, -, -, hpromise, hcontroller⟩, honly⟩ := h.of_active hi rfl
      exact steady_of_over honly rfl rfl rfl hpromise hcontroller
    · cases hs

theorem run_cons (s : Lifecycle) (input : LifeStep) (steps : List LifeStep) :
    s.run (input :: steps) = (s.step input).bind (·.run steps) := rfl

theorem Steady.run : ∀ (steps : List LifeStep) {s s' : Lifecycle}, s.Steady → s.AllCalm steps →
    s.run steps = some s' → s'.Steady
  | [], _, _, h, _, hs => by
    obtain rfl := Option.some.inj hs
    exact h
  | _ :: steps, _, _, h, hcalm, hs => by
    rw [run_cons] at hs
    obtain ⟨s₁, h₁, hs⟩ := Option.bind_eq_some_iff.mp hs
    exact Steady.run steps (h.step hcalm.1 h₁) (hcalm.2 s₁ h₁) hs

/-- A steady harness lacks nothing but the controller of a run that is prepared or left. -/
theorem Steady.oneRun_iff {s : Lifecycle} (h : s.Steady) : s.OneRun ↔ ¬s.Uncontrolled := by
  constructor
  · rintro hone ⟨hturn, stage, hmem, hover, hfree⟩
    obtain ⟨i, stage', hi, -, hcontroller, -⟩ := hone.attached hturn
    obtain ⟨j, hj⟩ := List.getElem?_of_mem hmem
    have hactive : (Operation.run stage).active = true := by simpa [Operation.active] using hover
    obtain ⟨⟨-, -, hnone⟩, -⟩ := h.of_active hj hactive
    rw [hcontroller, hfree] at hnone
    cases hnone
  · intro hcontrolled
    refine ⟨?_, ?_, ?_⟩
    · intro i j a b ha hb hactive hactive'
      exact ((h.of_active ha hactive).2 j b hb hactive').symm
    · intro hturn
      rcases h with ⟨-, hidle, -⟩ | ⟨i, a, ha, hactive, hfits, -⟩
      · rw [hidle] at hturn
        cases hturn
      · cases a with
        | structural phase settled => exact absurd (hfits.1.symm.trans hturn) hfits.2.1
        | run stage =>
          have hover : stage ≠ .settled := by simpa [Operation.active] using hactive
          obtain ⟨-, hpromise, hcontroller⟩ := hfits
          refine ⟨i, stage, ha, hover, ?_, hpromise⟩
          by_cases hc : stage.controlled = true
          · rw [hcontroller, if_pos hc]
          · exact absurd ⟨hturn, stage, List.mem_of_getElem? ha, hover, by simpa using hc⟩ hcontrolled
    · intro hnone
      rcases h with ⟨-, hidle, hpromise, hcontroller⟩ | ⟨i, a, ha, hactive, -, -⟩
      · exact ⟨hidle, hcontroller, hpromise⟩
      · rw [hnone a (List.mem_of_getElem? ha)] at hactive
        cases hactive

/-- **In a run of the harness in which no call is accepted while a run promise is stored there
is one run, and the stored controller and promise are its own, in every state but those in
which it is prepared or left.** -/
theorem run_oneRun_iff (steps : List LifeStep) {s : Lifecycle} (hrun : new.run steps = some s)
    (hcalm : new.AllCalm steps) : s.OneRun ↔ ¬s.Uncontrolled :=
  (steady_new.run steps hcalm hrun).oneRun_iff

/-- A run that gets to its loop. -/
theorem run_oneRun_iff_looping : ∃ s, new.run [.prompt, .turnState 0 .ready, .beforeAgentStart 0 true] = some s ∧
    (s.OneRun ↔ ¬s.Uncontrolled) :=
  ⟨_, rfl, run_oneRun_iff [.prompt, .turnState 0 .ready, .beforeAgentStart 0 true] rfl
    ⟨fun _ _ => rfl, fun _ _ => ⟨(fun h => by simp at h), fun _ _ => ⟨(fun h => by simp at h), fun _ _ => trivial⟩⟩⟩⟩

/-- What `abort` signals and what `waitForIdle` waits for in a turn. -/
theorem OneRun.reaches {s : Lifecycle} (h : s.OneRun) (hturn : s.phase = .turn) :
    ∃ (i : ℕ) (stage : Stage), s.operations[i]? = some (.run stage) ∧ stage ≠ .settled ∧
      (∀ s', s.step .abort = some s' → i ∈ s'.aborted) ∧
      ∀ s', s.step .waitForIdle = some s' → s'.awaited = s.awaited ++ [some i] := by
  obtain ⟨i, stage, hi, hover, hcontroller, hpromise⟩ := h.attached hturn
  refine ⟨i, stage, hi, hover, fun s' hs => ?_, fun s' hs => ?_⟩
  · obtain rfl := Option.some.inj hs
    rw [hcontroller]
    simp
  · obtain rfl := Option.some.inj hs
    rw [hpromise]

/-- A listener of `agent_end` prompts, and the end of the first run clears the controller and
the promise of the second. -/
theorem run_not_oneRun : ∃ s, new.run [.prompt, .turnState 0 .ready, .beforeAgentStart 0 true, .agentEnd 0,
    .prompt, .turnState 1 .ready, .beforeAgentStart 1 true, .finishLoop 0, .flush 0 true, .finishPrompt 0] = some s ∧
      ¬s.OneRun := by
  refine ⟨_, rfl, fun h => ?_⟩
  obtain ⟨_, _, -, -, hcontroller, -⟩ := h.attached rfl
  cases hcontroller

end Lifecycle

end Trek
