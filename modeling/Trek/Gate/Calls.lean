/-
# Calls through the hooks

A tool call from the moment that its `beforeToolCall` starts to the end of its
`afterToolCall`, one step from `await` to `await`, and what goes on beside it: other calls
in any order, changes of files from outside, the operator and new prompts. The order in
which a batch prepares and executes its calls, sequential, parallel or in groups, is one
of these orders.
-/
import Trek.Gate.Hooks

namespace Trek.ToolGate

variable {β : Type}

/-! ### One call -/

/-- How far the tool of a call has come. -/
inductive ToolPhase (β : Type)
  | started
  | writing (content : β)
  | wrote (content : β)
  /-- nothing is written: the text has not changed, or it is a dry run -/
  | reporting
  | failed

/-- How far a call has come. -/
inductive Stage (β : Type)
  /-- the path is reserved; the operator mode decides, and may ask the operator -/
  | confirming
  /-- the laws are evaluated with the flag that `env` has read -/
  | checking (halted : Bool)
  | capturing
  | asking
  /-- the hook has returned -/
  | answered (result : Option BeforeToolCallResult)
  | prepared
  | executing (phase : ToolPhase β)
  | settled (content : List ContentBlock) (isError : Bool) (left : Option β)
  | done

structure Call (β : Type) where
  id : String
  args : ToolArgs
  stage : Stage β

/-- What a call does next, with what it meets there. -/
inductive CallStep
  /-- the operator mode lets the call go on, or refuses it with a reason -/
  | confirm (refused : Option String)
  /-- the laws let the call go on, or refuse it with a reason -/
  | check (refused : Option String)
  | capture (hasHandlers : Bool)
  /-- the extensions return, and may have changed the arguments in place -/
  | extension (args : ToolArgs) (result : Option BeforeToolCallResult)
  | extensionThrow (args : ToolArgs)
  /-- `prepareToolCall` goes on after the hook -/
  | resume (aborted : Bool)
  | execute
  /-- a step inside `execute` of `write` or `edit` -/
  | tool
  | settle (content : List ContentBlock) (isError : Bool)
  | afterToolCall
  /-- an exception ends the call here: in the hook, or in a listener of its events -/
  | fail

/-- The reason of `checkToolCall` while the flag is up. -/
def haltReason : String := "Halted by operator (HALT): no further tool calls until resumed."

/-- What `execute` of `edit` writes: nothing where the text has not changed. -/
def editFile (env : Env β) (raw : β) (edits : List Edit) : Except (String → String) (Option β) :=
  let (bom, content) := stripBom (env.decode raw)
  match env.applyEditsToNormalizedContent (normalizeToLF content) edits with
  | .error message => .error message
  | .ok r =>
    .ok (if r.unchanged then none
      else some (env.encode (bom ++ restoreLineEndings r.newContent (detectLineEnding content))))

/-- `execute` of `write` and of `edit` up to the write. -/
def startTool (env : Env β) (s : AgentSession β) : ToolArgs → Option (ToolPhase β)
  | .write _ content => some (if s.dryRunEnabled then .reporting else .writing (env.encode content))
  | .edit path edits =>
    if edits.isEmpty then some .failed
    else
      match s.files (env.resolveToCwd path) with
      | none => some .failed
      | some raw =>
        match editFile env raw edits with
        | .error _ => some .failed
        | .ok none => some .reporting
        | .ok (some content) => some (if s.dryRunEnabled then .reporting else .writing content)
  | _ => none

/-- What a settled call has given its file: `none` where its tool cannot settle so. -/
def settledLeft (args : ToolArgs) (isError : Bool) : ToolPhase β → Option (Option β)
  | .started => if isError || args.path?.isNone then some none else none
  | .writing _ | .failed => if isError then some none else none
  | .wrote content => some (some content)
  | .reporting => some none

/-- `beforeToolCall` after the lookup: an edit that puts back what was replaced is blocked. -/
def checkReverted (env : Env β) (s : AgentSession β) (c : Call β) : AgentSession β × Call β :=
  match s.revertedEditReason env c.args with
  | some reason => (s.releaseFileMutation c.id, { c with stage := .answered (some ⟨true, some reason, none, some false⟩) })
  | none => (s, { c with stage := .capturing })

/-- `beforeToolCall` from the verdict that lets the call go on to the checkpoint. -/
def passGate (env : Env β) (s : AgentSession β) (c : Call β) : AgentSession β × Call β :=
  match s.lookupIdempotent c.args with
  | (.fresh, s) => checkReverted env s c
  | (.inFlight, s) =>
    (s.releaseFileMutation c.id,
      { c with stage := .answered (some ⟨true, some (AgentSession.inFlightIdempotentReason c.args), none, some false⟩) })
  | (.cached cached, s) =>
    if c.args.isEdit && s.cachedEditStillNeeded env c.args then checkReverted env (s.forgetIdempotent c.args) c
    else
      (s.releaseFileMutation c.id,
        { c with stage := .answered (some (AgentSession.blockedIdempotentResult c.args cached)) })

/-- A verdict that does not allow the call, with its reason. -/
def refuse (s : AgentSession β) (c : Call β) (reason : String) : AgentSession β × Call β :=
  (s.releaseFileMutation c.id, { c with stage := .answered (some ⟨true, some reason, none, none⟩) })

@[simp] theorem AgentSession.blockedIdempotentResult_block (args : ToolArgs) (cached : CachedResult) :
    (AgentSession.blockedIdempotentResult args cached).block = true := by
  simp only [AgentSession.blockedIdempotentResult]
  split <;> rfl

/-- `afterToolCall` up to its first `await`. -/
def finish (env : Env β) (s : AgentSession β) (c : Call β) (content : List ContentBlock) (isError : Bool)
    (left : Option β) : AgentSession β :=
  let s := (s.releaseFileMutation c.id).rememberIdempotent c.args content isError left
  if isError then s.rememberCommandErrors c.args content else s.recordAppliedEdit env c.args

/-- `afterToolCall` releases the call's path and remembers its result; the rest is for the texts
of later refusals. -/
theorem finish_eq (env : Env β) (s : AgentSession β) (c : Call β) (content : List ContentBlock) (isError : Bool)
    (left : Option β) : ∃ appliedEdits lastCommandErrors, finish env s c content isError left =
      { (s.releaseFileMutation c.id).rememberIdempotent c.args content isError left with
        appliedEdits, lastCommandErrors } := by
  simp only [finish]
  split
  · obtain ⟨lastCommandErrors, h⟩ := AgentSession.rememberCommandErrors_eq
      ((s.releaseFileMutation c.id).rememberIdempotent c.args content isError left) c.args content
    exact ⟨_, lastCommandErrors, h⟩
  · obtain ⟨appliedEdits, h⟩ := AgentSession.recordAppliedEdit_eq env
      ((s.releaseFileMutation c.id).rememberIdempotent c.args content isError left) c.args
    exact ⟨appliedEdits, _, h⟩

/-- A step of a call. -/
def callStep (env : Env β) (s : AgentSession β) (c : Call β) : CallStep → Option (AgentSession β × Call β)
  | .confirm refused =>
    match c.stage with
    | .confirming =>
      some (match refused with
        | some reason => refuse s c reason
        | none => (s, { c with stage := .checking s.halted }))
    | _ => none
  | .check refused =>
    match c.stage with
    | .checking halted =>
      some (match if halted then some haltReason else refused with
        | some reason => refuse s c reason
        | none => passGate env s c)
    | _ => none
  | .capture hasHandlers =>
    match c.stage with
    | .capturing => some (s, { c with stage := if hasHandlers then .asking else .answered none })
    | _ => none
  | .extension args result =>
    match c.stage with
    | .asking =>
      if args.toolName = c.args.toolName then
        let s := if result.any (·.block) then s.releaseFileMutation c.id else s
        some (s, { c with args, stage := .answered result })
      else none
    | _ => none
  | .extensionThrow args =>
    match c.stage with
    | .asking =>
      if args.toolName = c.args.toolName then some (s.releaseFileMutation c.id, { c with args, stage := .done })
      else none
    | _ => none
  | .resume aborted =>
    match c.stage with
    | .answered result =>
      some (s, { c with stage := if aborted || result.any (·.block) then .done else .prepared })
    | _ => none
  | .execute =>
    match c.stage with
    | .prepared => some (s, { c with stage := .executing .started })
    | _ => none
  | .tool =>
    match c.stage with
    | .executing .started => (startTool env s c.args).map fun phase => (s, { c with stage := .executing phase })
    | .executing (.writing content) =>
      c.args.path?.map fun path =>
        ({ s with files := Function.update s.files (env.resolveToCwd path) (some content) },
          { c with stage := .executing (.wrote content) })
    | _ => none
  | .settle content isError =>
    match c.stage with
    | .executing phase =>
      (settledLeft c.args isError phase).map fun left => (s, { c with stage := .settled content isError left })
    | _ => none
  | .afterToolCall =>
    match c.stage with
    | .settled content isError left => some (finish env s c content isError left, { c with stage := .done })
    | _ => none
  | .fail =>
    match c.stage with
    | .done => none
    | _ => some (s, { c with stage := .done })

/-! ### What a step of a call does -/

/-- The steps of a call, each with what it makes of the session and of the call. -/
inductive Moves (env : Env β) (s : AgentSession β) (c : Call β) : CallStep → AgentSession β → Call β → Prop
  | refused {input : CallStep} {b : BeforeToolCallResult} (hinput : input ≠ .execute)
      (hstage : c.stage = .confirming ∨ ∃ h, c.stage = .checking h) (hb : b.block = true) :
      Moves env s c input (s.releaseFileMutation c.id) { c with stage := .answered (some b) }
  | confirmed (hstage : c.stage = .confirming) :
      Moves env s c (.confirm none) s { c with stage := .checking s.halted }
  | admitted {s₁ : AgentSession β} (hstage : c.stage = .checking false)
      (hlookup : s.lookupIdempotent c.args = (.fresh, s₁)) (hrevert : s₁.revertedEditReason env c.args = none) :
      Moves env s c (.check none) s₁ { c with stage := .capturing }
  | reverted {s₁ : AgentSession β} {b : BeforeToolCallResult} {reason : String} (hstage : c.stage = .checking false)
      (hlookup : s.lookupIdempotent c.args = (.fresh, s₁)) (hrevert : s₁.revertedEditReason env c.args = some reason)
      (hb : b.block = true) :
      Moves env s c (.check none) (s₁.releaseFileMutation c.id) { c with stage := .answered (some b) }
  | needed (hstage : c.stage = .checking false) :
      Moves env s c (.check none) (s.forgetIdempotent c.args) { c with stage := .capturing }
  | neededReverted {b : BeforeToolCallResult} (hstage : c.stage = .checking false) (hb : b.block = true) :
      Moves env s c (.check none) ((s.forgetIdempotent c.args).releaseFileMutation c.id)
        { c with stage := .answered (some b) }
  | captured {hasHandlers : Bool} (hstage : c.stage = .capturing) :
      Moves env s c (.capture hasHandlers) s { c with stage := if hasHandlers then .asking else .answered none }
  | passed {args : ToolArgs} {result : Option BeforeToolCallResult} (hstage : c.stage = .asking)
      (hresult : result.any (·.block) = false) :
      Moves env s c (.extension args result) s { c with args, stage := .answered result }
  | extensionBlocked {args : ToolArgs} {result : Option BeforeToolCallResult} (hstage : c.stage = .asking)
      (hresult : result.any (·.block) = true) :
      Moves env s c (.extension args result) (s.releaseFileMutation c.id) { c with args, stage := .answered result }
  | extensionThrew {args : ToolArgs} (hstage : c.stage = .asking) :
      Moves env s c (.extensionThrow args) (s.releaseFileMutation c.id) { c with args, stage := .done }
  | ended {aborted : Bool} {result : Option BeforeToolCallResult} (hstage : c.stage = .answered result)
      (hended : (aborted || result.any (·.block)) = true) :
      Moves env s c (.resume aborted) s { c with stage := .done }
  | prepared {result : Option BeforeToolCallResult} (hstage : c.stage = .answered result)
      (hresult : result.any (·.block) = false) :
      Moves env s c (.resume false) s { c with stage := .prepared }
  | executed (hstage : c.stage = .prepared) :
      Moves env s c .execute s { c with stage := .executing .started }
  | started {phase : ToolPhase β} (hstage : c.stage = .executing .started)
      (hphase : startTool env s c.args = some phase) :
      Moves env s c .tool s { c with stage := .executing phase }
  | wrote {content : β} {path : String} (hstage : c.stage = .executing (.writing content))
      (hpath : c.args.path? = some path) :
      Moves env s c .tool { s with files := Function.update s.files (env.resolveToCwd path) (some content) }
        { c with stage := .executing (.wrote content) }
  | settled {phase : ToolPhase β} {content : List ContentBlock} {isError : Bool} {left : Option β}
      (hstage : c.stage = .executing phase) (hleft : settledLeft c.args isError phase = some left) :
      Moves env s c (.settle content isError) s { c with stage := .settled content isError left }
  | finished {content : List ContentBlock} {isError : Bool} {left : Option β}
      (hstage : c.stage = .settled content isError left) :
      Moves env s c .afterToolCall (finish env s c content isError left) { c with stage := .done }
  | failed (hstage : c.stage ≠ .done) : Moves env s c .fail s { c with stage := .done }

theorem passGate_moves (env : Env β) (s : AgentSession β) (c : Call β) (hstage : c.stage = .checking false) :
    Moves env s c (.check none) (passGate env s c).1 (passGate env s c).2 := by
  unfold passGate
  split
  · rename_i s₁ hlookup
    unfold checkReverted
    split
    · rename_i hrevert
      exact .reverted hstage hlookup hrevert rfl
    · rename_i hrevert
      exact .admitted hstage hlookup hrevert
  · rename_i s₁ hlookup
    obtain rfl : s = s₁ := by
      rcases s.lookup_cases c.args with ⟨h, -⟩ | ⟨_, h, -⟩ | ⟨h, -⟩ | ⟨h, -⟩ <;> rw [h] at hlookup <;> cases hlookup
      rfl
    exact .refused (fun h => by cases h) (Or.inr ⟨_, hstage⟩) rfl
  · rename_i cached s₁ hlookup
    obtain rfl : s = s₁ := by
      rcases s.lookup_cases c.args with ⟨h, -⟩ | ⟨_, h, -⟩ | ⟨h, -⟩ | ⟨h, -⟩ <;> rw [h] at hlookup <;> cases hlookup
      rfl
    split
    · unfold checkReverted
      split
      · exact .neededReverted hstage rfl
      · exact .needed hstage
    · refine .refused (fun h => by cases h) (Or.inr ⟨_, hstage⟩) ?_
      exact AgentSession.blockedIdempotentResult_block c.args cached

theorem callStep_moves {env : Env β} {s s' : AgentSession β} {c c' : Call β} {input : CallStep}
    (h : callStep env s c input = some (s', c')) : Moves env s c input s' c' := by
  cases input with
  | confirm refused =>
    simp only [callStep] at h
    split at h
    · rename_i hstage
      cases refused with
      | some reason =>
        cases h
        exact .refused (fun h => by cases h) (Or.inl hstage) rfl
      | none =>
        cases h
        exact .confirmed hstage
    · cases h
  | check refused =>
    simp only [callStep] at h
    split at h
    · rename_i halted hstage
      cases halted with
      | true =>
        cases h
        exact .refused (fun h => by cases h) (Or.inr ⟨_, hstage⟩) rfl
      | false =>
        cases refused with
        | some reason =>
          cases h
          exact .refused (fun h => by cases h) (Or.inr ⟨_, hstage⟩) rfl
        | none =>
          have hpass : passGate env s c = (s', c') := Option.some.inj h
          have hmoves := passGate_moves env s c hstage
          rw [hpass] at hmoves
          exact hmoves
    · cases h
  | capture hasHandlers =>
    simp only [callStep] at h
    split at h
    · rename_i hstage
      cases h
      exact .captured hstage
    · cases h
  | extension args result =>
    simp only [callStep] at h
    split at h
    · rename_i hstage
      split at h
      · split at h
        · rename_i hresult
          cases h
          exact .extensionBlocked hstage hresult
        · rename_i hresult
          cases h
          exact .passed hstage (Bool.eq_false_iff.mpr hresult)
      · cases h
    · cases h
  | extensionThrow args =>
    simp only [callStep] at h
    split at h
    · rename_i hstage
      split at h
      · cases h
        exact .extensionThrew hstage
      · cases h
    · cases h
  | resume aborted =>
    simp only [callStep] at h
    split at h
    · rename_i result hstage
      split at h
      · rename_i hended
        cases h
        exact .ended hstage hended
      · rename_i hended
        cases h
        rw [Bool.or_eq_true, not_or, Bool.not_eq_true, Bool.not_eq_true] at hended
        obtain ⟨rfl, hresult⟩ := hended
        exact .prepared hstage hresult
    · cases h
  | execute =>
    simp only [callStep] at h
    split at h
    · rename_i hstage
      cases h
      exact .executed hstage
    · cases h
  | tool =>
    simp only [callStep] at h
    split at h
    · rename_i hstage
      obtain ⟨phase, hphase, h⟩ := Option.map_eq_some_iff.mp h
      cases h
      exact .started hstage hphase
    · rename_i content hstage
      obtain ⟨path, hpath, h⟩ := Option.map_eq_some_iff.mp h
      cases h
      exact .wrote hstage hpath
    · cases h
  | settle content isError =>
    simp only [callStep] at h
    split at h
    · rename_i phase hstage
      obtain ⟨left, hleft, h⟩ := Option.map_eq_some_iff.mp h
      cases h
      exact .settled hstage hleft
    · cases h
  | afterToolCall =>
    simp only [callStep] at h
    split at h
    · rename_i hstage
      cases h
      exact .finished hstage
    · cases h
  | fail =>
    simp only [callStep] at h
    split at h
    · cases h
    · rename_i hstage
      cases h
      exact .failed hstage

/-! ### All calls -/

/-- The session and the calls that have come to its hooks. -/
structure Gate (β : Type) where
  session : AgentSession β
  calls : List (Call β)

inductive GateStep (β : Type)
  /-- `beforeToolCall` starts -/
  | call (id : String) (args : ToolArgs)
  | on (i : ℕ) (step : CallStep)
  /-- files change by a command, by an undo or by another program -/
  | outside (files : String → Option β)
  | requestHalt
  | clearHalt
  /-- `_assignPromptNumber` -/
  | prompt (promptNumber : ℕ)
  /-- `_runAgentPrompt` starts -/
  | newRun
  | setDryRun (enabled : Bool)

namespace Gate

/-- No call yet. -/
def new (files : String → Option β) : Gate β := ⟨.new files, []⟩

/-- `beforeToolCall` up to its first `await`. -/
def call (env : Env β) (g : Gate β) (id : String) (args : ToolArgs) : Gate β :=
  match g.session.fileMutationBusy env id args with
  | (true, s) =>
    ⟨s, g.calls ++ [⟨id, args, .answered (some ⟨true, some (AgentSession.sameFileMutationReason args), none, some false⟩)⟩]⟩
  | (false, s) => ⟨s, g.calls ++ [⟨id, args, .confirming⟩]⟩

/-- A step of the calls, or of what goes on beside them. -/
def step (env : Env β) (g : Gate β) : GateStep β → Option (Gate β)
  | .call id args => some (g.call env id args)
  | .on i input =>
    (g.calls[i]?).bind fun c =>
      (callStep env g.session c input).map fun r => ⟨r.1, g.calls.set i r.2⟩
  | .outside files => some { g with session := { g.session with files } }
  | .requestHalt => some { g with session := { g.session with halted := true } }
  | .clearHalt => some { g with session := { g.session with halted := false } }
  | .prompt currentPromptNumber => some { g with session := { g.session with currentPromptNumber, halted := false } }
  | .newRun => some { g with session := { g.session with appliedEdits := [], lastCommandErrors := none } }
  | .setDryRun dryRunEnabled => some { g with session := { g.session with dryRunEnabled } }

/-- A run of the calls. -/
abbrev run (env : Env β) : Gate β → List (GateStep β) → Option (Gate β) := Machine.run (step env)

end Gate

end Trek.ToolGate
