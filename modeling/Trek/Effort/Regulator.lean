/-
# The effort regulator

`EffortRegulator` counts the tool calls of a prompt, the calls in a row without progress and the identical
calls in a row, and stops the turn at its limits; the session notes every tool call (`noteLiveEffort`), and
decides with what it remembers of earlier calls whether a call was progress. A prompt starts in one of two
ways: as a cycle of the reflective loop, which begins a window with the default budget, and, unless a
workflow is called, as a prompt of the agent, which applies the limits of the mode.
-/
import Trek.Lib.OrdMap
import Trek.Lib.Text
import Trek.Lib.Utf16
import Trek.Messages

namespace Trek.Effort

/-! ### Limits -/

/-- `EFFORT_COST_BUDGET`. -/
def EFFORT_COST_BUDGET : ℕ := 48

/-- `EFFORT_NO_PROGRESS_LIMIT`. -/
def EFFORT_NO_PROGRESS_LIMIT : ℕ := 8

/-- `EFFORT_REPEAT_LIMIT`. -/
def EFFORT_REPEAT_LIMIT : ℕ := 4

/-- `EFFORT_SAME_ERROR_LIMIT`. -/
def EFFORT_SAME_ERROR_LIMIT : ℕ := 2

/-- `EFFORT_NO_CHANGE_LIMIT`. -/
def EFFORT_NO_CHANGE_LIMIT : ℕ := 2

/-- `EFFORT_LOOSE_FACTOR`. -/
def EFFORT_LOOSE_FACTOR : ℕ := 10

/-- `EffortMode`. -/
inductive EffortMode
  | off | normal | loose
  deriving DecidableEq

/-- `EffortLimits`. -/
structure EffortLimits where
  costBudget : ℕ
  noProgressLimit : ℕ
  repeatLimit : ℕ
  sameErrorLimit : ℕ
  noChangeLimit : ℕ
  deriving DecidableEq

/-- The limits, times a factor. -/
def limitsTimes (factor : ℕ) : EffortLimits where
  costBudget := EFFORT_COST_BUDGET * factor
  noProgressLimit := EFFORT_NO_PROGRESS_LIMIT * factor
  repeatLimit := EFFORT_REPEAT_LIMIT * factor
  sameErrorLimit := EFFORT_SAME_ERROR_LIMIT * factor
  noChangeLimit := EFFORT_NO_CHANGE_LIMIT * factor

/-- `effortLimitsFor`. -/
def effortLimitsFor : EffortMode → Option EffortLimits
  | .off => none
  | .normal => some (limitsTimes 1)
  | .loose => some (limitsTimes EFFORT_LOOSE_FACTOR)

/-! ### The regulator -/

/-- `EffortRegulator`. -/
structure EffortRegulator where
  consecutiveNoProgress : ℕ := 0
  identicalActionCount : ℕ := 0
  lastActionKey : Option String := none
  observationSkipped : Bool := false
  costUsed : ℕ := 0
  costBudget : Option ℕ := none
  noProgressLimit : ℕ := EFFORT_NO_PROGRESS_LIMIT
  repeatLimit : ℕ := EFFORT_REPEAT_LIMIT
  enabled : Bool := true

namespace EffortRegulator

variable (r : EffortRegulator)

/-- `setEnabled`. -/
def setEnabled (enabled : Bool) : EffortRegulator := { r with enabled }

/-- `applyLimits`. -/
def applyLimits (limits : EffortLimits) : EffortRegulator :=
  { r with noProgressLimit := limits.noProgressLimit, repeatLimit := limits.repeatLimit, enabled := true }

/-- `recordObservation`. -/
def recordObservation (observed : Bool) : EffortRegulator := { r with observationSkipped := !observed }

/-- `setCostBudget`. -/
def setCostBudget (budget : ℕ) : EffortRegulator := { r with costBudget := some budget, costUsed := 0 }

/-- `beginPrompt`. -/
def beginPrompt (budget : ℕ) : EffortRegulator :=
  { r with consecutiveNoProgress := 0, identicalActionCount := 0, lastActionKey := none, observationSkipped := false }.setCostBudget budget

/-- `recordCost`. -/
def recordCost (amount : ℕ) : EffortRegulator := if 0 < amount then { r with costUsed := r.costUsed + amount } else r

/-- More than 0.9 of the budget is spent. Divided as doubles, 432 of 480 is 0.9 and no more, as here. -/
def spent : Bool := r.costBudget.any fun budget => 0 < budget && 9 * budget < 10 * r.costUsed

/-- `stopReason`. -/
def stopReason : Option String :=
  if !r.enabled then none
  else if r.noProgressLimit ≤ r.consecutiveNoProgress then some "EffortRegulator stopped: no progress."
  else if r.repeatLimit ≤ r.identicalActionCount then some "EffortRegulator stopped: repeated action."
  else if r.spent then some "EffortRegulator stopped: spent budget."
  else if r.observationSkipped then some "EffortRegulator stopped: observation skipped."
  else none

/-- `updateProgress`. -/
def updateProgress (actionKey : String) (madeProgress : Bool) : EffortRegulator :=
  { r with
    identicalActionCount := if r.lastActionKey = some actionKey then r.identicalActionCount + 1 else 1
    lastActionKey := some actionKey
    consecutiveNoProgress := if madeProgress then 0 else r.consecutiveNoProgress + 1 }

end EffortRegulator

/-! ### Tool calls -/

section

variable (stringify : Json → String)

mutual

/-- `canonical`; `stringify` is `JSON.stringify`. -/
def canonical : Json → String
  | .arr xs => "[" ++ String.intercalate "," (canonicalList xs) ++ "]"
  | .obj fields =>
    let sorted := (canonicalFields fields).mergeSort fun a b => utf16 a.1.toList ≤ utf16 b.1.toList
    "\x7b" ++ String.intercalate "," (sorted.map fun field => stringify (.str field.1) ++ ":" ++ field.2) ++ "\x7d"
  | value => stringify value

/-- The values of an array. -/
def canonicalList : List Json → List String
  | [] => []
  | x :: xs => canonical x :: canonicalList xs

/-- The properties of an object. -/
def canonicalFields : List (String × Json) → List (String × String)
  | [] => []
  | (key, x) :: fields => (key, canonical x) :: canonicalFields fields

end

/-- `effortActionKey`. -/
def effortActionKey (name : String) (args : Json) : String := name ++ ":" ++ canonical stringify args

end

/-- `/:\d+:\d+:/` at the start of a text. -/
def startsLocation : List Char → Bool
  | ':' :: text =>
    !(text.takeWhile Char.isDigit).isEmpty &&
      match text.dropWhile Char.isDigit with
      | ':' :: text => !(text.takeWhile Char.isDigit).isEmpty && (text.dropWhile Char.isDigit).head? = some ':'
      | _ => false
  | _ => false

/-- `/^\s*error:\s+\S+:\d+:\d+:/` of a line that is trimmed. -/
def isLocatedError (line : List Char) : Bool :=
  if "error:".toList.isPrefixOf line then
    let rest := line.drop 6
    !(rest.takeWhile isJsSpace).isEmpty &&
      (((rest.dropWhile isJsSpace).takeWhile fun c => !isJsSpace c).tail.tails.any startsLocation)
  else false

/-- `bashErrorSignature`. -/
def bashErrorSignature (text : String) : String :=
  let lines := (text.toList.splitOn '\n').map fun line => jsTrim (String.ofList line)
  String.intercalate "\n" (lines.filter fun line => isLocatedError line.toList).eraseDups

/-- The text of a tool result. -/
def resultText (content : List ContentBlock) : String :=
  jsTrim (String.intercalate "\n" (content.filterMap fun
    | .text text => some text
    | .image .. => none))

/-- A tool call and its outcome. -/
structure ToolOutcome where
  name : String
  args : Json
  content : List ContentBlock
  isError : Bool

/-- The text contains another. -/
def includes (text part : String) : Bool := text.toList.tails.any part.toList.isPrefixOf

/-- The call is an edit that changed nothing. -/
def ToolOutcome.noChange (call : ToolOutcome) : Bool := call.name = "edit" && includes (resultText call.content) "No change needed"

/-! ### The session -/

/-- The effort of an `AgentSession`. -/
structure Session where
  effortMode : EffortMode := .normal
  effort : EffortRegulator := {}
  effortLimits : Option EffortLimits := effortLimitsFor .normal
  lastEffortError : Option String := none
  lastBashFailure : Option (String × String) := none
  bashFailCounts : OrdMap String ℕ := .empty
  noChangeCount : ℕ := 0
  sameErrorStreak : ℕ := 0

namespace Session

variable (stringify : Json → String)

/-- `setEffort`. -/
def setEffort (s : Session) (mode : EffortMode) : Session :=
  { s with
    effortMode := mode
    effortLimits := effortLimitsFor mode
    effort := match effortLimitsFor mode with
      | some limits => s.effort.applyLimits limits
      | none => s.effort.setEnabled false }

/-- The start of `runPromptCycle`. -/
def startCycle (s : Session) : Session := { s with effort := (s.effort.beginPrompt EFFORT_COST_BUDGET).recordObservation true }

/-- The start of `_runAgentPrompt`. -/
def startAgentPrompt (s : Session) : Session :=
  { s with
    lastEffortError := none
    lastBashFailure := none
    bashFailCounts := .empty
    noChangeCount := 0
    sameErrorStreak := 0
    effort := match s.effortLimits with
      | some limits => (s.effort.applyLimits limits).beginPrompt limits.costBudget
      | none => (s.effort.setEnabled false).beginPrompt EFFORT_COST_BUDGET }

/-- A bash call that failed at a known place, with its key and the place. -/
def bashFailure (call : ToolOutcome) : Option (String × String) :=
  if call.name = "bash" ∧ call.isError ∧ bashErrorSignature (resultText call.content) ≠ "" then
    some (effortActionKey stringify call.name call.args, bashErrorSignature (resultText call.content))
  else none

/-- `learned`: the call is an error that was not seen just before. -/
def learned (lastError : Option String) (lastBash : Option (String × String)) (call : ToolOutcome) : Bool :=
  call.isError && resultText call.content ≠ "" && some (resultText call.content) ≠ lastError &&
    !((bashFailure stringify call).isSome && bashFailure stringify call = lastBash)

/-- The call made progress. -/
def progress (lastError : Option String) (lastBash : Option (String × String)) (call : ToolOutcome) : Bool :=
  (!call.isError || learned stringify lastError lastBash call) && !call.noChange

/-- `_noteLiveEffort`. -/
def noteLiveEffort (s : Session) (call : ToolOutcome) : Session × Option String :=
  match s.effortLimits with
  | none => (s, none)
  | some limits =>
    let key := effortActionKey stringify call.name call.args
    let failed := call.name = "bash" ∧ call.isError
    let noChangeCount := if call.noChange then s.noChangeCount + 1 else s.noChangeCount
    let sameErrorStreak :=
      match bashFailure stringify call with
      | some failure => if s.lastBashFailure = some failure then s.sameErrorStreak + 1 else 1
      | none => s.sameErrorStreak
    let count := (s.bashFailCounts.get? key).getD 0 + 1
    let s' : Session :=
      { s with
        effort := (s.effort.recordCost 1).updateProgress key (progress stringify s.lastEffortError s.lastBashFailure call)
        lastEffortError := if call.isError then some (resultText call.content) else none
        lastBashFailure := (bashFailure stringify call).or s.lastBashFailure
        bashFailCounts := if failed then s.bashFailCounts.set key count else s.bashFailCounts
        noChangeCount
        sameErrorStreak }
    (s',
      if call.noChange ∧ limits.noChangeLimit ≤ noChangeCount then some "EffortRegulator stopped: no change."
      else if limits.sameErrorLimit ≤ sameErrorStreak then some "EffortRegulator stopped: same errors."
      else if failed ∧ limits.repeatLimit ≤ count then some "EffortRegulator stopped: same command failed."
      else s'.effort.stopReason)

/-- `shouldStopAfterTurn`: the regulator stops the turn. -/
def shouldStopAfterTurn (s : Session) : Bool := s.effortLimits.isSome && s.effort.stopReason.isSome

end Session

/-- How a prompt is handled: as a prompt of the agent, with the reflective loop or without it, or as a called workflow. -/
inductive Path
  | plain (reflective : Bool)
  | workflow
  deriving DecidableEq

/-- The start of a prompt. -/
def Session.start (s : Session) : Path → Session
  | .plain reflective => (if reflective then s.startCycle else s).startAgentPrompt
  | .workflow => s.startCycle

/-- What happens to a session. -/
inductive Op
  | setEffort (mode : EffortMode)
  | start (path : Path)
  | note (call : ToolOutcome)
  /-- The end of a cycle: `updateProgress` of its intention. -/
  | endCycle (intention : String) (madeProgress : Bool)
  /-- The tool `observe`. -/
  | observe

/-- One step. -/
def step (stringify : Json → String) (s : Session) : Op → Session
  | .setEffort mode => s.setEffort mode
  | .start path => s.start path
  | .note call => (s.noteLiveEffort stringify call).1
  | .endCycle intention madeProgress => { s with effort := s.effort.updateProgress intention madeProgress }
  | .observe => { s with effort := s.effort.recordObservation true }

/-- A run from a new session. -/
def run (stringify : Json → String) (ops : List Op) : Session := ops.foldl (step stringify) {}

end Trek.Effort
