/-
# The hooks of a tool call

`AgentSession` puts two hooks around a tool call. `beforeToolCall` reserves the file,
asks the operator and the laws, looks for an earlier call with the same arguments, saves
the file for undo and asks the extensions; `afterToolCall` lets go of what the call
reserved and remembers its result. Between them the agent loop prepares the call and
executes its tool. Calls of one batch, of later batches and of child agents run through
the hooks at once: each `await` is a point where another call goes on, so a step here is
what one call does from one `await` to the next.
-/
import Trek.Agent.Events
import Trek.Lib.Machine
import Trek.Lib.OrdMap
import Trek.Lib.Text

namespace Trek.ToolGate

/-! ### Arguments -/

/-- `Edit` of `edit-diff.ts`. -/
structure Edit where
  oldText : String
  newText : String
  replaceAll : Option Bool
  deriving DecidableEq

/-- The arguments of a call as its tool's schema has validated them. A tool that neither
writes nor edits has its name alone, `bash` its command. -/
inductive ToolArgs
  | write (path content : String)
  | edit (path : String) (edits : List Edit)
  | bash (command : String)
  | other (name : String)
  deriving DecidableEq

namespace ToolArgs

/-- `toolCall.name`. -/
def toolName : ToolArgs → String
  | write _ _ => "write"
  | edit _ _ => "edit"
  | bash _ => "bash"
  | other name => name

/-- `args.path` of a tool that changes the file it names. -/
def path? : ToolArgs → Option String
  | write path _ => some path
  | edit path _ => some path
  | _ => none

/-- `toolName === "edit"`. -/
def isEdit : ToolArgs → Bool
  | edit _ _ => true
  | _ => false

/-- `toolName === "bash"`. -/
def isBash : ToolArgs → Bool
  | bash _ => true
  | _ => false

end ToolArgs

/-- What `_idempotencyKey` hashes, less the session's id, which stays the same. Two keys
with one digest are taken to be one key. -/
structure Key where
  promptNumber : ℕ
  args : ToolArgs
  deriving DecidableEq

/-! ### Files and the edit engine -/

/-- `AppliedEditsResult`. -/
structure AppliedEdits where
  baseContent : String
  newContent : String
  unchanged : Bool

/-- What the hooks and the tools take from elsewhere: paths, the encoding of files, and the
matching of edits against a text. -/
structure Env (β : Type) where
  /-- `resolveToCwd(path, cwd)` -/
  resolveToCwd : String → String
  /-- the bytes of a text written as UTF-8 -/
  encode : String → β
  /-- `buffer.toString("utf-8")` -/
  decode : β → String
  /-- an error is its message, for the path that the message names -/
  applyEditsToNormalizedContent : String → List Edit → Except (String → String) AppliedEdits

/-- Files that are their texts, no directory to resolve from, and no edit that finds its text. -/
def Env.plain : Env String where
  resolveToCwd := id
  encode := id
  decode := id
  applyEditsToNormalizedContent := fun _ _ => .error fun path => "Could not find the exact text in " ++ path ++ "."

/-- `stripBom`: the mark and the text after it. -/
def stripBom (content : String) : String × String :=
  match content.toList with
  | c :: rest => if c.toNat = 0xFEFF then (String.singleton c, String.ofList rest) else ("", content)
  | [] => ("", content)

/-- Every line end as a line feed. -/
def toLF : List Char → List Char
  | '\r' :: '\n' :: cs => '\n' :: toLF cs
  | '\r' :: cs => '\n' :: toLF cs
  | c :: cs => c :: toLF cs
  | [] => []

/-- `normalizeToLF`. -/
def normalizeToLF (text : String) : String := String.ofList (toLF text.toList)

/-- `detectLineEnding`: the first line feed of the text has a carriage return before it or not. -/
def detectLineEnding (content : String) : String :=
  let line := content.toList.takeWhile (· ≠ '\n')
  if line.length < content.toList.length ∧ line.getLast? = some '\r' then "\r\n" else "\n"

/-- `restoreLineEndings`. -/
def restoreLineEndings (text ending : String) : String :=
  if ending = "\r\n" then String.ofList (text.toList.flatMap fun c => if c = '\n' then ['\r', '\n'] else [c])
  else text

/-- `s.includes(t)`. -/
def includes (s t : String) : Bool := s.toList.tails.any (t.toList.isPrefixOf ·)

/-- `editStillNeeded`. -/
def editStillNeeded {β : Type} (env : Env β) (content : String) (edits : List Edit) : Bool :=
  if edits.isEmpty then true
  else
    let normalized := normalizeToLF (stripBom content).2
    match env.applyEditsToNormalizedContent normalized edits with
    | .ok r => !r.unchanged
    | .error message => !includes (message "") "Could not find"

/-! ### The hooks' tables -/

/-- A result that `_idempotency` keeps. -/
structure CachedResult where
  text : String
  isError : Bool
  deriving DecidableEq

/-- An edit that `_appliedEdits` keeps. -/
structure AppliedEdit where
  path : String
  oldText : String
  newText : String
  deriving DecidableEq

/-- What the hooks of `AgentSession` read and write, and the files. `left` is not in the
source: for a remembered result, the content that the call gave its file. -/
structure AgentSession (β : Type) where
  halted : Bool
  dryRunEnabled : Bool
  currentPromptNumber : ℕ
  fileMutationOwner : OrdMap String String
  idempotency : OrdMap Key CachedResult
  idempotencyInFlight : List Key
  appliedEdits : List AppliedEdit
  lastCommandErrors : Option String
  files : String → Option β
  left : Key → Option β

namespace AgentSession

variable {β : Type}

/-- A session as it is made. -/
def new (files : String → Option β) : AgentSession β where
  halted := false
  dryRunEnabled := false
  currentPromptNumber := 0
  fileMutationOwner := OrdMap.empty
  idempotency := OrdMap.empty
  idempotencyInFlight := []
  appliedEdits := []
  lastCommandErrors := none
  files := files
  left := fun _ => none

/-- `_idempotencyKey`. -/
def idempotencyKey (s : AgentSession β) (args : ToolArgs) : Key := ⟨s.currentPromptNumber, args⟩

/-- `_mutationPath`: none for an empty path. -/
def mutationPath (env : Env β) (args : ToolArgs) : Option String :=
  (args.path?.filter (· ≠ "")).map env.resolveToCwd

/-- `_fileMutationBusy`: another call owns the path, or the path is the call's now. -/
def fileMutationBusy (env : Env β) (s : AgentSession β) (toolCallId : String) (args : ToolArgs) :
    Bool × AgentSession β :=
  match mutationPath env args with
  | none => (false, s)
  | some path =>
    if (s.fileMutationOwner.get? path).any (· ≠ toolCallId) then (true, s)
    else (false, { s with fileMutationOwner := s.fileMutationOwner.set path toolCallId })

/-- `_releaseFileMutation`. -/
def releaseFileMutation (s : AgentSession β) (toolCallId : String) : AgentSession β :=
  { s with fileMutationOwner := s.fileMutationOwner.dropValue toolCallId }

/-- What `_lookupIdempotent` finds. -/
inductive Lookup
  | fresh
  | inFlight
  | cached (r : CachedResult)

/-- `_lookupIdempotent`: a key that is new is in flight from now on. -/
def lookupIdempotent (s : AgentSession β) (args : ToolArgs) : Lookup × AgentSession β :=
  if args.path?.isNone then (.fresh, s)
  else
    let key := s.idempotencyKey args
    match s.idempotency.get? key with
    | some cached => (.cached cached, s)
    | none =>
      if key ∈ s.idempotencyInFlight then (.inFlight, s)
      else (.fresh, { s with idempotencyInFlight := s.idempotencyInFlight ++ [key] })

/-- Only a key that is new changes the tables. -/
theorem lookup_cases (s : AgentSession β) (args : ToolArgs) :
    s.lookupIdempotent args = (.fresh, s) ∧ args.path? = none ∨
      (∃ cached, s.lookupIdempotent args = (.cached cached, s) ∧ s.idempotency.get? (s.idempotencyKey args) = some cached) ∨
      s.lookupIdempotent args = (.inFlight, s) ∧ s.idempotencyKey args ∈ s.idempotencyInFlight ∨
      (s.lookupIdempotent args =
        (.fresh, { s with idempotencyInFlight := s.idempotencyInFlight ++ [s.idempotencyKey args] }) ∧
          args.path?.isSome = true) := by
  simp only [lookupIdempotent]
  split
  · rename_i hpath
    exact Or.inl ⟨rfl, Option.isNone_iff_eq_none.mp hpath⟩
  · rename_i hpath
    have hsome : args.path?.isSome = true := Option.isSome_iff_ne_none.mpr (by simpa using hpath)
    split
    · rename_i cached hcached
      exact Or.inr (Or.inl ⟨cached, rfl, hcached⟩)
    · split
      · rename_i hmem
        exact Or.inr (Or.inr (Or.inl ⟨rfl, hmem⟩))
      · exact Or.inr (Or.inr (Or.inr ⟨rfl, hsome⟩))

/-- `_forgetIdempotent`. -/
def forgetIdempotent (s : AgentSession β) (args : ToolArgs) : AgentSession β :=
  let key := s.idempotencyKey args
  { s with
    idempotency := s.idempotency.delete key
    idempotencyInFlight := s.idempotencyInFlight.filter (· ≠ key) }

/-- `_cachedEditStillNeeded`: a file that cannot be read is one to edit. -/
def cachedEditStillNeeded (env : Env β) (s : AgentSession β) : ToolArgs → Bool
  | .edit path edits =>
    match s.files (env.resolveToCwd path) with
    | some raw => editStillNeeded env (env.decode raw) edits
    | none => true
  | _ => true

/-- The text of a result, as `_rememberIdempotent` and `_rememberCommandErrors` join it. -/
def resultText (content : List ContentBlock) : String :=
  "\n".intercalate (content.filterMap fun part => match part with
    | .text text => some text
    | .image _ _ => none)

/-- `_rememberIdempotent`; `left` is what the call gave its file. -/
def rememberIdempotent (s : AgentSession β) (args : ToolArgs) (content : List ContentBlock) (isError : Bool)
    (left : Option β) : AgentSession β :=
  if args.path?.isNone then s
  else
    let key := s.idempotencyKey args
    let s := { s with idempotencyInFlight := s.idempotencyInFlight.filter (· ≠ key) }
    if isError then s
    else { s with
      idempotency := s.idempotency.set key ⟨resultText content, false⟩
      left := Function.update s.left key left }

/-- `_recordAppliedEdit`: the last 40 edits. -/
def recordAppliedEdit (env : Env β) (s : AgentSession β) (args : ToolArgs) : AgentSession β :=
  match args, mutationPath env args with
  | .edit _ edits, some path =>
    let appliedEdits := s.appliedEdits ++ edits.map fun e => ⟨path, e.oldText, e.newText⟩
    { s with appliedEdits := appliedEdits.drop (appliedEdits.length - 40) }
  | _, _ => s

/-- `_rememberCommandErrors`: the first eight lines of a command that report an error. -/
def rememberCommandErrors (s : AgentSession β) (args : ToolArgs) (content : List ContentBlock) : AgentSession β :=
  if args.isBash then
    let lines := ((resultText content).splitOn "\n").map jsTrim
    let errors := (lines.filter fun line => "error:".toList.isPrefixOf line.toList).take 8
    if errors.isEmpty then s else { s with lastCommandErrors := some ("\n".intercalate errors) }
  else s

/-! ### Why a call is blocked -/

/-- `\s+` as one space. -/
def collapseSpace : List Char → List Char
  | [] => []
  | c :: cs =>
    if isJsSpace c then
      if (cs.head?.map isJsSpace).getD false then collapseSpace cs else ' ' :: collapseSpace cs
    else c :: collapseSpace cs

/-- `compactEditText`. -/
def compactEditText (text : String) : String := jsTrim (String.ofList (collapseSpace text.toList))

/-- An edit puts back what an applied edit has replaced. -/
def restores (path : String) (edit : Edit) (item : AppliedEdit) : Bool :=
  let next := compactEditText edit.newText
  let prev := compactEditText edit.oldText
  let removed := compactEditText item.oldText
  let written := compactEditText item.newText
  item.path = path && ((removed = next && written = prev) ||
    (24 ≤ jsLength removed && 24 ≤ jsLength written && includes prev written && includes next removed))

/-- `_revertedEditReason`. -/
def revertedEditReason (env : Env β) (s : AgentSession β) (args : ToolArgs) : Option String :=
  match args, mutationPath env args with
  | .edit _ edits, some path =>
    if edits.any fun edit => s.appliedEdits.any (restores path edit) then
      let listed := match s.lastCommandErrors with
        | some errors => "\nLatest errors:\n" ++ errors
        | none => ""
      some ("This edit puts back text already replaced in this prompt. Leave the current text. The failure is on other lines. Edit those. Do not restore the removed text." ++ listed)
    else none
  | _, _ => none

/-- `_sameFileMutationReason`. -/
def sameFileMutationReason (args : ToolArgs) : String :=
  let raw := args.path?.getD "that file"
  if args.isEdit then
    "Another edit of " ++ raw ++ " is already running in this turn. Parallel edits apply only to different files. Put every change to this file in one edit call, in edits[]. Re-read the file after that call finishes. Do not rewrite the file."
  else
    "Another write of " ++ raw ++ " is already running in this turn. Parallel writes apply only to different files. Wait for this write to finish. Do not rewrite the file."

/-- `_mutationNoun`. -/
def mutationNoun (args : ToolArgs) : String := if args.isEdit then "edit" else "write"

/-- `_inFlightIdempotentReason`. -/
def inFlightIdempotentReason (args : ToolArgs) : String :=
  "This exact " ++ mutationNoun args ++ " is already running in this prompt. Use that result. If it failed, re-read the file and retry with the current text. Do not rewrite the file."

/-- `stripIdempotentPrefix`: `[idempotent]` in any case, and the white space after it. -/
def stripIdempotentPrefix (text : String) : String :=
  let mark := "[idempotent]".toList
  if (text.toList.take mark.length).map Char.toLower = mark then
    String.ofList ((text.toList.drop mark.length).dropWhile isJsSpace)
  else text

/-- `_blockedIdempotentResult`. -/
def blockedIdempotentResult (args : ToolArgs) (cached : CachedResult) : BeforeToolCallResult :=
  let text := jsTrim (stripIdempotentPrefix cached.text)
  if args.isEdit && includes text "No change needed" then
    ⟨true, some "No change needed. That edit was already reported. Continue with a different change.", some true, some false⟩
  else
    let head :=
      if args.isEdit then
        "This exact edit already applied in this prompt. The file already has this change. Continue with the next step. Do not rewrite the file."
      else
        "This exact write already completed in this prompt. The file already has this content. Continue with the next step. Do not rewrite the file."
    ⟨true, some (if text = "" then head else head ++ "\nPrevious result:\n" ++ text), none, some cached.isError⟩

/-! ### What the operations leave alone -/

@[simp] theorem releaseFileMutation_halted (s : AgentSession β) (id : String) :
    (s.releaseFileMutation id).halted = s.halted := rfl

/-- The key of a call that has a path is in flight no more. -/
theorem rememberIdempotent_inFlight (s : AgentSession β) (args : ToolArgs) (content : List ContentBlock)
    (isError : Bool) (left : Option β) :
    (s.rememberIdempotent args content isError left).idempotencyInFlight =
      if args.path?.isNone then s.idempotencyInFlight
      else s.idempotencyInFlight.filter (· ≠ s.idempotencyKey args) := by
  simp only [rememberIdempotent]
  split
  · rfl
  · split <;> rfl

/-- What is left is remembered with the result. -/
theorem rememberIdempotent_left (s : AgentSession β) (args : ToolArgs) (content : List ContentBlock)
    (isError : Bool) (left : Option β) (k : Key) :
    (s.rememberIdempotent args content isError left).left k =
      if args.path?.isNone ∨ isError = true ∨ k ≠ s.idempotencyKey args then s.left k else left := by
  simp only [rememberIdempotent]
  by_cases hpath : args.path?.isNone
  · rw [if_pos hpath, if_pos (Or.inl hpath)]
  · rw [if_neg hpath]
    by_cases herror : isError = true
    · rw [if_pos herror, if_pos (Or.inr (Or.inl herror))]
    · rw [if_neg herror]
      by_cases hk : k = s.idempotencyKey args
      · rw [if_neg (by simp [hpath, herror, hk]), hk]
        exact Function.update_self _ _ _
      · rw [if_pos (Or.inr (Or.inr hk))]
        exact Function.update_of_ne hk _ _

/-- Of the operations of `afterToolCall` only `_rememberIdempotent` touches the cache, and none
the flag, the prompt, the owners and the files. -/
theorem rememberIdempotent_frame (s : AgentSession β) (args : ToolArgs) (content : List ContentBlock) (isError : Bool)
    (left : Option β) :
    (s.rememberIdempotent args content isError left).halted = s.halted ∧
      (s.rememberIdempotent args content isError left).currentPromptNumber = s.currentPromptNumber ∧
      (s.rememberIdempotent args content isError left).fileMutationOwner = s.fileMutationOwner := by
  simp only [rememberIdempotent]
  split
  · exact ⟨rfl, rfl, rfl⟩
  · split <;> exact ⟨rfl, rfl, rfl⟩

theorem recordAppliedEdit_eq (env : Env β) (s : AgentSession β) (args : ToolArgs) :
    ∃ appliedEdits, s.recordAppliedEdit env args = { s with appliedEdits } := by
  simp only [recordAppliedEdit]
  split
  · exact ⟨_, rfl⟩
  · exact ⟨_, rfl⟩

theorem rememberCommandErrors_eq (s : AgentSession β) (args : ToolArgs) (content : List ContentBlock) :
    ∃ lastCommandErrors, s.rememberCommandErrors args content = { s with lastCommandErrors } := by
  simp only [rememberCommandErrors]
  split
  · split
    · exact ⟨_, rfl⟩
    · exact ⟨_, rfl⟩
  · exact ⟨_, rfl⟩

end AgentSession

end Trek.ToolGate
