/-
# Reading a file before it is changed

The laws of `core/safety/laws.ts` refuse a `write` or `edit` of a file that is there and was not read
in the session; `afterToolCall` records the files of the calls that succeed. Calls of one batch and
of branches go through check, execution and record at once, and files come and go. What the law looks
at are the arguments before the extensions of `tool_call` may patch them, and what is recorded is
what the tool says of itself. So whenever a file is changed that the law has looked at, an earlier
call of a tool that did not fail has read or changed it (`run_readFirst`).
-/
import Trek.Gate.FileArguments
import Trek.Lib.Machine
import Trek.Lib.Separated

namespace Trek.ReadFirst

/-! ### The laws -/

/-- `ReversibilityTier`. -/
inductive Tier
  | free | cheap | gated | forbidden
  deriving DecidableEq

/-- `ToolCallDescriptor`. -/
structure Descriptor where
  toolName : String
  args : Json
  tier : Tier
  deriving DecidableEq

/-- What the laws are given: `HARMFUL_PATTERN`, `DESTRUCTIVE_BASH`, and `resolveToCwd(path, cwd)`,
`none` where it throws. -/
structure Env where
  harmfulPattern : String → Bool
  destructiveBash : String → Bool
  resolveToCwd : String → Option String

/-- `SafetyEnv`, less the paths. -/
structure SafetyEnv where
  halted : Bool
  requireDestructiveConfirm : Bool
  enforceReadBeforeWrite : Bool
  hasReadFile : String → Bool
  fileExists : String → Bool

/-- `getCommand`. -/
def getCommand (d : Descriptor) : Option String := if d.toolName = "bash" then stringField d.args "command" else none

/-- `getFilePath`, where it is not the empty path. -/
def getFilePath (d : Descriptor) : Option String := if mutatesFile d.toolName then argumentPath d.args else none

section

variable (env : Env)

/-- `checkLaw0`: whether it blocks. -/
def checkLaw0 (d : Descriptor) : Bool :=
  (getCommand d).any env.harmfulPattern || (stringField d.args "content").any env.harmfulPattern

/-- The reasons of `checkLaw1`. -/
inductive Law1
  | destructive
  | forbidden
  | unread (filePath : String)
  deriving DecidableEq

/-- `checkLaw1`; `none` where it throws. -/
def checkLaw1 (d : Descriptor) (safety : SafetyEnv) : Option (Option Law1) :=
  if (getCommand d).any (fun command => truthy command && env.destructiveBash command) &&
      !safety.requireDestructiveConfirm then some (some .destructive)
  else if d.tier = .forbidden then some (some .forbidden)
  else if !safety.enforceReadBeforeWrite then some none
  else
    match getFilePath d with
    | none => some none
    | some filePath =>
      (env.resolveToCwd filePath).map fun absPath =>
        if safety.fileExists absPath && !safety.hasReadFile absPath then some (.unread filePath) else none

/-- `checkToolCall`: whether the call is allowed. An error blocks it. -/
def checkToolCall (d : Descriptor) (safety : SafetyEnv) : Bool :=
  !safety.halted && !checkLaw0 env d && checkLaw1 env d safety = some none

end

/-! ### Calls -/

/-- A call: the arguments the law has checked, the arguments the tool gets, and what the law was given.
`fileExists` is of the time of the check. -/
structure Call where
  toolName : String
  tier : Tier
  checkedArgs : Json
  args : Json
  safety : SafetyEnv

/-- Where a call is. -/
inductive Stage
  /-- `checkToolCall` waits for `fileExists` -/
  | checking
  /-- the law has let it through -/
  | checked
  /-- the tool runs -/
  | running
  /-- the tool has ended -/
  | ended (isError : Bool)
  /-- `afterToolCall` has recorded the file and goes on -/
  | recorded
  deriving DecidableEq

/-- What happens to a call. `ended` is the result of the tool, `finished` that of the call. -/
inductive Event
  | started (call : Call)
  | ended (call : Call) (isError : Bool)
  | finished (call : Call) (isError : Bool)

/-- `_readFiles`, the calls under way, and what has happened. -/
structure Session where
  readFiles : String → Bool
  calls : ℕ → Option (Call × Stage)
  log : List Event

/-- A session at its start. -/
def Session.new : Session := ⟨fun _ => false, fun _ => none, []⟩

/-- What happens in a session, to the call of some number. `block` is every other reason not to run a
call. A call is executed with the arguments that the extensions of `tool_call` leave; it is finished
with what the extensions of `tool_result`, or a throw in `afterToolCall`, make of its result. -/
inductive Step
  | check (k : ℕ) (toolName : String) (tier : Tier) (args : Json) (safety : SafetyEnv)
  | law (k : ℕ)
  | block (k : ℕ)
  | execute (k : ℕ) (args : Json)
  | ended (k : ℕ) (isError : Bool)
  | record (k : ℕ)
  | finish (k : ℕ) (isError : Bool)

/-- `toolName` is one of the tools that `_recordFileAccessForSafety` records. -/
def accessesFile (toolName : String) : Bool := toolName = "read" || mutatesFile toolName

section

variable (env : Env)

/-- The file the arguments of a call name; the empty path is the working directory, which is no file. -/
def resolvedFile (args : Json) : Option String := (argumentPath args).bind env.resolveToCwd

/-- `_recordFileAccessForSafety`. -/
def recordFileAccess (readFiles : String → Bool) (call : Call) (isError : Bool) : String → Bool :=
  if isError || !accessesFile call.toolName then readFiles
  else
    match resolvedFile env call.args with
    | some path => Function.update readFiles path true
    | none => readFiles

namespace Session

variable (s : Session)

/-- A call goes on to a stage, or is over. -/
def setCall (k : ℕ) (call? : Option (Call × Stage)) : Session := { s with calls := Function.update s.calls k call? }

/-- One step. -/
def step : Step → Option Session
  | .check k toolName tier args safety =>
    match s.calls k with
    | none => some (s.setCall k (some (⟨toolName, tier, args, args, safety⟩, .checking)))
    | some _ => none
  | .law k =>
    match s.calls k with
    | some (call, .checking) =>
      let allowed := checkToolCall env ⟨call.toolName, call.checkedArgs, call.tier⟩
        { call.safety with hasReadFile := s.readFiles }
      some (s.setCall k (if allowed then some (call, .checked) else none))
    | _ => none
  | .block k =>
    match s.calls k with
    | some (_, .checked) => some (s.setCall k none)
    | _ => none
  | .execute k args =>
    match s.calls k with
    | some (call, .checked) =>
      let call := { call with args }
      some { s.setCall k (some (call, .running)) with log := s.log ++ [.started call] }
    | _ => none
  | .ended k isError =>
    match s.calls k with
    | some (call, .running) =>
      some { s.setCall k (some (call, .ended isError)) with log := s.log ++ [.ended call isError] }
    | _ => none
  | .record k =>
    match s.calls k with
    | some (call, .ended isError) =>
      some { s.setCall k (some (call, .recorded)) with readFiles := recordFileAccess env s.readFiles call isError }
    | _ => none
  | .finish k isError =>
    match s.calls k with
    | some (call, .recorded) => some { s.setCall k none with log := s.log ++ [.finished call isError] }
    | _ => none

end Session

/-! ### What is meant -/

/-- The law has looked at a file that is there, for a call that changes it. -/
def ChangesExisting (call : Call) (path : String) : Prop :=
  mutatesFile call.toolName = true ∧ call.safety.enforceReadBeforeWrite = true ∧
    resolvedFile env call.args = some path ∧ call.safety.fileExists path = true

/-- A call that is no error has read or changed the file. -/
def Accesses (call : Call) (path : String) : Prop :=
  accessesFile call.toolName = true ∧ resolvedFile env call.args = some path

/-- Every change of a file that was there comes after a call that has read or changed it and did not
end in error. -/
def ReadBeforeWrite : List Event → Prop :=
  Justified fun before e => ∀ call path, e = .started call → ChangesExisting env call path →
    ∃ earlier, .finished earlier false ∈ before ∧ Accesses env earlier path

/-- Every change of a file that was there, by a call whose path is the one the law has checked, comes
after a call of a tool that has read or changed it and did not fail. -/
def CheckedReadFirst : List Event → Prop :=
  Justified fun before e => ∀ call path, e = .started call → ChangesExisting env call path →
    argumentPath call.args = argumentPath call.checkedArgs →
    ∃ earlier, .ended earlier false ∈ before ∧ Accesses env earlier path

end

/-! ### The law and the record -/

variable {env : Env} {s s' : Session}

/-- A call that the law lets through changes no file that is there and was not read. -/
theorem hasReadFile_of_allowed {d : Descriptor} {safety : SafetyEnv} (h : checkToolCall env d safety = true)
    (hmutates : mutatesFile d.toolName = true) (henforce : safety.enforceReadBeforeWrite = true) {path : String}
    (hpath : resolvedFile env d.args = some path) (hexists : safety.fileExists path = true) :
    safety.hasReadFile path = true := by
  unfold checkToolCall at h
  rw [Bool.and_eq_true, decide_eq_true_eq] at h
  have hlaw := h.2
  unfold resolvedFile at hpath
  obtain ⟨filePath, hfile, hresolve⟩ := Option.bind_eq_some_iff.mp hpath
  have hget : getFilePath d = some filePath := by rw [getFilePath, if_pos hmutates, hfile]
  unfold checkLaw1 at hlaw
  rw [henforce, hget] at hlaw
  split at hlaw
  · cases hlaw
  · split at hlaw
    · cases hlaw
    · rw [if_neg (by decide)] at hlaw
      dsimp only at hlaw
      rw [hresolve, Option.map_some, hexists, Bool.true_and] at hlaw
      cases hread : safety.hasReadFile path with
      | true => rfl
      | false =>
        rw [hread] at hlaw
        cases hlaw

theorem recordFileAccess_of_read {readFiles : String → Bool} {path : String} (h : readFiles path = true) (call : Call)
    (isError : Bool) : recordFileAccess env readFiles call isError path = true := by
  unfold recordFileAccess
  split
  · exact h
  · cases resolvedFile env call.args with
    | none => exact h
    | some recorded =>
      by_cases hp : path = recorded
      · rw [hp]
        exact Function.update_self _ _ _
      · exact (Function.update_of_ne hp _ _).trans h

/-- What is recorded was accessed by a call that did not fail. -/
theorem accesses_of_recorded {readFiles : String → Bool} {path : String} {call : Call} {isError : Bool}
    (h : recordFileAccess env readFiles call isError path = true) :
    readFiles path = true ∨ isError = false ∧ Accesses env call path := by
  unfold recordFileAccess at h
  split at h
  · exact Or.inl h
  · rename_i hno
    rw [Bool.or_eq_true, not_or, Bool.not_eq_true, Bool.not_eq_true', Bool.not_eq_false] at hno
    cases hrecorded : resolvedFile env call.args with
    | none =>
      rw [hrecorded] at h
      exact Or.inl h
    | some recorded =>
      rw [hrecorded] at h
      by_cases hp : path = recorded
      · exact Or.inr ⟨hno.1, hno.2, hp ▸ hrecorded⟩
      · exact Or.inl ((Function.update_of_ne hp _ _).symm.trans h)

/-! ### The invariant -/

/-- What is known of a call: the law has found that its file was read, or its end is on record. -/
def CallInv (env : Env) (s : Session) (call : Call) : Stage → Prop
  | .checked => ∀ path, mutatesFile call.toolName = true → call.safety.enforceReadBeforeWrite = true →
      resolvedFile env call.checkedArgs = some path → call.safety.fileExists path = true → s.readFiles path = true
  | .ended isError => .ended call isError ∈ s.log
  | _ => True

/-- Every file on record was accessed. -/
structure Inv (env : Env) (s : Session) : Prop where
  read : ∀ path, s.readFiles path = true → ∃ earlier, .ended earlier false ∈ s.log ∧ Accesses env earlier path
  calls : ∀ k call stage, s.calls k = some (call, stage) → CallInv env s call stage
  readFirst : CheckedReadFirst env s.log

namespace Inv

theorem inv_new (env : Env) : Inv env .new :=
  ⟨fun _ h => (by cases h), fun _ _ _ h => (by cases h), justified_nil⟩

/-- A call goes on while files are read and events happen. -/
theorem next (h : Inv env s) {k : ℕ} {call? : Option (Call × Stage)}
    (hcalls : s'.calls = Function.update s.calls k call?) (hread : ∀ path, s.readFiles path = true → s'.readFiles path = true)
    (hlog : ∀ e ∈ s.log, e ∈ s'.log) (hcall : ∀ call stage, call? = some (call, stage) → CallInv env s' call stage)
    (hevidence : ∀ path, s'.readFiles path = true → ∃ earlier, .ended earlier false ∈ s'.log ∧ Accesses env earlier path)
    (hreadFirst : CheckedReadFirst env s'.log) : Inv env s' := by
  refine ⟨hevidence, fun j call stage hj => ?_, hreadFirst⟩
  rw [hcalls] at hj
  by_cases hjk : j = k
  · subst hjk
    rw [Function.update_self] at hj
    exact hcall call stage hj
  · rw [Function.update_of_ne hjk] at hj
    have hinv := h.calls j call stage hj
    cases stage with
    | checked => exact fun path hm he hp hx => hread path (hinv path hm he hp hx)
    | ended isError => exact hlog _ hinv
    | _ => trivial

/-- Nothing happens but that a call goes on. -/
theorem setCall (h : Inv env s) (k : ℕ) {call? : Option (Call × Stage)}
    (hcall : ∀ call stage, call? = some (call, stage) → CallInv env s call stage) : Inv env (s.setCall k call?) :=
  h.next rfl (fun _ hp => hp) (fun _ he => he) (fun call stage hc => by
    have := hcall call stage hc
    cases stage <;> exact this) h.read h.readFirst

/-- Something happens while a call goes on. -/
theorem happens (h : Inv env s) (k : ℕ) {call? : Option (Call × Stage)} {e : Event}
    (hcall : ∀ call stage, call? = some (call, stage) →
      CallInv env { s.setCall k call? with log := s.log ++ [e] } call stage)
    (hreadFirst : CheckedReadFirst env (s.log ++ [e])) : Inv env { s.setCall k call? with log := s.log ++ [e] } := by
  refine h.next rfl (fun _ hp => hp) (fun _ he => List.mem_append_left _ he) hcall (fun path hp => ?_) hreadFirst
  obtain ⟨earlier, hmem, haccess⟩ := h.read path hp
  exact ⟨earlier, List.mem_append_left _ hmem, haccess⟩

/-- An event that starts no call needs nothing before it. -/
theorem readFirst_concat (h : Inv env s) {e : Event} (he : ∀ call, e ≠ .started call) : CheckedReadFirst env (s.log ++ [e]) :=
  h.readFirst.concat fun call _ heq => absurd heq (he call)

theorem step (h : Inv env s) {input : Step} (hs : s.step env input = some s') : Inv env s' := by
  cases input with
  | check k toolName tier args safety =>
    simp only [Session.step] at hs
    split at hs
    · obtain rfl := Option.some.inj hs
      refine h.setCall k fun call stage hc => ?_
      cases hc
      trivial
    · cases hs
  | law k =>
    simp only [Session.step] at hs
    split at hs
    · rename_i call hk
      obtain rfl := Option.some.inj hs
      refine h.setCall k fun call' stage hc => ?_
      split at hc
      · rename_i hallowed
        cases hc
        intro path hmutates henforce hpath hexists
        exact hasReadFile_of_allowed hallowed hmutates henforce hpath hexists
      · cases hc
    · cases hs
  | block k =>
    simp only [Session.step] at hs
    split at hs
    · obtain rfl := Option.some.inj hs
      exact h.setCall k fun call stage hc => by cases hc
    · cases hs
  | execute k args =>
    simp only [Session.step] at hs
    split at hs
    · rename_i call hk
      obtain rfl := Option.some.inj hs
      refine h.happens k (fun call' stage hc => ?_) (h.readFirst.concat fun call' path heq hchanges hsame => ?_)
      · cases hc
        trivial
      · -- the law has found the file of the arguments it has checked, which is this file, on record
        obtain rfl := Event.started.inj heq
        obtain ⟨hmutates, henforce, hpath, hexists⟩ := hchanges
        have hchecked : resolvedFile env call.checkedArgs = some path := by
          unfold resolvedFile at hpath ⊢
          rw [← hsame]
          exact hpath
        exact h.read path (h.calls k call .checked hk path hmutates henforce hchecked hexists)
    · cases hs
  | ended k isError =>
    simp only [Session.step] at hs
    split at hs
    · obtain rfl := Option.some.inj hs
      refine h.happens k (fun call' stage hc => ?_) (h.readFirst_concat fun call' heq => by cases heq)
      cases hc
      exact List.mem_append_right _ (List.mem_singleton_self _)
    · cases hs
  | record k =>
    simp only [Session.step] at hs
    split at hs
    · rename_i call isError hk
      obtain rfl := Option.some.inj hs
      refine h.next rfl (fun path hp => recordFileAccess_of_read hp call isError) (fun _ he => he) (fun call' stage hc => ?_)
        (fun path hp => ?_) h.readFirst
      · cases hc
        trivial
      · rcases accesses_of_recorded hp with hp | ⟨rfl, haccess⟩
        · exact h.read path hp
        · exact ⟨call, h.calls k call (.ended false) hk, haccess⟩
    · cases hs
  | finish k isError =>
    simp only [Session.step] at hs
    split at hs
    · obtain rfl := Option.some.inj hs
      exact h.happens k (fun call' stage hc => by cases hc) (h.readFirst_concat fun call' heq => by cases heq)
    · cases hs

end Inv

/-- **In every run, whenever a file is changed that is there when the law looks at it, an earlier call
whose tool did not fail has read or changed it, if the path is still the one the law has looked at.** -/
theorem run_readFirst (env : Env) (steps : List Step) (s : Session)
    (hrun : Machine.run (Session.step env) .new steps = some s) : CheckedReadFirst env s.log := by
  have hinv : Inv env s := Machine.inv_run (fun _ _ _ h hs => Inv.step h hs) steps (Inv.inv_new env) hrun
  exact hinv.readFirst

/-! ### Patched arguments and results -/

/-- Patterns that nothing matches. -/
def plainEnv : Env := ⟨fun _ => false, fun _ => false, some⟩

/-- A session with every file there. -/
def strict : SafetyEnv := ⟨false, false, true, fun _ => false, fun _ => true⟩

/-- A session in which only `a` is there. -/
def onlyA : SafetyEnv := { strict with fileExists := fun path => path = "a" }

/-- The arguments for a path. -/
def pathArgs (path : String) : Json := .obj [("path", .str path)]

/-- A write of a new file that an extension turns to one that is there. -/
def patchedRun : List Step := [.check 0 "write" .cheap (pathArgs "b") onlyA, .law 0, .execute 0 (pathArgs "a")]

/-- A file is read, an extension turns the result into an error, and the file is written. -/
def errorRun : List Step :=
  [.check 0 "read" .free (pathArgs "a") strict, .law 0, .execute 0 (pathArgs "a"), .ended 0 false, .record 0, .finish 0 true,
    .check 1 "write" .cheap (pathArgs "a") strict, .law 1, .execute 1 (pathArgs "a")]

/-- The first run changes a file that was not read, the second one a file whose read ended in error. -/
theorem run_not_readBeforeWrite :
    (∃ s, Machine.run (Session.step plainEnv) .new patchedRun = some s ∧ ¬ ReadBeforeWrite plainEnv s.log) ∧
      ∃ s, Machine.run (Session.step plainEnv) .new errorRun = some s ∧ ¬ ReadBeforeWrite plainEnv s.log := by
  constructor
  · refine ⟨_, rfl, fun h => ?_⟩
    obtain ⟨earlier, hmem, -⟩ := h [] _ [] rfl _ "a" rfl ⟨rfl, rfl, rfl, rfl⟩
    cases hmem
  · refine ⟨_, rfl, fun h => ?_⟩
    obtain ⟨earlier, hmem, -⟩ := h [_, _, _] _ [] rfl _ "a" rfl ⟨rfl, rfl, rfl, rfl⟩
    rcases List.mem_cons.mp hmem with hmem | hmem
    · cases hmem
    · rcases List.mem_cons.mp hmem with hmem | hmem
      · cases hmem
      · cases List.mem_singleton.mp hmem

/-- The second run keeps to the rule of the law. -/
theorem errorRun_readFirst : ∃ s, Machine.run (Session.step plainEnv) .new errorRun = some s ∧
    CheckedReadFirst plainEnv s.log := ⟨_, rfl, run_readFirst plainEnv errorRun _ rfl⟩

end Trek.ReadFirst
