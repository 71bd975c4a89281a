/-
# Repeated calls

`afterToolCall` remembers the result of a write or an edit under its prompt and its
arguments, and `beforeToolCall` refuses a call that is remembered: it has completed, and
the file has what it gave it. For an edit the file is read again, and the call is refused
only where executing it would write nothing. For a write nothing is read: another write,
an edit or a command may have changed the file since.
-/
import Trek.Gate.Calls

namespace Trek.ToolGate

variable {β : Type} {env : Env β}

/-! ### Refused calls and what they would do -/

/-- The remembered result with which `beforeToolCall` refuses a call that it has not refused before. -/
def AgentSession.completed (env : Env β) (s : AgentSession β) (args : ToolArgs) : Option CachedResult :=
  match (s.lookupIdempotent args).1 with
  | .cached cached => if args.isEdit && s.cachedEditStillNeeded env args then none else some cached
  | _ => none

/-- The files after the call's `execute`. -/
def AgentSession.executed (env : Env β) (s : AgentSession β) (args : ToolArgs) : String → Option β :=
  match startTool env s args, args.path? with
  | some (.writing content), some path => Function.update s.files (env.resolveToCwd path) (some content)
  | _, _ => s.files

/-- A remembered write whose file still has what the write gave it. -/
def AgentSession.Kept (env : Env β) (s : AgentSession β) : ToolArgs → Prop
  | .write path content => s.dryRunEnabled = true ∨
    ∃ left, s.left (s.idempotencyKey (.write path content)) = some left ∧ s.files (env.resolveToCwd path) = some left
  | _ => True

/-- `beforeToolCall` refuses such a call with the remembered result. -/
theorem callStep_completed {s : AgentSession β} {c : Call β} {cached : CachedResult} (hstage : c.stage = .checking false)
    (h : s.completed env c.args = some cached) :
    callStep env s c (.check none) = some (s.releaseFileMutation c.id,
      { c with stage := .answered (some (AgentSession.blockedIdempotentResult c.args cached)) }) := by
  unfold AgentSession.completed at h
  split at h
  · rename_i found hfound
    split at h
    · cases h
    · rename_i hneeded
      obtain rfl := Option.some.inj h
      have hlookup : s.lookupIdempotent c.args = (.cached found, s) := by
        rcases s.lookup_cases c.args with ⟨hl, -⟩ | ⟨_, hl, -⟩ | ⟨hl, -⟩ | ⟨hl, -⟩ <;> rw [hl] at hfound <;> cases hfound
        exact hl
      simp only [callStep, hstage, Bool.false_eq_true, ↓reduceIte, passGate, hlookup, if_neg hneeded]
  · cases h

/-! ### Edits -/

/-- An edit that is not needed writes nothing. -/
theorem executed_of_not_needed {s : AgentSession β} {path : String} {edits : List Edit}
    (h : s.cachedEditStillNeeded env (.edit path edits) = false) : s.executed env (.edit path edits) = s.files := by
  have hstart : ∀ content : β, startTool env s (.edit path edits) ≠ some (.writing content) := by
    intro content
    simp only [AgentSession.cachedEditStillNeeded] at h
    simp only [startTool]
    split at h
    · rename_i raw hraw
      simp only [editStillNeeded] at h
      split at h
      · cases h
      · rename_i hempty
        rw [if_neg hempty, hraw]
        simp only [editFile]
        split at h
        · rename_i r hr
          have hunchanged : r.unchanged = true := by simpa using h
          simp [hr, hunchanged]
        · rename_i message hmessage
          simp [hmessage]
    · cases h
  unfold AgentSession.executed
  split
  · rename_i content _ hwriting _
    exact absurd hwriting (hstart content)
  · rfl

/-! ### Writes -/

/-- Executing a write leaves the files as they are when it is a dry run or its file has its content. -/
theorem executed_write {s : AgentSession β} {path content : String} :
    s.executed env (.write path content) = s.files ↔
      s.dryRunEnabled = true ∨ s.files (env.resolveToCwd path) = some (env.encode content) := by
  simp only [AgentSession.executed, startTool, ToolArgs.path?]
  cases s.dryRunEnabled with
  | true => simp
  | false =>
    simp only [Bool.false_eq_true, ↓reduceIte, false_or]
    rw [Function.update_eq_self_iff]
    exact eq_comm

/-- What the tool of a call is writing, or has written. -/
def Stage.content? : Stage β → Option β
  | .executing (.writing content) | .executing (.wrote content) => some content
  | .settled _ _ left => left
  | _ => none

/-- A call takes what it writes from its arguments. -/
theorem Moves.content {s s' : AgentSession β} {c c' : Call β} {input : CallStep} (h : Moves env s c input s' c')
    {b : β} (hb : c'.stage.content? = some b) :
    c'.args = c.args ∧ (c.stage.content? = some b ∨ startTool env s c.args = some (.writing b)) := by
  cases h with
  | captured =>
    split at hb <;> cases hb
  | @started phase hstage hphase =>
    refine ⟨rfl, Or.inr ?_⟩
    cases phase with
    | writing content =>
      obtain rfl := Option.some.inj hb
      exact hphase
    | wrote content =>
      exfalso
      revert hphase
      cases c.args with
      | write path content => simp only [startTool]; split <;> simp
      | edit path edits =>
        simp only [startTool]
        repeat' split
        all_goals simp
      | bash command => simp [startTool]
      | other name => simp [startTool]
    | started => cases hb
    | reporting => cases hb
    | failed => cases hb
  | wrote hstage _ =>
    obtain rfl := Option.some.inj hb
    exact ⟨rfl, Or.inl (by rw [hstage]; rfl)⟩
  | @settled phase content isError left hstage hleft =>
    refine ⟨rfl, Or.inl ?_⟩
    obtain rfl : left = some b := hb
    rw [hstage]
    cases phase with
    | wrote content' =>
      simp only [settledLeft, Option.some.injEq] at hleft
      exact congrArg some hleft
    | started =>
      simp only [settledLeft] at hleft
      split at hleft <;> cases hleft
    | writing content' =>
      simp only [settledLeft] at hleft
      split at hleft <;> cases hleft
    | failed =>
      simp only [settledLeft] at hleft
      split at hleft <;> cases hleft
    | reporting => cases hleft
  | _ => cases hb

/-- What is remembered of a write is what the write gave its file. -/
theorem Moves.left {s s' : AgentSession β} {c c' : Call β} {input : CallStep} (h : Moves env s c input s' c')
    {k : Key} {b : β} (hb : s'.left k = some b) :
    s.left k = some b ∨ k = s.idempotencyKey c.args ∧ c.stage.content? = some b := by
  have hlookup : ∀ {found : AgentSession.Lookup} {s₁ : AgentSession β},
      s.lookupIdempotent c.args = (found, s₁) → s₁.left = s.left := by
    intro found s₁ h₁
    rcases s.lookup_cases c.args with ⟨h, -⟩ | ⟨_, h, -⟩ | ⟨h, -⟩ | ⟨h, -⟩ <;> rw [h] at h₁ <;> cases h₁ <;> rfl
  cases h with
  | admitted _ h₁ _ => exact Or.inl ((congrFun (hlookup h₁) k).symm.trans hb)
  | reverted _ h₁ _ _ => exact Or.inl ((congrFun (hlookup h₁) k).symm.trans hb)
  | @finished content isError left hstage =>
    obtain ⟨_, _, hfinish⟩ := finish_eq env s c content isError left
    rw [hfinish] at hb
    replace hb : ((s.releaseFileMutation c.id).rememberIdempotent c.args content isError left).left k = some b := hb
    rw [AgentSession.rememberIdempotent_left] at hb
    split at hb
    · exact Or.inl hb
    · rename_i hnot
      rw [not_or, not_or, not_not] at hnot
      refine Or.inr ⟨hnot.2.2, ?_⟩
      rw [hstage]
      exact hb
  | _ => exact Or.inl hb

namespace Gate

/-- Whatever a write has written, writes or has left is the content it was called with. -/
structure WritesContent (env : Env β) (g : Gate β) : Prop where
  calls : ∀ c ∈ g.calls, ∀ path content b, c.args = .write path content → c.stage.content? = some b →
    b = env.encode content
  left : ∀ k path content b, k.args = .write path content → g.session.left k = some b → b = env.encode content

theorem WritesContent.step {g g' : Gate β} {input : GateStep β} (h : g.WritesContent env)
    (hs : g.step env input = some g') : g'.WritesContent env := by
  cases input with
  | call id args =>
    obtain rfl := Option.some.inj hs
    have hnew : ∀ stage : Stage β, stage.content? = none → ∀ c : Call β, c ∈ g.calls ++ [⟨id, args, stage⟩] → ∀ path content b,
        c.args = .write path content → c.stage.content? = some b → b = env.encode content := by
      intro stage hstage c hc path content b hargs hb
      rcases List.mem_append.mp hc with hc | hc
      · exact h.calls c hc path content b hargs hb
      · rw [List.mem_singleton.mp hc, hstage] at hb
        cases hb
    simp only [Gate.call, AgentSession.fileMutationBusy]
    cases AgentSession.mutationPath env args with
    | none => exact ⟨hnew _ rfl, h.left⟩
    | some path =>
      simp only
      cases (g.session.fileMutationOwner.get? path).any (· ≠ id) with
      | true => exact ⟨hnew _ rfl, h.left⟩
      | false => exact ⟨hnew _ rfl, h.left⟩
  | on i input =>
    obtain ⟨c, hc, hs⟩ := Option.bind_eq_some_iff.mp hs
    obtain ⟨⟨s', c'⟩, hstep, rfl⟩ := Option.map_eq_some_iff.mp hs
    have hmoves := callStep_moves hstep
    have hold := h.calls c (List.mem_of_getElem? hc)
    refine ⟨fun d hd path content b hargs hb => ?_, fun k path content b hargs hb => ?_⟩
    · rcases List.mem_or_eq_of_mem_set hd with hd | rfl
      · exact h.calls d hd path content b hargs hb
      · obtain ⟨hsame, hb | hb⟩ := hmoves.content hb
        · exact hold path content b (hsame ▸ hargs) hb
        · rw [← hsame, hargs] at hb
          simp only [startTool, Option.some.injEq] at hb
          split at hb <;> cases hb
          rfl
    · rcases hmoves.left hb with hleft | ⟨hk, hcontent⟩
      · exact h.left k path content b hargs hleft
      · rw [hk] at hargs
        exact hold path content b hargs hcontent
  | prompt n =>
    obtain rfl := Option.some.inj hs
    exact ⟨h.calls, h.left⟩
  | outside files =>
    obtain rfl := Option.some.inj hs
    exact ⟨h.calls, h.left⟩
  | requestHalt =>
    obtain rfl := Option.some.inj hs
    exact ⟨h.calls, h.left⟩
  | clearHalt =>
    obtain rfl := Option.some.inj hs
    exact ⟨h.calls, h.left⟩
  | newRun =>
    obtain rfl := Option.some.inj hs
    exact ⟨h.calls, h.left⟩
  | setDryRun enabled =>
    obtain rfl := Option.some.inj hs
    exact ⟨h.calls, h.left⟩

/-- Only a tool that changes the file it names has steps of its own. -/
theorem path_of_startTool {s : AgentSession β} {args : ToolArgs} {phase : ToolPhase β}
    (h : startTool env s args = some phase) : ∃ path, args.path? = some path := by
  cases args with
  | write path content => exact ⟨path, rfl⟩
  | edit path edits => exact ⟨path, rfl⟩
  | bash command => cases h
  | other name => cases h

/-- `executed` is what the tool of a prepared call does when nothing comes in between. -/
theorem run_executed {g : Gate β} {i : ℕ} {c : Call β} {phase : ToolPhase β} (hc : g.calls[i]? = some c)
    (hstage : c.stage = .prepared) (hphase : startTool env g.session c.args = some phase) :
    ∃ (n : ℕ) (g' : Gate β), g.run env (.on i .execute :: .on i .tool :: List.replicate n (.on i .tool)) = some g' ∧
      g'.session.files = g.session.executed env c.args := by
  have hi := (List.getElem?_eq_some_iff.mp hc).1
  have hexecute : g.step env (.on i .execute) =
      some ⟨g.session, g.calls.set i { c with stage := .executing .started }⟩ := by
    simp only [Gate.step, hc, Option.bind_some, ToolGate.callStep, hstage, Option.map_some]
  have htool : (⟨g.session, g.calls.set i { c with stage := .executing .started }⟩ : Gate β).step env (.on i .tool) =
      some ⟨g.session, g.calls.set i { c with stage := .executing phase }⟩ := by
    simp only [Gate.step, List.getElem?_set_self hi, Option.bind_some, ToolGate.callStep, hphase, Option.map_some,
      List.set_set]
  have hrun : ∀ n, g.run env (.on i .execute :: .on i .tool :: List.replicate n (.on i .tool)) =
      (⟨g.session, g.calls.set i { c with stage := .executing phase }⟩ : Gate β).run env
        (List.replicate n (.on i .tool)) := by
    intro n
    rw [Gate.run, Machine.run_cons, hexecute, Option.bind_some, Machine.run_cons, htool, Option.bind_some]
  obtain ⟨path, hpath⟩ := path_of_startTool hphase
  cases phase with
  | writing content =>
    refine ⟨1, ⟨{ g.session with files := Function.update g.session.files (env.resolveToCwd path) (some content) },
      g.calls.set i { c with stage := .executing (.wrote content) }⟩, (hrun 1).trans ?_, ?_⟩
    · rw [List.replicate_one, Gate.run, Machine.run_singleton]
      simp only [Gate.step, List.getElem?_set_self hi, Option.bind_some, ToolGate.callStep, hpath, Option.map_some,
        List.set_set]
    · simp only [AgentSession.executed, hpath, hphase]
  | wrote content => exact ⟨0, _, hrun 0, by simp only [AgentSession.executed, hphase]⟩
  | started => exact ⟨0, _, hrun 0, by simp only [AgentSession.executed, hphase]⟩
  | reporting => exact ⟨0, _, hrun 0, by simp only [AgentSession.executed, hphase]⟩
  | failed => exact ⟨0, _, hrun 0, by simp only [AgentSession.executed, hphase]⟩

/-! ### Every run -/

/-- **In every run a call that is refused as completed would leave the files as they are if it is
an edit, or a write whose file still has what the remembered write left there; and where that
write was no dry run, only then.** -/
theorem run_completed (env : Env β) (files : String → Option β) (steps : List (GateStep β)) (g : Gate β)
    (args : ToolArgs) (cached : CachedResult) (hrun : (new files).run env steps = some g)
    (h : g.session.completed env args = some cached) :
    (g.session.Kept env args → g.session.executed env args = g.session.files) ∧
      ((g.session.left (g.session.idempotencyKey args)).isSome = true →
        g.session.executed env args = g.session.files → g.session.Kept env args) := by
  have hnew : (new files).WritesContent env :=
    ⟨(fun c hc => by cases hc), (fun _ _ _ _ _ hb => by cases hb)⟩
  have hwrites := Machine.inv_run (fun _ _ _ => WritesContent.step) steps hnew hrun
  cases args with
  | write path content =>
    rw [executed_write]
    constructor
    · rintro (hdry | ⟨left, hleft, hfile⟩)
      · exact Or.inl hdry
      · rw [hwrites.left _ path content left rfl hleft] at hfile
        exact Or.inr hfile
    · rintro hsome (hdry | hfile)
      · exact Or.inl hdry
      · obtain ⟨left, hleft⟩ := Option.isSome_iff_exists.mp hsome
        rw [← hwrites.left _ path content left rfl hleft] at hfile
        exact Or.inr ⟨left, hleft, hfile⟩
  | edit path edits =>
    refine ⟨fun _ => executed_of_not_needed ?_, fun _ _ => trivial⟩
    unfold AgentSession.completed at h
    split at h
    · split at h
      · cases h
      · rename_i hneeded
        simpa [ToolArgs.isEdit] using hneeded
    · cases h
  | bash command => exact ⟨fun _ => rfl, fun _ _ => trivial⟩
  | other name => exact ⟨fun _ => rfl, fun _ _ => trivial⟩

/-- A write from its hook to the end of `afterToolCall`. -/
def writeSteps (i : ℕ) (id path content : String) : List (GateStep String) :=
  [.call id (.write path content), .on i (.confirm none), .on i (.check none), .on i (.capture false),
    .on i (.resume false), .on i .execute, .on i .tool, .on i .tool,
    .on i (.settle [.text ("Successfully wrote to " ++ path)] false), .on i .afterToolCall]

/-- A write right after itself: it is refused, and the file has its content. -/
theorem run_completed_twice : ∃ g : Gate String,
    (new fun _ => none).run Env.plain (writeSteps 0 "call_1" "a.txt" "x") = some g ∧
      (g.session.completed Env.plain (.write "a.txt" "x")).isSome = true ∧
        g.session.executed Env.plain (.write "a.txt" "x") = g.session.files := by
  have hrun : ((new fun _ => none).run Env.plain (writeSteps 0 "call_1" "a.txt" "x")).map (fun g =>
      (g.session.completed Env.plain (.write "a.txt" "x"), g.session.left ⟨0, .write "a.txt" "x"⟩,
        g.session.files "a.txt", g.session.currentPromptNumber)) =
      some (some ⟨"Successfully wrote to a.txt", false⟩, some "x", some "x", 0) := by
    decide
  obtain ⟨g, hg, h⟩ := Option.map_eq_some_iff.mp hrun
  simp only [Prod.mk.injEq] at h
  obtain ⟨hcompleted, hleft, hfile, hprompt⟩ := h
  refine ⟨g, hg, by rw [hcompleted]; rfl, ?_⟩
  refine (run_completed Env.plain (fun _ => none) (writeSteps 0 "call_1" "a.txt" "x") g _ _ hg hcompleted).1 (Or.inr ?_)
  refine ⟨"x", ?_, hfile⟩
  rw [AgentSession.idempotencyKey, hprompt]
  exact hleft

/-- Two writes of one file, and the first again: it is refused, and the file has the second's content. -/
theorem run_completed_changed : ∃ (steps : List (GateStep String)) (g : Gate String),
    (new fun _ => none).run Env.plain steps = some g ∧
      (g.session.completed Env.plain (.write "a.txt" "x")).isSome = true ∧
        g.session.executed Env.plain (.write "a.txt" "x") ≠ g.session.files := by
  have hrun : ((new fun _ => none).run Env.plain
      (writeSteps 0 "call_1" "a.txt" "x" ++ writeSteps 1 "call_2" "a.txt" "y")).map (fun g =>
      ((g.session.completed Env.plain (.write "a.txt" "x")).isSome,
        g.session.executed Env.plain (.write "a.txt" "x") "a.txt", g.session.files "a.txt")) =
      some (true, some "x", some "y") := by
    decide
  obtain ⟨g, hg, h⟩ := Option.map_eq_some_iff.mp hrun
  simp only [Prod.mk.injEq] at h
  obtain ⟨hcompleted, hexecuted, hfile⟩ := h
  refine ⟨_, g, hg, hcompleted, fun heq => ?_⟩
  rw [heq, hfile] at hexecuted
  exact absurd hexecuted (by decide)

end Gate

end Trek.ToolGate
