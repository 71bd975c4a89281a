/-
# HALT

`requestHalt` puts a flag up that `_checkToolSafety` reads. A call that is to be checked
after that is refused. A call that was checked before goes on: its checkpoint, the
extensions and, in a parallel batch, the other calls come between its check and the start
of its tool, and nothing reads the flag again there.
-/
import Trek.Gate.Calls

namespace Trek.ToolGate

variable {β : Type} {env : Env β}

/-- The flag was down when the call was checked, and its tool has not started. -/
def Stage.cleared : Stage β → Bool
  | .checking halted => !halted
  | .capturing | .asking | .prepared => true
  | .answered result => !result.any (·.block)
  | _ => false

/-- A step that lets tools start again. -/
def GateStep.resumes : GateStep β → Bool
  | .clearHalt | .prompt _ => true
  | _ => false

/-! ### One step -/

/-- No step of a call changes the flag. -/
theorem Moves.halted_eq {s s' : AgentSession β} {c c' : Call β} {input : CallStep} (h : Moves env s c input s' c') :
    s'.halted = s.halted := by
  have hlookup : ∀ {found : AgentSession.Lookup} {s₁ : AgentSession β},
      s.lookupIdempotent c.args = (found, s₁) → s₁.halted = s.halted := by
    intro found s₁ h₁
    rcases s.lookup_cases c.args with ⟨h, -⟩ | ⟨_, h, -⟩ | ⟨h, -⟩ | ⟨h, -⟩ <;> rw [h] at h₁ <;> cases h₁ <;> rfl
  cases h with
  | admitted _ h₁ _ => exact hlookup h₁
  | reverted _ h₁ _ _ => exact (AgentSession.releaseFileMutation_halted _ _).trans (hlookup h₁)
  | finished _ =>
    obtain ⟨_, _, hfinish⟩ := finish_eq env s c _ _ _
    rw [hfinish]
    exact (AgentSession.rememberIdempotent_frame _ _ _ _ _).1
  | _ => rfl

/-- While the flag is up no step of a call clears it. -/
theorem Moves.not_cleared {s s' : AgentSession β} {c c' : Call β} {input : CallStep} (h : Moves env s c input s' c')
    (hs : s.halted = true) (hc : c.stage.cleared = false) : c'.stage.cleared = false := by
  have hblock : ∀ {b : BeforeToolCallResult}, b.block = true → (Stage.answered (some b) : Stage β).cleared = false := by
    intro b hb
    simp [Stage.cleared, hb]
  cases h with
  | refused _ _ hb => exact hblock hb
  | confirmed => simp [Stage.cleared, hs]
  | reverted _ _ _ hb => exact hblock hb
  | neededReverted _ hb => exact hblock hb
  | admitted hstage => rw [hstage] at hc; cases hc
  | needed hstage => rw [hstage] at hc; cases hc
  | captured hstage => rw [hstage] at hc; cases hc
  | passed hstage => rw [hstage] at hc; cases hc
  | extensionBlocked hstage => rw [hstage] at hc; cases hc
  | prepared hstage hresult =>
    rw [hstage, Stage.cleared, hresult] at hc
    cases hc
  | _ => rfl

namespace Gate

/-- No tool starts after a `requestHalt` before the flag is taken down or a prompt is numbered. -/
def HaltStops (steps : List (GateStep β)) : Prop :=
  ∀ (before between after : List (GateStep β)) (i : ℕ),
    steps = before ++ .requestHalt :: (between ++ .on i .execute :: after) → between.any (·.resumes) = true

/-- Where HALT is requested no call is on the way from its check to the start of its tool. -/
def HaltsAtRest (g : Gate β) : GateStep β → Prop
  | .requestHalt => ∀ c ∈ g.calls, c.stage.cleared = false
  | _ => True

/-- The flag is up, and no call has passed it. -/
structure Halted (g : Gate β) : Prop where
  halted : g.session.halted = true
  calls : ∀ c ∈ g.calls, c.stage.cleared = false

/-- HALT lasts until a step resumes. -/
theorem Halted.step {g g' : Gate β} {input : GateStep β} (h : g.Halted) (hr : input.resumes = false)
    (hs : g.step env input = some g') : g'.Halted := by
  cases input with
  | call id args =>
    obtain rfl := Option.some.inj hs
    have hbusy : (g.session.fileMutationBusy env id args).2.halted = g.session.halted := by
      unfold AgentSession.fileMutationBusy
      split
      · rfl
      · split <;> rfl
    unfold Gate.call
    split <;> rename_i s hs <;> rw [hs] at hbusy <;> refine ⟨hbusy.trans h.halted, fun c hc => ?_⟩
    all_goals
      rcases List.mem_append.mp hc with hc | hc
      · exact h.calls c hc
      · rw [List.mem_singleton.mp hc]
        rfl
  | on i input =>
    obtain ⟨c, hc, hs⟩ := Option.bind_eq_some_iff.mp hs
    obtain ⟨⟨s', c'⟩, hstep, rfl⟩ := Option.map_eq_some_iff.mp hs
    have hmoves := callStep_moves hstep
    refine ⟨hmoves.halted_eq.trans h.halted, fun d hd => ?_⟩
    rcases List.mem_or_eq_of_mem_set hd with hd | rfl
    · exact h.calls d hd
    · exact hmoves.not_cleared h.halted (h.calls c (List.mem_of_getElem? hc))
  | requestHalt =>
    obtain rfl := Option.some.inj hs
    exact ⟨rfl, h.calls⟩
  | clearHalt => cases hr
  | prompt n => cases hr
  | outside files =>
    obtain rfl := Option.some.inj hs
    exact ⟨h.halted, h.calls⟩
  | newRun =>
    obtain rfl := Option.some.inj hs
    exact ⟨h.halted, h.calls⟩
  | setDryRun enabled =>
    obtain rfl := Option.some.inj hs
    exact ⟨h.halted, h.calls⟩

/-- A halted session starts no tool. -/
theorem Halted.not_execute {g : Gate β} (h : g.Halted) (i : ℕ) : g.step env (.on i .execute) = none := by
  rw [Option.eq_none_iff_forall_not_mem]
  intro g' hs
  obtain ⟨c, hc, hs⟩ := Option.bind_eq_some_iff.mp hs
  obtain ⟨⟨s', c'⟩, hstep, -⟩ := Option.map_eq_some_iff.mp hs
  have hcleared := h.calls c (List.mem_of_getElem? hc)
  cases callStep_moves hstep with
  | refused hinput => exact hinput rfl
  | executed hstage =>
    rw [hstage] at hcleared
    cases hcleared

/-- While no step resumes, HALT lasts for a whole run. -/
theorem Halted.run : ∀ (steps : List (GateStep β)) {g g' : Gate β}, g.Halted → steps.any (·.resumes) = false →
    g.run env steps = some g' → g'.Halted
  | [], _, _, h, _, hs => by
    obtain rfl := Option.some.inj hs
    exact h
  | input :: steps, _, _, h, hr, hs => by
    rw [List.any_cons, Bool.or_eq_false_iff] at hr
    obtain ⟨g₁, h₁, hs⟩ := Machine.run_cons_eq_some.mp hs
    exact Halted.run steps (h.step hr.1 h₁) hr.2 hs

/-! ### Every run -/

/-- **HALT stops tools in every run, in any order of the calls' steps, in which it is requested
while no call is between its check and its start.** -/
theorem run_haltStops (env : Env β) (files : String → Option β) (steps : List (GateStep β)) (g : Gate β)
    (hrun : (new files).run env steps = some g) (hrest : Machine.Throughout (step env) HaltsAtRest (new files) steps) :
    HaltStops steps := by
  rintro before between after i rfl
  obtain ⟨g₁, h₁, hrun⟩ := Machine.run_append_eq_some.mp hrun
  obtain ⟨g₂, h₂, hrun⟩ := Machine.run_cons_eq_some.mp hrun
  obtain ⟨g₃, h₃, hrun⟩ := Machine.run_append_eq_some.mp hrun
  obtain ⟨g₄, h₄, -⟩ := Machine.run_cons_eq_some.mp hrun
  have hclear := (((Machine.throughout_append _ _).mp hrest).2 g₁ h₁).1
  have hhalted : g₂.Halted := by
    obtain rfl := Option.some.inj h₂
    exact ⟨rfl, hclear⟩
  by_contra hresumes
  rw [(hhalted.run between (Bool.eq_false_iff.mpr hresumes) h₃).not_execute i] at h₄
  cases h₄

/-- HALT while the operator is asked, and taken back before the call goes on. -/
theorem run_haltStops_cleared :
    HaltStops (β := String)
      [.call "call_1" (.bash "make"), .requestHalt, .clearHalt, .on 0 (.confirm none), .on 0 (.check none),
        .on 0 (.capture false), .on 0 (.resume false), .on 0 .execute] := by
  refine run_haltStops Env.plain (fun _ => none) _ _ rfl ?_
  refine Machine.throughout_cons trivial rfl (Machine.throughout_cons ?_ rfl (Machine.throughout_cons trivial rfl
    (Machine.throughout_cons trivial rfl (Machine.throughout_cons trivial rfl (Machine.throughout_cons trivial rfl
      (Machine.throughout_cons trivial rfl (Machine.throughout_cons trivial rfl trivial)))))))
  intro c hc
  rw [List.mem_singleton.mp hc]
  rfl

/-- A batch of two calls in parallel: HALT comes while the second is prepared, and the first starts. -/
theorem run_not_haltStops :
    ∃ (steps : List (GateStep String)) (g : Gate String),
      (new fun _ => none).run Env.plain steps = some g ∧ ¬ HaltStops steps := by
  refine ⟨[.call "call_1" (.bash "make"), .on 0 (.confirm none), .on 0 (.check none), .on 0 (.capture false),
    .on 0 (.resume false), .call "call_2" (.bash "make test"), .on 1 (.confirm none), .requestHalt,
    .on 1 (.check none), .on 1 (.capture false), .on 1 (.resume false), .on 0 .execute], _, rfl, ?_⟩
  intro h
  have := h [.call "call_1" (.bash "make"), .on 0 (.confirm none), .on 0 (.check none), .on 0 (.capture false),
    .on 0 (.resume false), .call "call_2" (.bash "make test"), .on 1 (.confirm none)]
    [.on 1 (.check none), .on 1 (.capture false), .on 1 (.resume false)] [] 0 rfl
  cases this

end Gate

end Trek.ToolGate
