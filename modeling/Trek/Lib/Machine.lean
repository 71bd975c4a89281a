/-
# Runs of a machine

A machine is a step function on its states that says `none` where a step cannot be
taken. A run takes the steps of a list one after the other. What each step keeps a run
keeps (`Machine.inv_run`), also where the steps keep it only under a condition on the
state before them that all steps of the run meet (`Machine.inv_throughout`).
-/
import Mathlib.Data.List.Basic

namespace Trek

variable {σ ι : Type*}

namespace Machine

/-- A run from a state: `none` where one of its steps cannot be taken. -/
def run (step : σ → ι → Option σ) : σ → List ι → Option σ
  | s, [] => some s
  | s, input :: inputs => (step s input).bind (run step · inputs)

/-- Every step of a run meets a condition on the state before it. -/
def Throughout (step : σ → ι → Option σ) (P : σ → ι → Prop) : σ → List ι → Prop
  | _, [] => True
  | s, input :: inputs => P s input ∧ ∀ s', step s input = some s' → Throughout step P s' inputs

variable {step : σ → ι → Option σ}

/-- A condition that can be decided can be along a run. -/
instance decidableThroughout {P : σ → ι → Prop} [∀ s input, Decidable (P s input)] :
    ∀ (s : σ) (inputs : List ι), Decidable (Throughout step P s inputs)
  | _, [] => isTrue trivial
  | s, input :: inputs =>
    match h : step s input with
    | none => decidable_of_iff (P s input) ⟨fun hP => ⟨hP, fun s' hs' => by simp [h] at hs'⟩, And.left⟩
    | some t =>
      let _ : Decidable (Throughout step P t inputs) := decidableThroughout t inputs
      decidable_of_iff (P s input ∧ Throughout step P t inputs)
        ⟨fun hP => ⟨hP.1, fun s' hs' => by simpa [← Option.some.inj (h.symm.trans hs')] using hP.2⟩,
          fun hP => ⟨hP.1, hP.2 t h⟩⟩

theorem run_cons (s : σ) (input : ι) (inputs : List ι) :
    run step s (input :: inputs) = (step s input).bind (run step · inputs) := rfl

theorem run_cons_eq_some {s s' : σ} {input : ι} {inputs : List ι} :
    run step s (input :: inputs) = some s' ↔ ∃ t, step s input = some t ∧ run step t inputs = some s' :=
  Option.bind_eq_some_iff

theorem run_append (inputs' : List ι) : ∀ (inputs : List ι) (s : σ),
    run step s (inputs ++ inputs') = (run step s inputs).bind (run step · inputs')
  | [], _ => rfl
  | input :: inputs, s => by
    rw [List.cons_append, run_cons, run_cons, Option.bind_assoc]
    exact congrArg _ (funext fun t => run_append inputs' inputs t)

theorem run_append_eq_some {s s' : σ} {inputs inputs' : List ι} :
    run step s (inputs ++ inputs') = some s' ↔ ∃ t, run step s inputs = some t ∧ run step t inputs' = some s' := by
  rw [run_append]
  exact Option.bind_eq_some_iff

theorem run_singleton (s : σ) (input : ι) : run step s [input] = step s input := by
  rw [run_cons]
  exact Option.bind_fun_some _

theorem throughout_cons {P : σ → ι → Prop} {s t : σ} {input : ι} {inputs : List ι} (hP : P s input)
    (ht : step s input = some t) (h : Throughout step P t inputs) : Throughout step P s (input :: inputs) := by
  refine ⟨hP, fun s' hs' => ?_⟩
  rw [ht] at hs'
  rwa [← Option.some.inj hs']

/-- What every step that meets the condition keeps is kept by a run of such steps. -/
theorem inv_throughout {P : σ → ι → Prop} {Inv : σ → Prop}
    (hstep : ∀ s input s', Inv s → P s input → step s input = some s' → Inv s') :
    ∀ (inputs : List ι) {s s' : σ}, Inv s → Throughout step P s inputs → run step s inputs = some s' → Inv s'
  | [], _, _, h, _, hs => by
    obtain rfl := Option.some.inj hs
    exact h
  | input :: inputs, _, _, h, hP, hs => by
    obtain ⟨t, ht, hs⟩ := run_cons_eq_some.mp hs
    exact inv_throughout hstep inputs (hstep _ _ _ h hP.1 ht) (hP.2 t ht) hs

/-- What every step keeps is kept by a run. -/
theorem inv_run {Inv : σ → Prop} (hstep : ∀ s input s', Inv s → step s input = some s' → Inv s') :
    ∀ (inputs : List ι) {s s' : σ}, Inv s → run step s inputs = some s' → Inv s'
  | [], _, _, h, hs => by
    obtain rfl := Option.some.inj hs
    exact h
  | input :: inputs, _, _, h, hs => by
    obtain ⟨t, ht, hs⟩ := run_cons_eq_some.mp hs
    exact inv_run hstep inputs (hstep _ _ _ h ht) hs

/-- A condition that every step of two runs one after the other meets. -/
theorem throughout_append {P : σ → ι → Prop} (inputs' : List ι) : ∀ (inputs : List ι) {s : σ},
    Throughout step P s (inputs ++ inputs') ↔
      Throughout step P s inputs ∧ ∀ t, run step s inputs = some t → Throughout step P t inputs'
  | [], s => by
    refine ⟨fun h => ⟨trivial, fun t ht => ?_⟩, fun h => h.2 s rfl⟩
    obtain rfl := Option.some.inj ht
    exact h
  | input :: inputs, s => by
    constructor
    · rintro ⟨hP, h⟩
      refine ⟨⟨hP, fun s' hs' => ((throughout_append inputs' inputs).mp (h s' hs')).1⟩, fun t ht => ?_⟩
      obtain ⟨s', hs', ht⟩ := run_cons_eq_some.mp ht
      exact ((throughout_append inputs' inputs).mp (h s' hs')).2 t ht
    · rintro ⟨⟨hP, h⟩, h'⟩
      refine ⟨hP, fun s' hs' => (throughout_append inputs' inputs).mpr ⟨h s' hs', fun t ht => h' t ?_⟩⟩
      exact run_cons_eq_some.mpr ⟨s', hs', ht⟩

/-- A machine that leaves a trace, and a monitor that reads it. If the monitor goes on through what a step adds to the trace
exactly where the step meets a condition, it accepts the trace of a run exactly if all steps of the run meet it. -/
theorem accepts_iff_throughout {ε μ : Type*} {trace : σ → List ε} {next : μ → ε → Option μ} {P : σ → ι → Prop}
    {Inv : σ → μ → Prop} {start : μ} (hgrow : ∀ s input s', step s input = some s' → ∃ new, trace s' = trace s ++ new)
    (hstep : ∀ s input s' m, Inv s m → step s input = some s' → ∃ new, trace s' = trace s ++ new ∧
      ((P s input ∧ ∃ m', run next m new = some m' ∧ Inv s' m') ∨ (¬P s input ∧ run next m new = none))) :
    ∀ (inputs : List ι) {s s' : σ} {m : μ}, Inv s m → run next start (trace s) = some m → run step s inputs = some s' →
      ((run next start (trace s')).isSome = true ↔ Throughout step P s inputs)
  | [], s, s', m, _, hm, hs => by
    obtain rfl := Option.some.inj hs
    rw [hm]
    exact iff_of_true rfl trivial
  | input :: inputs, s, s', m, h, hm, hs => by
    obtain ⟨t, ht, hs⟩ := run_cons_eq_some.mp hs
    obtain ⟨new, hnew, ⟨hP, m', hm', h'⟩ | ⟨hP, hnone⟩⟩ := hstep s input t m h ht
    · have haccept : run next start (trace t) = some m' := by rw [hnew, run_append, hm, Option.bind_some, hm']
      rw [accepts_iff_throughout hgrow hstep inputs h' haccept hs]
      refine ⟨fun hrest => ⟨hP, fun t' ht' => ?_⟩, fun hall => hall.2 t ht⟩
      rw [ht] at ht'
      rwa [← Option.some.inj ht']
    · -- the monitor has stopped, and what the rest of the run adds does not start it again
      have hinv : ∀ u input u', (∃ more, trace u = trace t ++ more) → step u input = some u' →
          ∃ more, trace u' = trace t ++ more := by
        rintro u input u' ⟨more, hmore⟩ hu
        obtain ⟨new, hnew⟩ := hgrow u input u' hu
        exact ⟨more ++ new, by rw [hnew, hmore, List.append_assoc]⟩
      have hgrown := inv_run hinv inputs ⟨[], (List.append_nil _).symm⟩ hs
      obtain ⟨more, hmore⟩ := hgrown
      have hstopped : run next start (trace s') = none := by
        rw [hmore, hnew, run_append, run_append, hm, Option.bind_some, hnone, Option.bind_none]
      rw [hstopped]
      exact iff_of_false (fun hc => by cases hc) fun hall => hP hall.1

end Machine

end Trek
