/-
# Machines that answer

A machine whose step gives the next state and an answer. One machine refines another that
sees only some of its inputs if these take related states to related states with the same
answer, and every other input leaves the states related: then a run of the first gives the
answers that a run of the second gives to what it sees (`Mealy.refines`).
-/
import Mathlib.Data.List.Basic

namespace Trek

namespace Mealy

variable {σ τ ι κ ο : Type*}

/-- The state after a run. -/
def final (step : σ → ι → σ × ο) : σ → List ι → σ
  | s, [] => s
  | s, input :: inputs => final step (step s input).1 inputs

/-- The inputs of a run with their answers. -/
def trace (step : σ → ι → σ × ο) : σ → List ι → List (ι × ο)
  | _, [] => []
  | s, input :: inputs => (input, (step s input).2) :: trace step (step s input).1 inputs

/-- A trace as a machine sees it that sees only some of the inputs. -/
def seen (see : ι → Option κ) (answers : List (ι × ο)) : List (κ × ο) :=
  answers.filterMap fun answer => (see answer.1).map (·, answer.2)

variable {step : σ → ι → σ × ο} {step' : τ → κ → τ × ο}

/-- What the steps of a run keep is kept by the run. -/
theorem inv_final_of_mem {Inv : σ → Prop} : ∀ (inputs : List ι) {s : σ},
    (∀ s, ∀ input ∈ inputs, Inv s → Inv (step s input).1) → Inv s → Inv (final step s inputs)
  | [], _, _, h => h
  | input :: inputs, s, hstep, h =>
    inv_final_of_mem inputs (fun s i hi => hstep s i (List.mem_cons_of_mem _ hi)) (hstep s input List.mem_cons_self h)

/-- A machine refines one that sees some of its inputs. -/
theorem refines {see : ι → Option κ} {R : σ → τ → Prop}
    (hsee : ∀ s t input input', R s t → see input = some input' →
      R (step s input).1 (step' t input').1 ∧ (step s input).2 = (step' t input').2)
    (hskip : ∀ s t input, R s t → see input = none → R (step s input).1 t) :
    ∀ (inputs : List ι) {s : σ} {t : τ}, R s t →
      R (final step s inputs) (final step' t (inputs.filterMap see)) ∧
      seen see (trace step s inputs) = trace step' t (inputs.filterMap see)
  | [], _, _, h => ⟨h, rfl⟩
  | input :: inputs, s, t, h => by
    cases hi : see input with
    | none =>
      have ih := refines hsee hskip inputs (hskip s t input h hi)
      rw [List.filterMap_cons_none hi]
      refine ⟨ih.1, Eq.trans ?_ ih.2⟩
      rw [trace, seen, List.filterMap_cons_none (by rw [hi]; rfl)]
      rfl
    | some input' =>
      have hstep := hsee s t input input' h hi
      have ih := refines hsee hskip inputs hstep.1
      rw [List.filterMap_cons_some hi, trace, seen, List.filterMap_cons_some (by rw [hi]; rfl), trace, hstep.2]
      exact ⟨ih.1, congrArg _ ih.2⟩

end Mealy

end Trek
