/-
# Marks that are kept apart

In a list of events some are marks and some separate. The marks are kept apart if between any
two of them an event separates, and the list is open to a mark if one has come since the last.
Then a run can add a mark only where the list is open to it. Events are justified if each of
them is by those before it.
-/
import Mathlib.Data.List.Basic

namespace Trek

variable {α : Type*}

/-- Between any two marks an event separates. -/
def KeptApart (mark sep : α → Prop) (events : List α) : Prop :=
  ∀ before x between y after, events = before ++ x :: (between ++ y :: after) → mark x → mark y →
    ∃ e ∈ between, sep e

/-- Since any mark an event separates. -/
def OpenTo (mark sep : α → Prop) (events : List α) : Prop :=
  ∀ before x after, events = before ++ x :: after → mark x → ∃ e ∈ after, sep e

variable {mark sep : α → Prop} {events : List α} {e : α}

theorem keptApart_nil : KeptApart mark sep [] := fun before x between y after h => by simp at h

theorem openTo_nil : OpenTo mark sep [] := fun before x after h => by simp at h

/-- The last event of a list with one event more. -/
theorem append_cons_eq_concat {before after : List α} {x : α} (h : events ++ [e] = before ++ x :: after) :
    (after = [] ∧ x = e ∧ before = events) ∨ ∃ after', after = after' ++ [e] ∧ events = before ++ x :: after' := by
  rcases List.eq_nil_or_concat after with rfl | ⟨after', e', rfl⟩
  · obtain ⟨rfl, he⟩ := List.append_inj' h rfl
    exact Or.inl ⟨rfl, (List.singleton_inj.mp he).symm, rfl⟩
  · rw [List.concat_eq_append] at h ⊢
    rw [← List.cons_append, ← List.append_assoc] at h
    obtain ⟨rfl, he⟩ := List.append_inj' h rfl
    rw [List.singleton_inj.mp he]
    exact Or.inr ⟨after', rfl, rfl⟩

/-- An event that separates opens the list. -/
theorem openTo_concat_of_sep (he : sep e) (hmark : ¬ mark e) : OpenTo mark sep (events ++ [e]) := by
  intro before x after h hx
  rcases append_cons_eq_concat h with ⟨-, rfl, -⟩ | ⟨after', rfl, -⟩
  · exact absurd hx hmark
  · exact ⟨e, List.mem_append_right _ (List.mem_singleton_self e), he⟩

/-- An open list stays open with an event that is no mark. -/
theorem OpenTo.concat (h : OpenTo mark sep events) (hmark : ¬ mark e) : OpenTo mark sep (events ++ [e]) := by
  intro before x after heq hx
  rcases append_cons_eq_concat heq with ⟨-, rfl, -⟩ | ⟨after', rfl, heq'⟩
  · exact absurd hx hmark
  · obtain ⟨e', he', hsep⟩ := h before x after' heq' hx
    exact ⟨e', List.mem_append_left _ he', hsep⟩

/-- A mark may come where the list is open, any other event always. -/
theorem KeptApart.concat (h : KeptApart mark sep events) (hopen : mark e → OpenTo mark sep events) :
    KeptApart mark sep (events ++ [e]) := by
  intro before x between y after heq hx hy
  have heq' : events ++ [e] = (before ++ x :: between) ++ y :: after := by
    rw [heq, List.append_assoc, List.cons_append]
  rcases append_cons_eq_concat heq' with ⟨-, rfl, hbefore⟩ | ⟨after', -, hevents⟩
  · exact hopen hy before x between hbefore.symm hx
  · refine h before x between y after' ?_ hx hy
    rw [hevents, List.append_assoc, List.cons_append]

/-- Each event is justified by the events before it. -/
def Justified (P : List α → α → Prop) (events : List α) : Prop :=
  ∀ before e after, events = before ++ e :: after → P before e

theorem justified_nil {P : List α → α → Prop} : Justified P [] := fun before e after h => by simp at h

theorem Justified.concat {P : List α → α → Prop} (h : Justified P events) (he : P events e) : Justified P (events ++ [e]) := by
  intro before x after heq
  rcases append_cons_eq_concat heq with ⟨-, rfl, rfl⟩ | ⟨after', -, hevents⟩
  · exact he
  · exact h before x after' hevents

end Trek
