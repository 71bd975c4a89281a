/-
# Undo stacks

The versions of something that can be taken back: those before the current one, the
current one, and those that were taken back and not replaced since. A program keeps such a
stack as the list of all versions and the position of the current one; `versions` and
`position` are the two, and each operation says what it makes of them.
-/
import Mathlib.Data.List.Basic

namespace Trek

variable {α : Type*}

/-- The versions before the current one, the last of them first, and those after it. -/
structure UndoStack (α : Type*) where
  past : List α
  current : α
  redo : List α

namespace UndoStack

/-- All versions, the oldest first. -/
def versions (s : UndoStack α) : List α := s.past.reverse ++ s.current :: s.redo

/-- Where the current version is among all of them. -/
def position (s : UndoStack α) : ℕ := s.past.length

/-- A new version after the current one: what was taken back is dropped. -/
def save (s : UndoStack α) (x : α) : UndoStack α := ⟨s.current :: s.past, x, []⟩

/-- Back to the version before the current one. -/
def restore? (s : UndoStack α) : Option (UndoStack α) :=
  match s.past with
  | [] => none
  | x :: past => some ⟨past, x, s.current :: s.redo⟩

/-- What was saved last is taken back. -/
theorem restore?_save (s : UndoStack α) (x : α) : (s.save x).restore? = some { s with redo := [x] } := rfl

theorem length_versions (s : UndoStack α) : s.position < s.versions.length := by
  simp [versions, position]

theorem getElem?_position (s : UndoStack α) : s.versions[s.position]? = some s.current := by
  simp [versions, position]

theorem take_versions (s : UndoStack α) : s.versions.take (s.position + 1) = s.past.reverse ++ [s.current] := by
  rw [versions, position, List.take_append, List.take_of_length_le (by simp)]
  simp

theorem versions_save (s : UndoStack α) (x : α) : (s.save x).versions = s.versions.take (s.position + 1) ++ [x] := by
  rw [take_versions, versions, save, List.reverse_cons]

theorem position_save (s : UndoStack α) (x : α) : (s.save x).position = s.position + 1 := rfl

theorem exists_restore? {s : UndoStack α} (h : 0 < s.position) : ∃ s', s.restore? = some s' := by
  obtain ⟨past, current, redo⟩ := s
  cases past with
  | nil => exact absurd h (Nat.lt_irrefl 0)
  | cons x past => exact ⟨_, rfl⟩

theorem versions_restore? {s s' : UndoStack α} (h : s.restore? = some s') : s'.versions = s.versions := by
  obtain ⟨past, current, redo⟩ := s
  cases past with
  | nil => cases h
  | cons x past =>
    obtain rfl := Option.some.inj h
    simp [versions]

theorem position_restore? {s s' : UndoStack α} (h : s.restore? = some s') : s.position = s'.position + 1 := by
  obtain ⟨past, current, redo⟩ := s
  cases past with
  | nil => cases h
  | cons x past =>
    obtain rfl := Option.some.inj h
    rfl

end UndoStack

end Trek
