/-
# The cursor as a place in the text

Where the state of the editor is well formed, the cursor is a place in its text: `At` says which text
stands before it and which after it. Every operation is then one on these two texts: insertion puts its
text behind the first one, a kill or a deletion takes the end of the first or the start of the second
one, and a move only cuts the whole text somewhere else.
-/
import Trek.Editor.Kill

namespace Trek.Editor

open Trek.Tui

/-- The text before the cursor, and the text after it. -/
def EditorState.At (s : EditorState) (before after : List ℕ) : Prop :=
  ∃ pre l₁ l₂ post, before.splitOn NEWLINE = pre ++ [l₁] ∧ after.splitOn NEWLINE = l₂ :: post ∧
    s = ⟨pre ++ (l₁ ++ l₂) :: post, pre.length, l₁.length⟩

/-- The state of the editor is well formed. -/
structure EditorState.WellFormed (s : EditorState) : Prop where
  lines : s.lines ≠ []
  newline : ∀ line ∈ s.lines, NEWLINE ∉ line
  cursorLine : s.cursorLine < s.lines.length
  cursorCol : 0 ≤ s.cursorCol ∧ s.cursorCol ≤ s.currentLine.length

variable {u : Unicode} {e : Editor} {s : EditorState} {before after text : List ℕ}

/-! ### Slices at the cursor -/

theorem sliceTo_natCast (text : List ℕ) (k : ℕ) : sliceTo text k = text.take k := by
  have hindex : sliceIndex text.length k = min k text.length := if_neg (by omega)
  rw [sliceTo, hindex]
  rcases Nat.le_total k text.length with h | h
  · rw [Nat.min_eq_left h]
  · rw [Nat.min_eq_right h, List.take_length, List.take_of_length_le h]

theorem sliceFrom_natCast (text : List ℕ) (k : ℕ) : sliceFrom text k = text.drop k := by
  have hindex : sliceIndex text.length k = min k text.length := if_neg (by omega)
  rw [sliceFrom, hindex]
  rcases Nat.le_total k text.length with h | h
  · rw [Nat.min_eq_left h]
  · rw [Nat.min_eq_right h, List.drop_length, List.drop_of_length_le h]

@[simp] theorem sliceTo_append (l₁ l₂ : List ℕ) : sliceTo (l₁ ++ l₂) l₁.length = l₁ := by rw [sliceTo_natCast, List.take_left]

@[simp] theorem sliceFrom_append (l₁ l₂ : List ℕ) : sliceFrom (l₁ ++ l₂) l₁.length = l₂ := by
  rw [sliceFrom_natCast, List.drop_left]

/-! ### Fields -/

@[simp] theorem state_setCursorCol (e : Editor) (col : ℤ) : (e.setCursorCol col).state = { e.state with cursorCol := col } := rfl

@[simp] theorem state_setLines (e : Editor) (lines : List (List ℕ)) : (e.setLines lines).state = { e.state with lines := lines } := rfl

@[simp] theorem state_setLine (e : Editor) (line : List ℕ) :
    (e.setLine line).state = { e.state with lines := e.state.lines.set e.state.cursorLine line } := rfl

@[simp] theorem state_setCursorLine (e : Editor) (row : ℕ) :
    (e.setCursorLine row).state = { e.state with cursorLine := row } := rfl

@[simp] theorem state_pushUndoSnapshot (e : Editor) : e.pushUndoSnapshot.state = e.state := rfl

@[simp] theorem state_setLastAction (e : Editor) (action : Option LastAction) : (e.setLastAction action).state = e.state := rfl

@[simp] theorem state_exitHistory (e : Editor) : e.exitHistory.state = e.state := rfl

namespace EditorState

@[simp] theorem lineAt_length (pre post : List (List ℕ)) (line : List ℕ) (row : ℕ) (col : ℤ) :
    (⟨pre ++ line :: post, row, col⟩ : EditorState).lineAt pre.length = line := by
  simp [lineAt]

@[simp] theorem currentLine_length (pre post : List (List ℕ)) (line : List ℕ) (col : ℤ) :
    (⟨pre ++ line :: post, pre.length, col⟩ : EditorState).currentLine = line :=
  lineAt_length pre post line pre.length col

@[simp] theorem set_length (pre post : List (List ℕ)) (line line' : List ℕ) :
    (pre ++ line :: post).set pre.length line' = pre ++ line' :: post := by
  simp

end EditorState

/-- The line of the cursor is replaced. -/
theorem state_setLine_eq {pre post : List (List ℕ)} {line : List ℕ} {col : ℤ} (hs : e.state = ⟨pre ++ line :: post, pre.length, col⟩)
    (line' : List ℕ) : (e.setLine line').state = ⟨pre ++ line' :: post, pre.length, col⟩ := by
  rw [state_setLine, hs, EditorState.set_length]

namespace EditorState

/-! ### Places -/

/-- A place from the lines around it. -/
theorem at_mk {pre post : List (List ℕ)} {l₁ l₂ line : List ℕ} {row : ℕ} {col : ℤ}
    (hbefore : before.splitOn NEWLINE = pre ++ [l₁]) (hafter : after.splitOn NEWLINE = l₂ :: post)
    (hline : line = l₁ ++ l₂) (hrow : row = pre.length) (hcol : col = l₁.length) :
    (⟨pre ++ line :: post, row, col⟩ : EditorState).At before after := by
  subst hline hrow hcol
  exact ⟨pre, l₁, l₂, post, hbefore, hafter, rfl⟩

theorem at_of_eq {pre post : List (List ℕ)} {l₁ l₂ : List ℕ} (hbefore : before.splitOn NEWLINE = pre ++ [l₁])
    (hafter : after.splitOn NEWLINE = l₂ :: post) (hlines : s.lines = pre ++ (l₁ ++ l₂) :: post)
    (hrow : s.cursorLine = pre.length) (hcol : s.cursorCol = l₁.length) : s.At before after := by
  obtain ⟨lines, row, col⟩ := s
  obtain rfl : lines = _ := hlines
  exact at_mk hbefore hafter rfl hrow hcol

theorem at_iff : s.At before after ↔
    ∃ col : ℕ, s.cursorCol = col ∧ LinesAt NEWLINE s.lines s.cursorLine col before after := by
  constructor
  · rintro ⟨pre, l₁, l₂, post, hbefore, hafter, rfl⟩
    exact ⟨l₁.length, rfl, pre, l₁, l₂, post, hbefore, hafter, rfl, rfl, rfl⟩
  · rintro ⟨n, hcol, pre, l₁, l₂, post, hbefore, hafter, hlines, hrow, rfl⟩
    exact at_of_eq hbefore hafter hlines hrow hcol

theorem At.unique {s' : EditorState} (h : s.At before after) (h' : s'.At before after) : s = s' := by
  obtain ⟨col, hcol, h⟩ := at_iff.mp h
  obtain ⟨col', hcol', h'⟩ := at_iff.mp h'
  obtain ⟨hlines, hrow, rfl⟩ := h.unique h'
  obtain ⟨lines, row, col⟩ := s
  obtain ⟨lines', row', col'⟩ := s'
  obtain rfl : lines = lines' := hlines
  obtain rfl : row = row' := hrow
  obtain rfl : col = col' := hcol.trans hcol'.symm
  rfl

/-- The text of the editor stands before the cursor and after it. -/
theorem At.getText (h : e.state.At before after) : e.getText = before ++ after := by
  obtain ⟨col, -, hlines⟩ := at_iff.mp h
  exact hlines.append_eq.symm

theorem At.wellFormed (h : s.At before after) : s.WellFormed := by
  obtain ⟨col, hcol, hlines⟩ := at_iff.mp h
  have hcurrent : col ≤ s.currentLine.length := hlines.col_le
  refine ⟨List.ne_nil_of_length_pos (Nat.zero_lt_of_lt hlines.row_lt), hlines.notMem, hlines.row_lt, ?_⟩
  omega

/-- A well-formed state is a place in a text. -/
theorem WellFormed.exists_at (h : s.WellFormed) : ∃ before after, s.At before after := by
  have hrow := h.cursorLine
  have hline : s.currentLine = s.lines[s.cursorLine] := List.getD_eq_getElem _ _ hrow
  have hcol : s.cursorCol.toNat ≤ s.lines[s.cursorLine].length := by
    have := h.cursorCol
    rw [hline] at this
    omega
  obtain ⟨before, after, hlines⟩ := exists_linesAt h.newline hrow hcol
  exact ⟨before, after, at_iff.mpr ⟨s.cursorCol.toNat, (Int.toNat_of_nonneg h.cursorCol.1).symm, hlines⟩⟩

end EditorState

end Trek.Editor
