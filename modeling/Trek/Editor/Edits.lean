/-
# Editing at the cursor

What the operations of the editor do to the text before the cursor and to the text after it.
-/
import Trek.Editor.Places

namespace Trek.Editor

open Trek.Tui

variable {e : Editor} {s : EditorState} {before after text : List ℕ}

/-! ### Lines -/

theorem splice_append {α : Type*} (pre mid post items : List α) :
    splice (pre ++ (mid ++ post)) pre.length mid.length items = pre ++ (items ++ post) := by
  have hdrop : (pre ++ (mid ++ post)).drop (pre.length + mid.length) = post := by
    rw [← List.append_assoc, ← List.length_append, List.drop_left]
  rw [splice, List.take_left, hdrop]

/-- A line is put behind another one. -/
theorem splice_insert (pre post : List (List ℕ)) (l line : List ℕ) :
    splice (pre ++ l :: post) (pre.length + 1) 0 [line] = pre ++ l :: line :: post := by
  have hsplice := splice_append (pre ++ [l]) [] post [line]
  rw [List.length_append, List.append_assoc] at hsplice
  exact hsplice.trans (List.append_assoc _ _ _)

/-- Two lines become one. -/
theorem splice_merge (pre post : List (List ℕ)) (p l line : List ℕ) :
    splice ((pre ++ p :: l :: post).set pre.length line) (pre.length + 1) 1 [] = pre ++ line :: post := by
  have hsplice := splice_append (pre ++ [line]) [l] post []
  rw [List.length_append, List.append_assoc] at hsplice
  rw [EditorState.set_length]
  exact hsplice.trans (List.append_assoc _ _ _)

@[simp] theorem getLastD_concat_cons {α : Type*} (first last d : α) (mid : List α) :
    (first :: (mid ++ [last])).getLastD d = last := by
  rw [← List.cons_append, List.getLastD_concat]

/-! ### Insertion -/

theorem setTextInternal_at (e : Editor) (text : List ℕ) : (e.setTextInternal text).state.At text [] := by
  obtain ⟨pre, l, hsplit⟩ := List.eq_nil_or_concat' (text.splitOn NEWLINE) |>.resolve_left (List.splitOn_ne_nil NEWLINE text)
  unfold setTextInternal
  dsimp only
  rw [hsplit]
  refine EditorState.at_mk hsplit (List.splitOn_nil NEWLINE) (List.append_nil l).symm ?_ ?_
  · simp
  · simp

/-- Text is put behind the text before the cursor. -/
theorem insertTextAtCursorInternal_at (h : e.state.At before after) (text : List ℕ) :
    (e.insertTextAtCursorInternal text).state.At (before ++ normalizeText text) after := by
  unfold insertTextAtCursorInternal
  split
  · next hempty =>
    subst hempty
    have hnil : normalizeText [] = [] := rfl
    rwa [hnil, List.append_nil]
  · obtain ⟨pre, l₁, l₂, post, hbefore, hafter, hs⟩ := h
    simp only [hs, EditorState.currentLine_length, sliceTo_append, sliceFrom_append]
    generalize normalizeText text = inserted
    split
    · next hone =>
      obtain ⟨line, hline⟩ := List.length_eq_one_iff.mp hone
      obtain rfl : inserted = line := by
        have hjoin := congrArg [NEWLINE].intercalate hline
        rwa [List.intercalate_splitOn, List.intercalate_singleton] at hjoin
      rw [state_setCursorCol, state_setLine_eq hs]
      refine EditorState.at_mk (splitOn_append hbefore hline) hafter (List.append_assoc _ _ _).symm rfl ?_
      rw [List.length_append]
      push_cast
      rfl
    · next hmany =>
      obtain ⟨first, rest, hfirst⟩ := List.exists_cons_of_ne_nil (List.splitOn_ne_nil NEWLINE inserted)
      have hrest : rest ≠ [] := by
        rintro rfl
        exact hmany (congrArg List.length hfirst)
      obtain ⟨mid, last, rfl⟩ := List.eq_nil_or_concat' rest |>.resolve_left hrest
      have hsplit := splitOn_append hbefore hfirst
      rw [← List.cons_append, ← List.append_assoc] at hsplit
      rw [hfirst]
      have hlast := getLastD_concat_cons first last [] mid
      refine EditorState.at_of_eq hsplit hafter ?_ ?_ ?_
      · simp only [state_setCursorCol, state_setCursorLine, state_setLines, hs, hlast]
        simp
      · simp [hs]
      · simp only [state_setCursorCol, hlast]

theorem splitOn_of_notMem (h : NEWLINE ∉ text) : text.splitOn NEWLINE = [text] := List.splitOn_eq_singleton h

/-- Typed text without a line feed is put behind the text before the cursor. -/
theorem insertCharacter_at (h : e.state.At before after) (htext : NEWLINE ∉ text) :
    (e.insertCharacter text).state.At (before ++ text) after := by
  obtain ⟨pre, l₁, l₂, post, hbefore, hafter, hs⟩ := h
  have hkept : ∀ e' : Editor, e'.state = e.state → ((e'.setLine (sliceTo e'.state.currentLine e'.state.cursorCol ++
      (text ++ sliceFrom e'.state.currentLine e'.state.cursorCol))).setCursorCol
        (e'.state.cursorCol + text.length)).state.At (before ++ text) after := by
    intro e' he'
    have hs' := he'.trans hs
    rw [state_setCursorCol, state_setLine_eq hs', hs', EditorState.currentLine_length, sliceTo_append, sliceFrom_append]
    refine EditorState.at_mk (splitOn_append hbefore (splitOn_of_notMem htext)) hafter (List.append_assoc _ _ _).symm rfl ?_
    rw [List.length_append]
    push_cast
    rfl
  unfold insertCharacter
  refine hkept _ ?_
  split <;> rfl

/-- A line feed is put behind the text before the cursor. -/
theorem addNewLine_at (h : e.state.At before after) : e.addNewLine.state.At (before ++ [NEWLINE]) after := by
  obtain ⟨pre, l₁, l₂, post, hbefore, hafter, hs⟩ := h
  have hfeed : [NEWLINE].splitOn NEWLINE = [] :: [[]] := by decide
  have hsplit := splitOn_append hbefore hfeed
  have hlines : pre ++ (l₁ ++ []) :: [[]] = (pre ++ [l₁]) ++ [[]] := by simp
  rw [hlines] at hsplit
  refine EditorState.at_of_eq hsplit hafter ?_ ?_ ?_
  · simp [addNewLine, hs, splice_insert]
  · simp [addNewLine, hs]
  · simp [addNewLine]

/-! ### Deletion -/

/-- The line feed before the cursor is taken away. -/
theorem mergeWithPrevious_at (h : e.state.At before after) (hcol : e.state.cursorCol = 0) (hrow : 0 < e.state.cursorLine) :
    ∃ before', before = before' ++ [NEWLINE] ∧ e.mergeWithPrevious.state.At before' after := by
  obtain ⟨pre, l₁, l₂, post, hbefore, hafter, hs⟩ := h
  simp only [hs] at hcol hrow
  obtain rfl : l₁ = [] := List.length_eq_zero_iff.mp (by omega)
  obtain ⟨pre, p, rfl⟩ := List.eq_nil_or_concat' pre |>.resolve_left (List.ne_nil_of_length_pos hrow)
  have hbefore' : before.splitOn NEWLINE = pre ++ [p, []] := by rw [hbefore, List.append_assoc]; rfl
  obtain ⟨before', rfl, hsplit⟩ := exists_front_of_splitOn_concat hbefore'
  have hlines : e.state.lines = pre ++ p :: l₂ :: post := by simp [hs]
  have hindex : e.state.cursorLine = pre.length + 1 := by simp [hs]
  have hcurrent : e.state.currentLine = l₂ := by rw [hs, EditorState.currentLine_length, List.nil_append]
  have hprevious : e.state.lineAt pre.length = p := by simp [EditorState.lineAt, hlines]
  unfold mergeWithPrevious
  dsimp only
  rw [hindex, Nat.add_sub_cancel, hprevious, hcurrent, hlines, splice_merge]
  exact ⟨before', rfl, EditorState.at_of_eq hsplit hafter rfl rfl rfl⟩

/-- The line feed behind the cursor is taken away. -/
theorem mergeWithNext_at (h : e.state.At before after) (hcol : (e.state.currentLine.length : ℤ) ≤ e.state.cursorCol)
    (hrow : e.state.cursorLine < e.state.lines.length - 1) :
    ∃ after', after = NEWLINE :: after' ∧ e.mergeWithNext.state.At before after' := by
  obtain ⟨pre, l₁, l₂, post, hbefore, hafter, hs⟩ := h
  rw [hs, EditorState.currentLine_length, List.length_append] at hcol
  obtain rfl : l₂ = [] := List.length_eq_zero_iff.mp (by dsimp only at hcol; omega)
  simp only [hs, List.length_append, List.length_cons] at hrow
  obtain ⟨q, post, rfl⟩ := List.exists_cons_of_ne_nil (List.ne_nil_of_length_pos (by omega : 0 < post.length))
  obtain ⟨after', rfl, hsplit⟩ := exists_back_of_splitOn_cons hafter
  have hlines : e.state.lines = pre ++ l₁ :: q :: post := by simp [hs]
  have hindex : e.state.cursorLine = pre.length := by rw [hs]
  have hcurrent : e.state.currentLine = l₁ := by rw [hs, EditorState.currentLine_length, List.append_nil]
  have hnext : e.state.lineAt (pre.length + 1) = q := by simp [EditorState.lineAt, hlines]
  unfold mergeWithNext
  dsimp only
  rw [hindex, hnext, hcurrent, hlines, splice_merge]
  exact ⟨after', rfl, EditorState.at_of_eq hbefore hsplit rfl hindex (by rw [state_setLines, hs])⟩

/-- As many characters as `n` are taken away before the cursor, in its line. -/
theorem deleteBefore_at {n : ℕ} (h : s.At before after) (hn : n ≤ s.cursorCol) :
    ∃ before', before = before' ++ sliceBetween s.currentLine (s.cursorCol - n) s.cursorCol ∧
      (sliceBetween s.currentLine (s.cursorCol - n) s.cursorCol).length = n ∧ (⟨s.lines.set s.cursorLine (sliceTo s.currentLine (s.cursorCol - n) ++ sliceFrom s.currentLine s.cursorCol),
        s.cursorLine, s.cursorCol - n⟩ : EditorState).At before' after := by
  obtain ⟨pre, l₁, l₂, post, hbefore, hafter, rfl⟩ := h
  dsimp only at hn ⊢
  have hle : n ≤ l₁.length := by omega
  have hcol : (l₁.length : ℤ) - n = (l₁.length - n : ℕ) := by omega
  have hkilled : sliceBetween (l₁ ++ l₂) (l₁.length - n : ℕ) l₁.length = l₁.drop (l₁.length - n) := by
    have hindex : sliceIndex (l₁ ++ l₂).length (l₁.length - n : ℕ) = l₁.length - n := by
      rw [sliceIndex, if_neg (by omega), List.length_append]
      omega
    rw [sliceBetween, sliceTo_append, hindex]
  have hkept : sliceTo (l₁ ++ l₂) (l₁.length - n : ℕ) = l₁.take (l₁.length - n) := by
    rw [sliceTo_natCast, List.take_append_of_le_length (Nat.sub_le _ _)]
  rw [← List.take_append_drop (l₁.length - n) l₁] at hbefore
  obtain ⟨before', rfl, hsplit⟩ := exists_front_of_splitOn hbefore
  rw [EditorState.currentLine_length, hcol, hkilled, hkept, sliceFrom_append, EditorState.set_length]
  refine ⟨before', rfl, ?_, EditorState.at_mk hsplit hafter rfl rfl ?_⟩
  · rw [List.length_drop]
    omega
  · rw [List.length_take_of_le (Nat.sub_le _ _)]

/-- As many characters as `n` are taken away behind the cursor, in its line. -/
theorem deleteAfter_at {n : ℕ} (h : s.At before after) (hn : s.cursorCol + n ≤ s.currentLine.length) :
    ∃ after', after = sliceBetween s.currentLine s.cursorCol (s.cursorCol + n) ++ after' ∧
      (sliceBetween s.currentLine s.cursorCol (s.cursorCol + n)).length = n ∧ (⟨s.lines.set s.cursorLine (sliceTo s.currentLine s.cursorCol ++ sliceFrom s.currentLine (s.cursorCol + n)),
        s.cursorLine, s.cursorCol⟩ : EditorState).At before after' := by
  obtain ⟨pre, l₁, l₂, post, hbefore, hafter, rfl⟩ := h
  rw [EditorState.currentLine_length, List.length_append] at hn
  rw [EditorState.currentLine_length]
  dsimp only at hn ⊢
  have hle : n ≤ l₂.length := by omega
  have hcol : (l₁.length : ℤ) + n = (l₁.length + n : ℕ) := by push_cast; rfl
  have hkilled : sliceBetween (l₁ ++ l₂) l₁.length (l₁.length + n : ℕ) = l₂.take n := by
    have hindex : sliceIndex (l₁ ++ l₂).length l₁.length = l₁.length := by
      rw [sliceIndex, if_neg (by omega), List.length_append]
      omega
    rw [sliceBetween, sliceTo_natCast, hindex, List.take_length_add_append, List.drop_left]
  have hkept : sliceFrom (l₁ ++ l₂) (l₁.length + n : ℕ) = l₂.drop n := by
    rw [sliceFrom_natCast, List.drop_length_add_append]
  rw [← List.take_append_drop n l₂] at hafter
  obtain ⟨after', rfl, hsplit⟩ := exists_back_of_splitOn hafter
  rw [hcol, hkilled, hkept, sliceTo_append, EditorState.set_length]
  exact ⟨after', rfl, List.length_take_of_le hle, EditorState.at_mk hbefore hsplit rfl rfl rfl⟩

/-- A segment that is found in a text is not longer than it. -/
theorem segmentLength_le {segments : List SegmentData} (hspaced : Spaced text 0 segments) (hne : text ≠ [])
    {segment : Option SegmentData} (hmem : ∀ s, segment = some s → s ∈ segments) : segmentLength segment ≤ text.length := by
  cases segment with
  | none => exact List.length_pos_iff.mpr hne
  | some s => exact hspaced.length_le s (hmem s rfl)

theorem lastGraphemeLength_le (u : Unicode) (e : Editor) (hne : text ≠ []) : e.lastGraphemeLength u text ≤ text.length :=
  segmentLength_le (spaced_segmentWithMarkers text (graphemeSegmenter u) e.validPasteIds) hne
    fun _ => List.mem_of_getLast?

theorem firstGraphemeLength_le (u : Unicode) (e : Editor) (hne : text ≠ []) : e.firstGraphemeLength u text ≤ text.length :=
  segmentLength_le (spaced_segmentWithMarkers text (graphemeSegmenter u) e.validPasteIds) hne
    fun _ => List.mem_of_head?

/-- The grapheme before the cursor ends in the line. -/
theorem lastGraphemeLength_le_cursorCol (h : e.state.At before after) (hcol : 0 < e.state.cursorCol) (u : Unicode) (e' : Editor) :
    (e'.lastGraphemeLength u (sliceTo e.state.currentLine e.state.cursorCol) : ℤ) ≤ e.state.cursorCol := by
  obtain ⟨pre, l₁, l₂, post, hbefore, hafter, hs⟩ := h
  rw [hs] at hcol
  rw [hs, EditorState.currentLine_length, sliceTo_append]
  dsimp only at hcol ⊢
  have hne : l₁ ≠ [] := List.ne_nil_of_length_pos (by omega)
  exact_mod_cast lastGraphemeLength_le u e' hne

/-- The grapheme behind the cursor ends in the line. -/
theorem firstGraphemeLength_le_length (h : e.state.At before after) (hcol : e.state.cursorCol < e.state.currentLine.length)
    (u : Unicode) (e' : Editor) :
    e.state.cursorCol + e'.firstGraphemeLength u (sliceFrom e.state.currentLine e.state.cursorCol) ≤
      e.state.currentLine.length := by
  obtain ⟨pre, l₁, l₂, post, hbefore, hafter, hs⟩ := h
  rw [hs, EditorState.currentLine_length, List.length_append] at hcol
  rw [hs, EditorState.currentLine_length, sliceFrom_append, List.length_append]
  have hne : l₂ ≠ [] := List.ne_nil_of_length_pos (by dsimp only at hcol; omega)
  have hle := firstGraphemeLength_le u e' hne
  push_cast
  omega

/-- The grapheme, or the line feed, before the cursor is taken away. -/
theorem handleBackspace_at (h : e.state.At before after) (u : Unicode) :
    ∃ before' deleted, before = before' ++ deleted ∧ (e.handleBackspace u).state.At before' after := by
  unfold handleBackspace
  dsimp only
  replace h : (e.exitHistory.setLastAction none).state.At before after := h
  generalize e.exitHistory.setLastAction none = e at h
  by_cases hcol : 0 < e.state.cursorCol
  · rw [if_pos hcol]
    obtain ⟨before', hbefore, -, hat⟩ := deleteBefore_at h (lastGraphemeLength_le_cursorCol h hcol u e.pushUndoSnapshot)
    exact ⟨before', _, hbefore, hat⟩
  · rw [if_neg hcol]
    by_cases hrow : 0 < e.state.cursorLine
    · rw [if_pos hrow]
      have hzero : e.state.cursorCol = 0 := by
        have := h.wellFormed.cursorCol
        omega
      obtain ⟨before', hbefore, hmerge⟩ := @mergeWithPrevious_at e.pushUndoSnapshot before after h hzero hrow
      exact ⟨before', _, hbefore, hmerge⟩
    · rw [if_neg hrow]
      exact ⟨before, [], (List.append_nil _).symm, h⟩

/-- The grapheme, or the line feed, behind the cursor is taken away. -/
theorem handleForwardDelete_at (h : e.state.At before after) (u : Unicode) :
    ∃ deleted after', after = deleted ++ after' ∧ (e.handleForwardDelete u).state.At before after' := by
  unfold handleForwardDelete
  dsimp only
  replace h : (e.exitHistory.setLastAction none).state.At before after := h
  generalize e.exitHistory.setLastAction none = e at h
  by_cases hcol : e.state.cursorCol < e.state.currentLine.length
  · rw [if_pos hcol]
    obtain ⟨after', hafter, -, hat⟩ := deleteAfter_at h (firstGraphemeLength_le_length h hcol u e.pushUndoSnapshot)
    exact ⟨_, after', hafter, hat⟩
  · rw [if_neg hcol]
    by_cases hrow : e.state.cursorLine < e.state.lines.length - 1
    · rw [if_pos hrow]
      obtain ⟨after', hafter, hmerge⟩ := @mergeWithNext_at e.pushUndoSnapshot before after h (Int.not_lt.mp hcol) hrow
      exact ⟨[NEWLINE], after', hafter, hmerge⟩
    · rw [if_neg hrow]
      exact ⟨[], after, rfl, h⟩

end Trek.Editor
