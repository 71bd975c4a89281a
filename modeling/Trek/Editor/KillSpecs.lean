/-
# What kill and yank do to the text

A kill takes its text from the end of the text before the cursor, or from the start of the text behind
it (`KillOp.run_at`); it is idle where there is nothing on that side, and stuck where the word motion
does not move. What is yanked is put before the cursor, and taken away again (`deleteYankedText_at`).
-/
import Trek.Editor.Edits

namespace Trek.Editor

/-- The kills. -/
inductive KillOp where
  | deleteToStartOfLine
  | deleteToEndOfLine
  | deleteWordBackwards
  | deleteWordForward
  deriving DecidableEq

namespace KillOp

/-- A kill. -/
def run (wordSegmenter : Segmenter) : KillOp → Editor → Editor
  | deleteToStartOfLine => Editor.deleteToStartOfLine
  | deleteToEndOfLine => Editor.deleteToEndOfLine
  | deleteWordBackwards => Editor.deleteWordBackwards wordSegmenter
  | deleteWordForward => Editor.deleteWordForward wordSegmenter

/-- A kill backwards. -/
def isBackward : KillOp → Bool
  | deleteToStartOfLine | deleteWordBackwards => true
  | deleteToEndOfLine | deleteWordForward => false

/-- At the start of the text there is nothing to kill backwards, and at the end nothing forwards. -/
def Idle (op : KillOp) (e : Editor) : Prop :=
  if op.isBackward then e.state.cursorCol = 0 ∧ e.state.cursorLine = 0
  else (e.state.currentLine.length : ℤ) ≤ e.state.cursorCol ∧ e.state.lines.length - 1 ≤ e.state.cursorLine

/-- The word motion does not move, inside of the line. -/
def Stuck (wordSegmenter : Segmenter) : KillOp → Editor → Prop
  | deleteWordBackwards, e =>
    e.state.cursorCol ≠ 0 ∧ findWordBackward (e.segment wordSegmenter) e.state.currentLine e.state.cursorCol = e.state.cursorCol
  | deleteWordForward, e =>
    e.state.cursorCol < e.state.currentLine.length ∧
      findWordForward (e.segment wordSegmenter) e.state.currentLine e.state.cursorCol = e.state.cursorCol
  | _, _ => False

instance (op : KillOp) (e : Editor) : Decidable (op.Idle e) := by
  unfold Idle
  infer_instance

instance (wordSegmenter : Segmenter) (op : KillOp) (e : Editor) : Decidable (op.Stuck wordSegmenter e) := by
  cases op <;> (unfold Stuck; infer_instance)

end KillOp

variable {e : Editor} {before after text : List ℕ} {wordSegmenter : Segmenter}

/-! ### Words -/

theorem segmentsLength_append (s t : List SegmentData) : segmentsLength (s ++ t) = segmentsLength s + segmentsLength t := by
  simp [segmentsLength]

theorem segmentsLength_reverse (s : List SegmentData) : segmentsLength s.reverse = segmentsLength s := by
  simp [segmentsLength, List.map_reverse]

theorem segmentsLength_le : ∀ {pos : ℕ} {segments : List SegmentData}, Spaced text pos segments → segments ≠ [] →
    pos + segmentsLength segments ≤ text.length
  | pos, [s], ⟨hpos, _, hend, _⟩, _ => by
    have hone : segmentsLength [s] = s.segment.length := by simp [segmentsLength]
    omega
  | pos, s :: t :: rest, ⟨hpos, _, _, _, h⟩, _ => by
    have ih := segmentsLength_le h (List.cons_ne_nil t rest)
    have hcons : segmentsLength (s :: t :: rest) = s.segment.length + segmentsLength (t :: rest) := by simp [segmentsLength]
    omega

/-- A word motion stays in the segments. -/
theorem wordSpan_le {wordLength : List ℕ → ℕ} (hword : ∀ word, wordLength word ≤ word.length) (segments : List SegmentData) :
    wordSpan wordLength segments ≤ segmentsLength segments := by
  have hsplit := congrArg segmentsLength (List.takeWhile_append_dropWhile (p := isBlankSegment) (l := segments))
  rw [segmentsLength_append] at hsplit
  unfold wordSpan
  dsimp only
  split
  · omega
  · next s rest hrest =>
    rw [hrest] at hsplit
    have hcons : segmentsLength (s :: rest) = s.segment.length + segmentsLength rest := by simp [segmentsLength]
    have hword' := hword s.segment
    have hpunctuation := congrArg segmentsLength
      (List.takeWhile_append_dropWhile (p := isPunctuationSegment) (l := s :: rest))
    rw [segmentsLength_append] at hpunctuation
    split
    · omega
    · split <;> omega

theorem takeWhile_length_le (p : ℕ → Bool) (word : List ℕ) : (word.takeWhile p).length ≤ word.length :=
  (List.takeWhile_prefix p).length_le

/-- A word motion in the segments of a text stays in the text. -/
theorem wordSpan_segment_le (e : Editor) (wordSegmenter : Segmenter) {wordLength : List ℕ → ℕ}
    (hword : ∀ word, wordLength word ≤ word.length) (text : List ℕ) :
    wordSpan wordLength (e.segment wordSegmenter text) ≤ text.length ∧
      wordSpan wordLength (e.segment wordSegmenter text).reverse ≤ text.length := by
  have hspaced : Spaced text 0 (e.segment wordSegmenter text) := spaced_segmentWithMarkers text wordSegmenter e.validPasteIds
  have hle : segmentsLength (e.segment wordSegmenter text) ≤ text.length := by
    cases hsegments : e.segment wordSegmenter text with
    | nil => exact Nat.zero_le _
    | cons s rest =>
      rw [hsegments] at hspaced
      exact (Nat.le_add_left _ _).trans (segmentsLength_le hspaced (List.cons_ne_nil s rest))
  have hreverse := wordSpan_le hword (e.segment wordSegmenter text).reverse
  rw [segmentsLength_reverse] at hreverse
  exact ⟨(wordSpan_le hword _).trans hle, hreverse.trans hle⟩

/-- The start of the word is in the line. -/
theorem exists_findWordBackward (h : e.state.At before after) (hcol : e.state.cursorCol ≠ 0) :
    ∃ n : ℕ, n ≤ e.state.cursorCol ∧
      findWordBackward (e.segment wordSegmenter) e.state.currentLine e.state.cursorCol = e.state.cursorCol - n := by
  have hpos : ¬ e.state.cursorCol ≤ 0 := by
    have := h.wellFormed.cursorCol
    omega
  unfold findWordBackward
  rw [if_neg hpos]
  refine ⟨_, ?_, rfl⟩
  have hle := (wordSpan_segment_le e wordSegmenter (fun word => (takeWhile_length_le (!isPunctuation ·) word.reverse).trans
    (List.length_reverse).le) (sliceTo e.state.currentLine e.state.cursorCol)).2
  obtain ⟨pre, l₁, l₂, post, hbefore, hafter, hs⟩ := h
  rw [hs, EditorState.currentLine_length, sliceTo_append] at hle ⊢
  dsimp only
  exact_mod_cast hle

/-- The end of the word is in the line. -/
theorem exists_findWordForward (h : e.state.At before after) (hcol : e.state.cursorCol < e.state.currentLine.length) :
    ∃ n : ℕ, e.state.cursorCol + n ≤ e.state.currentLine.length ∧
      findWordForward (e.segment wordSegmenter) e.state.currentLine e.state.cursorCol = e.state.cursorCol + n := by
  unfold findWordForward
  rw [if_neg (Int.not_le.mpr hcol)]
  refine ⟨_, ?_, rfl⟩
  have hle := (wordSpan_segment_le e wordSegmenter (takeWhile_length_le (!isPunctuation ·))
    (sliceFrom e.state.currentLine e.state.cursorCol)).1
  obtain ⟨pre, l₁, l₂, post, hbefore, hafter, hs⟩ := h
  rw [hs, EditorState.currentLine_length, sliceFrom_append] at hle ⊢
  rw [List.length_append]
  push_cast
  exact Int.add_le_add_left (by exact_mod_cast hle) _

/-! ### Kills -/

/-- What a kill does: its text is taken away on one side of the cursor, and put into the kill ring. -/
structure Kills (toFront : Bool) (e e' : Editor) (before after : List ℕ) (killed : List ℕ) : Prop where
  state : if toFront then ∃ before', before = before' ++ killed ∧ e'.state.At before' after
    else ∃ after', after = killed ++ after' ∧ e'.state.At before after'
  killRing : e'.killRing = e.killRing.push killed toFront (e.lastAction = some .kill)
  lastAction : e'.lastAction = some .kill

theorem kills_newline_before (h : e.state.At before after) (hcol : e.state.cursorCol = 0) (hrow : 0 < e.state.cursorLine) :
    Kills true e ((e.exitHistory.pushUndoSnapshot.killText [NEWLINE] true).mergeWithPrevious) before after [NEWLINE] := by
  obtain ⟨before', hbefore, hat⟩ :=
    @mergeWithPrevious_at (e.exitHistory.pushUndoSnapshot.killText [NEWLINE] true) before after h hcol hrow
  exact ⟨⟨before', hbefore, hat⟩, rfl, rfl⟩

theorem kills_newline_after (h : e.state.At before after) (hcol : (e.state.currentLine.length : ℤ) ≤ e.state.cursorCol)
    (hrow : e.state.cursorLine < e.state.lines.length - 1) :
    Kills false e ((e.exitHistory.pushUndoSnapshot.killText [NEWLINE] false).mergeWithNext) before after [NEWLINE] := by
  obtain ⟨after', hafter, hat⟩ :=
    @mergeWithNext_at (e.exitHistory.pushUndoSnapshot.killText [NEWLINE] false) before after h hcol hrow
  exact ⟨⟨after', hafter, hat⟩, rfl, rfl⟩

theorem deleteToStartOfLine_kills (h : e.state.At before after) (hcol : 0 < e.state.cursorCol) :
    ∃ killed, Kills true e e.deleteToStartOfLine before after killed ∧ killed ≠ [] := by
  have hcol' : 0 < e.exitHistory.state.cursorCol := hcol
  unfold deleteToStartOfLine
  rw [if_pos hcol']
  obtain ⟨pre, l₁, l₂, post, hbefore, hafter, hs⟩ := h
  obtain ⟨before', rfl, hsplit⟩ := @exists_front_of_splitOn _ _ _ _ [] _ _ hbefore
  have hs' : e.exitHistory.state = _ := hs
  rw [hs, Int.natCast_pos] at hcol
  refine ⟨l₁, ⟨⟨before', rfl, ?_⟩, ?_, rfl⟩, List.ne_nil_of_length_pos hcol⟩
  · have hkill : (e.exitHistory.pushUndoSnapshot.killText l₁ true).state = _ := hs
    simp only [hs', EditorState.currentLine_length, sliceTo_append]
    rw [hkill, sliceFrom_append, state_setCursorCol, @state_setLine_eq (e.exitHistory.pushUndoSnapshot.killText l₁ true) _ _ _ _ hs]
    exact EditorState.at_mk hsplit hafter rfl rfl rfl
  · simp only [hs', EditorState.currentLine_length, sliceTo_append]
    rfl

theorem deleteToEndOfLine_kills (h : e.state.At before after) (hcol : e.state.cursorCol < e.state.currentLine.length) :
    ∃ killed, Kills false e e.deleteToEndOfLine before after killed ∧ killed ≠ [] := by
  have hcol' : e.exitHistory.state.cursorCol < e.exitHistory.state.currentLine.length := hcol
  unfold deleteToEndOfLine
  rw [if_pos hcol']
  obtain ⟨pre, l₁, l₂, post, hbefore, hafter, hs⟩ := h
  rw [← List.append_nil l₂] at hafter
  obtain ⟨after', rfl, hsplit⟩ := exists_back_of_splitOn hafter
  have hs' : e.exitHistory.state = _ := hs
  rw [hs, EditorState.currentLine_length, List.length_append] at hcol
  dsimp only at hcol
  refine ⟨l₂, ⟨⟨after', rfl, ?_⟩, ?_, rfl⟩, List.ne_nil_of_length_pos (by omega)⟩
  · have hkill : (e.exitHistory.pushUndoSnapshot.killText l₂ false).state = _ := hs
    simp only [hs', EditorState.currentLine_length, sliceFrom_append]
    rw [hkill, sliceTo_append, @state_setLine_eq (e.exitHistory.pushUndoSnapshot.killText l₂ false) _ _ _ _ hs]
    exact EditorState.at_mk hbefore hsplit (List.append_nil _).symm rfl rfl
  · simp only [hs', EditorState.currentLine_length, sliceFrom_append]
    rfl

theorem deleteWordBackwards_kills (h : e.state.At before after) (hcol : e.state.cursorCol ≠ 0) :
    ∃ killed, Kills true e (e.deleteWordBackwards wordSegmenter) before after killed ∧
      (killed = [] ↔ KillOp.deleteWordBackwards.Stuck wordSegmenter e) := by
  obtain ⟨n, hn, hfind⟩ := @exists_findWordBackward e before after wordSegmenter h hcol
  obtain ⟨before', hbefore, hlength, hat⟩ := deleteBefore_at h hn
  have hcol' : ¬ e.exitHistory.state.cursorCol = 0 := hcol
  have hmove : (e.exitHistory.pushUndoSnapshot.moveWordBackwards wordSegmenter).state.cursorCol = e.state.cursorCol - n := by
    unfold moveWordBackwards
    rw [if_neg (by exact hcol)]
    exact hfind
  unfold deleteWordBackwards
  rw [if_neg hcol']
  dsimp only
  rw [hmove]
  refine ⟨_, ⟨⟨before', hbefore, hat⟩, rfl, rfl⟩, ?_⟩
  rw [← List.length_eq_zero_iff, hlength]
  constructor
  · rintro rfl
    exact ⟨hcol, by rw [hfind]; simp⟩
  · rintro ⟨-, hstuck⟩
    rw [hfind] at hstuck
    omega

theorem deleteWordForward_kills (h : e.state.At before after) (hcol : e.state.cursorCol < e.state.currentLine.length) :
    ∃ killed, Kills false e (e.deleteWordForward wordSegmenter) before after killed ∧
      (killed = [] ↔ KillOp.deleteWordForward.Stuck wordSegmenter e) := by
  obtain ⟨n, hn, hfind⟩ := @exists_findWordForward e before after wordSegmenter h hcol
  obtain ⟨after', hafter, hlength, hat⟩ := deleteAfter_at h hn
  have hcol' : ¬ (e.exitHistory.state.currentLine.length : ℤ) ≤ e.exitHistory.state.cursorCol := Int.not_le.mpr hcol
  have hmove : (e.exitHistory.pushUndoSnapshot.moveWordForwards wordSegmenter).state.cursorCol = e.state.cursorCol + n := by
    unfold moveWordForwards
    rw [if_neg (by exact hcol')]
    exact hfind
  unfold deleteWordForward
  rw [if_neg hcol']
  dsimp only
  rw [hmove]
  refine ⟨_, ⟨⟨after', hafter, hat⟩, rfl, rfl⟩, ?_⟩
  rw [← List.length_eq_zero_iff, hlength]
  constructor
  · rintro rfl
    exact ⟨hcol, by rw [hfind]; simp⟩
  · rintro ⟨-, hstuck⟩
    rw [hfind] at hstuck
    omega

/-- An idle kill does nothing. -/
theorem KillOp.run_idle {op : KillOp} (hidle : op.Idle e) : op.run wordSegmenter e = e.exitHistory := by
  cases op with
  | deleteToStartOfLine =>
    obtain ⟨hcol, hrow⟩ : e.state.cursorCol = 0 ∧ e.state.cursorLine = 0 := hidle
    have hcol' : ¬ 0 < e.exitHistory.state.cursorCol := by simp [hcol]
    have hrow' : ¬ 0 < e.exitHistory.state.cursorLine := by simp [hrow]
    change Editor.deleteToStartOfLine e = _
    unfold Editor.deleteToStartOfLine
    rw [if_neg hcol', if_neg hrow']
  | deleteToEndOfLine =>
    obtain ⟨hcol, hrow⟩ : (e.state.currentLine.length : ℤ) ≤ e.state.cursorCol ∧ e.state.lines.length - 1 ≤ e.state.cursorLine := hidle
    have hcol' : ¬ e.exitHistory.state.cursorCol < e.exitHistory.state.currentLine.length := Int.not_lt.mpr hcol
    have hrow' : ¬ e.exitHistory.state.cursorLine < e.exitHistory.state.lines.length - 1 := Nat.not_lt.mpr hrow
    change Editor.deleteToEndOfLine e = _
    unfold Editor.deleteToEndOfLine
    rw [if_neg hcol', if_neg hrow']
  | deleteWordBackwards =>
    obtain ⟨hcol, hrow⟩ : e.state.cursorCol = 0 ∧ e.state.cursorLine = 0 := hidle
    have hcol' : e.exitHistory.state.cursorCol = 0 := hcol
    have hrow' : ¬ 0 < e.exitHistory.state.cursorLine := by simp [hrow]
    change Editor.deleteWordBackwards wordSegmenter e = _
    unfold Editor.deleteWordBackwards
    rw [if_pos hcol', if_neg hrow']
  | deleteWordForward =>
    obtain ⟨hcol, hrow⟩ : (e.state.currentLine.length : ℤ) ≤ e.state.cursorCol ∧ e.state.lines.length - 1 ≤ e.state.cursorLine := hidle
    have hcol' : (e.exitHistory.state.currentLine.length : ℤ) ≤ e.exitHistory.state.cursorCol := hcol
    have hrow' : ¬ e.exitHistory.state.cursorLine < e.exitHistory.state.lines.length - 1 := Nat.not_lt.mpr hrow
    change Editor.deleteWordForward wordSegmenter e = _
    unfold Editor.deleteWordForward
    rw [if_pos hcol', if_neg hrow']

/-- Any other kill takes text away, but for one that is stuck. -/
theorem KillOp.run_kills {op : KillOp} (h : e.state.At before after) (hidle : ¬ op.Idle e) :
    ∃ killed, Kills op.isBackward e (op.run wordSegmenter e) before after killed ∧ (killed = [] ↔ op.Stuck wordSegmenter e) := by
  have hwell := h.wellFormed.cursorCol
  cases op with
  | deleteToStartOfLine =>
    by_cases hcol : 0 < e.state.cursorCol
    · obtain ⟨killed, hkills, hne⟩ := deleteToStartOfLine_kills h hcol
      exact ⟨killed, hkills, iff_of_false hne id⟩
    · have hzero : e.state.cursorCol = 0 := by omega
      have hrow : 0 < e.state.cursorLine := Nat.pos_of_ne_zero fun hrow => hidle ⟨hzero, hrow⟩
      have hcol' : ¬ 0 < e.exitHistory.state.cursorCol := hcol
      have hrow' : 0 < e.exitHistory.state.cursorLine := hrow
      refine ⟨[NEWLINE], ?_, iff_of_false (List.cons_ne_nil _ _) id⟩
      change Kills true e (Editor.deleteToStartOfLine e) before after _
      unfold Editor.deleteToStartOfLine
      rw [if_neg hcol', if_pos hrow']
      exact kills_newline_before h hzero hrow
  | deleteToEndOfLine =>
    by_cases hcol : e.state.cursorCol < e.state.currentLine.length
    · obtain ⟨killed, hkills, hne⟩ := deleteToEndOfLine_kills h hcol
      exact ⟨killed, hkills, iff_of_false hne id⟩
    · have hrow : e.state.cursorLine < e.state.lines.length - 1 :=
        Nat.lt_of_not_le fun hrow => hidle ⟨Int.not_lt.mp hcol, hrow⟩
      have hcol' : ¬ e.exitHistory.state.cursorCol < e.exitHistory.state.currentLine.length := hcol
      have hrow' : e.exitHistory.state.cursorLine < e.exitHistory.state.lines.length - 1 := hrow
      refine ⟨[NEWLINE], ?_, iff_of_false (List.cons_ne_nil _ _) id⟩
      change Kills false e (Editor.deleteToEndOfLine e) before after _
      unfold Editor.deleteToEndOfLine
      rw [if_neg hcol', if_pos hrow']
      exact kills_newline_after h (Int.not_lt.mp hcol) hrow
  | deleteWordBackwards =>
    by_cases hcol : e.state.cursorCol = 0
    · have hrow : 0 < e.state.cursorLine := Nat.pos_of_ne_zero fun hrow => hidle ⟨hcol, hrow⟩
      have hcol' : e.exitHistory.state.cursorCol = 0 := hcol
      have hrow' : 0 < e.exitHistory.state.cursorLine := hrow
      refine ⟨[NEWLINE], ?_, iff_of_false (List.cons_ne_nil _ _) fun hstuck => hstuck.1 hcol⟩
      change Kills true e (Editor.deleteWordBackwards wordSegmenter e) before after _
      unfold Editor.deleteWordBackwards
      rw [if_pos hcol', if_pos hrow']
      exact kills_newline_before h hcol hrow
    · exact deleteWordBackwards_kills h hcol
  | deleteWordForward =>
    by_cases hcol : e.state.cursorCol < e.state.currentLine.length
    · exact deleteWordForward_kills h hcol
    · have hrow : e.state.cursorLine < e.state.lines.length - 1 :=
        Nat.lt_of_not_le fun hrow => hidle ⟨Int.not_lt.mp hcol, hrow⟩
      have hcol' : (e.exitHistory.state.currentLine.length : ℤ) ≤ e.exitHistory.state.cursorCol := Int.not_lt.mp hcol
      have hrow' : e.exitHistory.state.cursorLine < e.exitHistory.state.lines.length - 1 := hrow
      refine ⟨[NEWLINE], ?_, iff_of_false (List.cons_ne_nil _ _) fun hstuck => hcol hstuck.1⟩
      change Kills false e (Editor.deleteWordForward wordSegmenter e) before after _
      unfold Editor.deleteWordForward
      rw [if_pos hcol', if_pos hrow']
      exact kills_newline_after h (Int.not_lt.mp hcol) hrow

/-! ### Yank -/

theorem spliceLines_append : ∀ (mid pre post : List (List ℕ)), spliceLines (pre ++ post) pre.length mid = pre ++ (mid ++ post)
  | [], _, _ => rfl
  | line :: mid, pre, post => by
    have hsplice : splice (pre ++ post) pre.length 0 [line] = (pre ++ [line]) ++ post := by
      have happend := splice_append pre [] post [line]
      rw [List.append_assoc]
      exact happend
    have ih := spliceLines_append mid (pre ++ [line]) post
    simpa [spliceLines, hsplice] using ih

/-- The lines of a text of more than one line. -/
theorem exists_lines_of_ne_one (h : (text.splitOn NEWLINE).length ≠ 1) :
    ∃ first mid last, text.splitOn NEWLINE = first :: (mid ++ [last]) := by
  obtain ⟨first, rest, hfirst⟩ := List.exists_cons_of_ne_nil (List.splitOn_ne_nil NEWLINE text)
  have hrest : rest ≠ [] := by
    rintro rfl
    exact h (congrArg List.length hfirst)
  obtain ⟨mid, last, rfl⟩ := List.eq_nil_or_concat' rest |>.resolve_left hrest
  exact ⟨first, mid, last, hfirst⟩

theorem splitOn_of_length_one (h : (text.splitOn NEWLINE).length = 1) : text.splitOn NEWLINE = [text] := by
  obtain ⟨line, hline⟩ := List.length_eq_one_iff.mp h
  have hjoin := congrArg [NEWLINE].intercalate hline
  rw [List.intercalate_splitOn, List.intercalate_singleton] at hjoin
  rw [hline, hjoin]

/-- What is yanked is put before the cursor. -/
theorem insertYankedText_at (h : e.state.At before after) (text : List ℕ) :
    (e.insertYankedText text).state.At (before ++ text) after := by
  obtain ⟨pre, l₁, l₂, post, hbefore, hafter, hs⟩ := h
  replace hs : e.exitHistory.state = ⟨pre ++ (l₁ ++ l₂) :: post, pre.length, l₁.length⟩ := hs
  unfold insertYankedText
  dsimp only
  generalize e.exitHistory = e at hs
  rw [hs, EditorState.currentLine_length, sliceTo_append, sliceFrom_append]
  by_cases hone : (text.splitOn NEWLINE).length = 1
  · rw [if_pos hone, state_setCursorCol, state_setLine_eq hs]
    refine EditorState.at_mk (splitOn_append hbefore (splitOn_of_length_one hone)) hafter (List.append_assoc _ _ _).symm rfl ?_
    rw [List.length_append]
    push_cast
    rfl
  · obtain ⟨first, mid, last, hlines⟩ := exists_lines_of_ne_one hone
    have hsplit := splitOn_append hbefore hlines
    rw [← List.cons_append, ← List.append_assoc] at hsplit
    have hlast := getLastD_concat_cons first last [] mid
    rw [if_neg hone, hlines, hlast]
    have hset := state_setLine_eq hs (l₁ ++ first)
    have hmiddle := spliceLines_append mid (pre ++ [l₁ ++ first]) post
    rw [List.length_append, List.append_assoc] at hmiddle
    have hindex : pre.length + (first :: (mid ++ [last])).length - 1 = (pre ++ (l₁ ++ first) :: mid).length := by
      simp only [List.length_append, List.length_cons, List.length_nil]
      omega
    have hinsert := splice_append (pre ++ (l₁ ++ first) :: mid) [] post [last ++ l₂]
    refine EditorState.at_of_eq hsplit hafter ?_ ?_ rfl
    · simp only [state_setCursorCol, state_setCursorLine, state_setLines, List.headD_cons, List.tail_cons, List.dropLast_concat, hset, hindex]
      have hmid : spliceLines (pre ++ (l₁ ++ first) :: post) (pre.length + 1) mid = (pre ++ (l₁ ++ first) :: mid) ++ post := by
        exact hmiddle.trans (by simp)
      rw [hmid]
      exact hinsert
    · simp only [state_setCursorCol, state_setCursorLine, hindex]

/-- What was yanked is taken away again. -/
theorem deleteYankedText_at (hpeek : e.killRing.peek = some text) (h : e.state.At (before ++ text) after) :
    e.deleteYankedText.state.At before after := by
  unfold deleteYankedText
  rw [hpeek]
  dsimp only
  by_cases hempty : text = []
  · rw [if_pos hempty]
    rwa [hempty, List.append_nil] at h
  · rw [if_neg hempty]
    obtain ⟨pre, l₁, hbefore⟩ := List.eq_nil_or_concat' (before.splitOn NEWLINE) |>.resolve_left (List.splitOn_ne_nil NEWLINE before)
    obtain ⟨pre', l₁', l₂, post, hbefore', hafter, hs⟩ := h
    by_cases hone : (text.splitOn NEWLINE).length = 1
    · have hsplit := splitOn_append hbefore (splitOn_of_length_one hone)
      obtain ⟨rfl, hl⟩ := List.append_inj' (hbefore'.symm.trans hsplit) rfl
      obtain rfl := List.singleton_inj.mp hl
      have hcol : e.state.cursorCol - text.length = l₁.length := by
        rw [hs]
        dsimp only
        rw [List.length_append]
        push_cast
        omega
      have hcurrent : e.state.currentLine = (l₁ ++ text) ++ l₂ := by rw [hs, EditorState.currentLine_length]
      have hto : sliceTo ((l₁ ++ text) ++ l₂) l₁.length = l₁ := by rw [List.append_assoc, sliceTo_append]
      have hfrom : sliceFrom ((l₁ ++ text) ++ l₂) e.state.cursorCol = l₂ := by rw [hs, sliceFrom_append]
      rw [if_pos hone, hcol, hcurrent, hto, hfrom, state_setCursorCol, state_setLine_eq hs]
      exact EditorState.at_mk hbefore hafter rfl rfl rfl
    · obtain ⟨first, mid, last, hlines⟩ := exists_lines_of_ne_one hone
      have hsplit := splitOn_append hbefore hlines
      rw [← List.cons_append, ← List.append_assoc] at hsplit
      obtain ⟨rfl, hl⟩ := List.append_inj' (hbefore'.symm.trans hsplit) rfl
      obtain rfl : last = l₁' := (List.singleton_inj.mp hl).symm
      have hstate : e.state.lines = pre ++ (((l₁ ++ first) :: (mid ++ [last ++ l₂])) ++ post) := by
        rw [hs]
        simp
      have hindex : e.state.cursorLine - ((first :: (mid ++ [last])).length - 1) = pre.length := by
        rw [hs]
        simp only [List.length_append, List.length_cons, List.length_nil]
        omega
      have hline : e.state.lineAt pre.length = l₁ ++ first := by simp [EditorState.lineAt, hstate]
      have hcol : ((l₁ ++ first).length : ℤ) - first.length = l₁.length := by
        rw [List.length_append]
        push_cast
        omega
      have hfrom : sliceFrom e.state.currentLine e.state.cursorCol = l₂ := by
        rw [hs, EditorState.currentLine_length, sliceFrom_append]
      have hsplice := splice_append pre ((l₁ ++ first) :: (mid ++ [last ++ l₂])) post [l₁ ++ l₂]
      have hlength : (first :: (mid ++ [last])).length = ((l₁ ++ first) :: (mid ++ [last ++ l₂])).length := by simp
      rw [if_neg hone, hlines, hindex, hline, List.headD_cons, hcol, hfrom, sliceTo_append, hstate, hlength, hsplice]
      exact EditorState.at_of_eq hbefore hafter rfl rfl rfl

end Trek.Editor
