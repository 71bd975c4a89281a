/-
# Runs of the editor

What the editor is asked to do is an `Op`. Every step that does not go on with typing or with browsing the
history keeps a snapshot of the state before it, if it changes the text (`undoStack_of_undoable`), so that
`undo` gives the state back exactly. A step leads from a valid editor to a valid one if it is safe
(`Valid.step`): typed data has no line feed, a vertical move does not look up a column that it remembers
of a line that has changed since, and a page down does not go on from the wrong column.
-/
import Trek.Editor.KillRuns
import Trek.Editor.VisualLines
import Trek.Lib.Machine

namespace Trek.Editor

open Trek.Tui

/-- What the editor is asked to do. -/
inductive Op where
  | insertCharacter (char : List ℕ)
  | insertTextAtCursor (text : List ℕ)
  | setText (text : List ℕ)
  | handlePaste (text : List ℕ)
  | addNewLine
  | handleBackspace
  | handleForwardDelete
  | kill (op : KillOp)
  | yank
  | yankPop
  | moveToLineStart
  | moveToLineEnd
  | moveWordBackwards
  | moveWordForwards
  | moveCursorLine (down : Bool)
  | moveCursorCol (right : Bool)
  | pageScroll (down : Bool) (terminalRows : ℕ)
  | jumpToChar (char : List ℕ) (isForward : Bool)
  | navigateHistory (older : Bool)
  | addToHistory (text : List ℕ)
  | undo
  | submitValue
  | render (width : ℕ)
  deriving DecidableEq

/-- A step of the editor; moves that word wrap does not come back for have none. -/
def step (u : Unicode) (wordSegmenter : Segmenter) (calls : ℕ) (e : Editor) : Op → Option Editor
  | .insertCharacter char => some (e.insertCharacter char)
  | .insertTextAtCursor text => some (e.insertTextAtCursor text)
  | .setText text => some (e.setText text)
  | .handlePaste text => some (e.handlePaste text)
  | .addNewLine => some e.addNewLine
  | .handleBackspace => some (e.handleBackspace u)
  | .handleForwardDelete => some (e.handleForwardDelete u)
  | .kill op => some (op.run wordSegmenter e)
  | .yank => some e.yank
  | .yankPop => some e.yankPop
  | .moveToLineStart => some e.moveToLineStart
  | .moveToLineEnd => some e.moveToLineEnd
  | .moveWordBackwards => some (e.moveWordBackwards wordSegmenter)
  | .moveWordForwards => some (e.moveWordForwards wordSegmenter)
  | .moveCursorLine down => e.moveCursorLine u calls down
  | .moveCursorCol right => e.moveCursorCol u calls right
  | .pageScroll down terminalRows => e.pageScroll u calls down terminalRows
  | .jumpToChar char isForward => some (e.jumpToChar char isForward)
  | .navigateHistory older => some (e.navigateHistory older)
  | .addToHistory text => some (e.addToHistory text)
  | .undo => some e.undo
  | .submitValue => some e.submitValue.1
  | .render width => some (e.render width)

/-- A move of the cursor. -/
def Op.isMove : Op → Bool
  | .moveToLineStart | .moveToLineEnd | .moveWordBackwards | .moveWordForwards | .moveCursorLine _ | .moveCursorCol _
  | .pageScroll _ _ | .jumpToChar _ _ => true
  | _ => false

/-- What a step needs. -/
def Safe (u : Unicode) (calls : ℕ) (e : Editor) : Op → Prop
  | .insertCharacter char => NEWLINE ∉ char
  | .moveCursorLine _ => ∀ vls, e.buildVisualLineMap u calls e.lastWidth = some vls → e.Remembers vls
  | .pageScroll down terminalRows =>
    ∀ vls, e.buildVisualLineMap u calls e.lastWidth = some vls → e.Remembers vls ∧ (down = true → e.PageSafe u vls terminalRows)
  | _ => True

/-- Typing that goes on with typing, and browsing that goes on with browsing. -/
def Coalesced (e : Editor) : Op → Prop
  | .insertCharacter char => e.lastAction = some .typeWord ∧ isWhitespaceChar char = false
  | .navigateHistory _ => e.historyIndex ≠ none
  | _ => False

/-- A step that changes the text and can be undone: it does not go on with the one before, and is itself
neither `undo` nor the submission of the text. -/
def Undoable (e : Editor) (op : Op) (e' : Editor) : Prop :=
  e'.getText ≠ e.getText ∧ ¬ e.Coalesced op ∧ op ≠ .undo ∧ op ≠ .submitValue

variable {u : Unicode} {wordSegmenter : Segmenter} {calls : ℕ} {e e' e'' : Editor} {op : Op}

/-! ### What a change of the text leaves alone -/

/-- The undo stack, the kill ring and the last action are the same, and there is no other preferred column. -/
structure Frame (e e' : Editor) : Prop where
  undoStack : e'.undoStack = e.undoStack
  killRing : e'.killRing = e.killRing
  lastWidth : e'.lastWidth = e.lastWidth
  lastAction : e'.lastAction = e.lastAction
  preferred : ∀ col, e'.preferredVisualCol = some col → e.preferredVisualCol = some col

theorem Frame.trans (h : Frame e e') (h' : Frame e' e'') : Frame e e'' :=
  ⟨h'.undoStack.trans h.undoStack, h'.killRing.trans h.killRing, h'.lastWidth.trans h.lastWidth,
    h'.lastAction.trans h.lastAction, fun col hcol => h.preferred col (h'.preferred col hcol)⟩

theorem frame_rfl (e : Editor) : Frame e e := ⟨rfl, rfl, rfl, rfl, fun _ h => h⟩

theorem frame_setCursorCol (e : Editor) (col : ℤ) : Frame e (e.setCursorCol col) :=
  ⟨rfl, rfl, rfl, rfl, fun c hc => by cases hc⟩

theorem frame_setLines (e : Editor) (lines : List (List ℕ)) : Frame e (e.setLines lines) := ⟨rfl, rfl, rfl, rfl, fun _ h => h⟩

theorem frame_setCursorLine (e : Editor) (row : ℕ) : Frame e (e.setCursorLine row) := ⟨rfl, rfl, rfl, rfl, fun _ h => h⟩

theorem frame_exitHistory (e : Editor) : Frame e e.exitHistory := ⟨rfl, rfl, rfl, rfl, fun _ h => h⟩

/-- A line is changed, and the column of the cursor. -/
theorem frame_setLine (e : Editor) (line : List ℕ) (col : ℤ) : Frame e ((e.setLine line).setCursorCol col) :=
  (frame_setLines e _).trans (frame_setCursorCol _ col)

/-- The lines are changed, and the cursor. -/
theorem frame_setState (e : Editor) (lines : List (List ℕ)) (row : ℕ) (col : ℤ) :
    Frame e (((e.setLines lines).setCursorLine row).setCursorCol col) :=
  ((frame_setLines e lines).trans (frame_setCursorLine _ row)).trans (frame_setCursorCol _ col)

theorem frame_setTextInternal (e : Editor) (text : List ℕ) : Frame e (e.setTextInternal text) := frame_setState e _ _ _

theorem frame_insertTextAtCursorInternal (e : Editor) (text : List ℕ) : Frame e (e.insertTextAtCursorInternal text) := by
  unfold insertTextAtCursorInternal
  split
  · exact frame_rfl e
  · dsimp only
    split
    · exact frame_setLine e _ _
    · exact frame_setState e _ _ _

theorem frame_insertYankedText (e : Editor) (text : List ℕ) : Frame e (e.insertYankedText text) := by
  unfold insertYankedText
  dsimp only
  refine (frame_exitHistory e).trans ?_
  split
  · exact frame_setLine _ _ _
  · exact (frame_setLines e.exitHistory _).trans ((frame_setLines _ _).trans (frame_setState _ _ _ _))

theorem frame_deleteYankedText (e : Editor) : Frame e e.deleteYankedText := by
  unfold deleteYankedText
  split
  · exact frame_rfl e
  · split
    · exact frame_rfl e
    · dsimp only
      split
      · exact frame_setLine e _ _
      · exact frame_setState e _ _ _

/-! ### Changes of the text -/

/-- The state is kept for `undo`, and nothing else but the text is changed. -/
abbrev Edit (action : Option LastAction) (e e' : Editor) : Prop := Frame (e.pushUndoSnapshot.setLastAction action) e'

theorem edit_insertCharacter (e : Editor) (char : List ℕ) :
    if isWhitespaceChar char || e.lastAction ≠ some .typeWord then Edit (some .typeWord) e (e.insertCharacter char)
    else Frame (e.setLastAction (some .typeWord)) (e.insertCharacter char) := by
  have hframe : ∀ e₁ e₂ : Editor, Frame e₁ e₂ → Frame e₁ ((e₂.setLine (sliceTo e₂.state.currentLine e₂.state.cursorCol ++
      (char ++ sliceFrom e₂.state.currentLine e₂.state.cursorCol))).setCursorCol (e₂.state.cursorCol + char.length)) :=
    fun e₁ e₂ h => h.trans (frame_setLine e₂ _ _)
  unfold insertCharacter
  dsimp only
  change ite ((isWhitespaceChar char || decide (e.lastAction ≠ some .typeWord)) = true) _ _
  have haction : e.exitHistory.lastAction = e.lastAction := rfl
  rw [haction]
  split
  · exact hframe _ _ ⟨rfl, rfl, rfl, rfl, fun _ h => h⟩
  · exact hframe _ _ ⟨rfl, rfl, rfl, rfl, fun _ h => h⟩

theorem edit_insertTextAtCursor (e : Editor) (text : List ℕ) :
    Edit none e (e.insertTextAtCursor text) ∨ e.insertTextAtCursor text = e := by
  unfold insertTextAtCursor
  split
  · exact Or.inr rfl
  · exact Or.inl ((frame_exitHistory _).trans (frame_insertTextAtCursorInternal _ text))

theorem edit_setText (e : Editor) (text : List ℕ) :
    Edit none e (e.setText text) ∨ Frame (e.setLastAction none) (e.setText text) ∧ (e.setText text).getText = e.getText := by
  unfold setText
  dsimp only
  have htext : (e.setLastAction none).exitHistory.getText = e.getText := rfl
  rw [htext]
  split
  · refine Or.inl (Frame.trans ?_ (frame_setTextInternal _ _))
    exact ⟨rfl, rfl, rfl, rfl, fun _ h => h⟩
  · next hsame =>
    refine Or.inr ⟨(frame_exitHistory _).trans (frame_setTextInternal _ _), ?_⟩
    rw [(setTextInternal_at _ _).getText, List.append_nil, not_not.mp hsame]

theorem edit_handlePaste (e : Editor) (text : List ℕ) : Edit none e (e.handlePaste text) := by
  unfold handlePaste
  dsimp only
  split
  · refine Frame.trans ?_ (frame_insertTextAtCursorInternal _ _)
    exact ⟨rfl, rfl, rfl, rfl, fun _ h => h⟩
  · refine Frame.trans ?_ (frame_insertTextAtCursorInternal _ _)
    exact ⟨rfl, rfl, rfl, rfl, fun _ h => h⟩

theorem edit_addNewLine (e : Editor) : Edit none e e.addNewLine := ⟨rfl, rfl, rfl, rfl, fun c hc => by cases hc⟩

theorem edit_handleBackspace (u : Unicode) (e : Editor) :
    Edit none e (e.handleBackspace u) ∨ e.handleBackspace u = e.exitHistory.setLastAction none := by
  unfold handleBackspace
  dsimp only
  split
  · exact Or.inl ⟨rfl, rfl, rfl, rfl, fun c hc => by cases hc⟩
  · split
    · exact Or.inl ⟨rfl, rfl, rfl, rfl, fun c hc => by cases hc⟩
    · exact Or.inr rfl

theorem edit_handleForwardDelete (u : Unicode) (e : Editor) :
    Edit none e (e.handleForwardDelete u) ∨ e.handleForwardDelete u = e.exitHistory.setLastAction none := by
  unfold handleForwardDelete
  dsimp only
  split
  · exact Or.inl ⟨rfl, rfl, rfl, rfl, fun _ h => h⟩
  · split
    · exact Or.inl ⟨rfl, rfl, rfl, rfl, fun _ h => h⟩
    · exact Or.inr rfl

/-- A kill keeps the state, or does nothing. -/
theorem edit_kill (wordSegmenter : Segmenter) (op : KillOp) (e : Editor) :
    (∃ killed, Frame (e.pushUndoSnapshot.killText killed op.isBackward) (op.run wordSegmenter e)) ∨
      op.run wordSegmenter e = e.exitHistory := by
  cases op with
  | deleteToStartOfLine =>
    change (∃ killed, Frame (e.pushUndoSnapshot.killText killed true) e.deleteToStartOfLine) ∨ e.deleteToStartOfLine = _
    unfold Editor.deleteToStartOfLine
    dsimp only
    split
    · exact Or.inl ⟨_, rfl, rfl, rfl, rfl, fun c hc => by cases hc⟩
    · split
      · exact Or.inl ⟨[NEWLINE], rfl, rfl, rfl, rfl, fun c hc => by cases hc⟩
      · exact Or.inr rfl
  | deleteToEndOfLine =>
    change (∃ killed, Frame (e.pushUndoSnapshot.killText killed false) e.deleteToEndOfLine) ∨ e.deleteToEndOfLine = _
    unfold Editor.deleteToEndOfLine
    dsimp only
    split
    · exact Or.inl ⟨_, rfl, rfl, rfl, rfl, fun _ h => h⟩
    · split
      · exact Or.inl ⟨[NEWLINE], rfl, rfl, rfl, rfl, fun _ h => h⟩
      · exact Or.inr rfl
  | deleteWordBackwards =>
    change (∃ killed, Frame (e.pushUndoSnapshot.killText killed true) (e.deleteWordBackwards wordSegmenter)) ∨
      e.deleteWordBackwards wordSegmenter = _
    unfold Editor.deleteWordBackwards
    dsimp only
    split
    · split
      · exact Or.inl ⟨[NEWLINE], rfl, rfl, rfl, rfl, fun c hc => by cases hc⟩
      · exact Or.inr rfl
    · exact Or.inl ⟨_, rfl, rfl, rfl, rfl, fun c hc => by cases hc⟩
  | deleteWordForward =>
    change (∃ killed, Frame (e.pushUndoSnapshot.killText killed false) (e.deleteWordForward wordSegmenter)) ∨
      e.deleteWordForward wordSegmenter = _
    unfold Editor.deleteWordForward
    dsimp only
    split
    · split
      · exact Or.inl ⟨[NEWLINE], rfl, rfl, rfl, rfl, fun _ h => h⟩
      · exact Or.inr rfl
    · exact Or.inl ⟨_, rfl, rfl, rfl, rfl, fun c hc => by cases hc⟩

theorem edit_yank (e : Editor) : Edit (some .yank) e e.yank ∨ e.yank = e := by
  unfold yank
  split
  · exact Or.inr rfl
  · next text _ =>
    have hframe := frame_insertYankedText e.pushUndoSnapshot text
    exact Or.inl ⟨hframe.undoStack, hframe.killRing, hframe.lastWidth, rfl, hframe.preferred⟩

theorem addToHistory_eq (e : Editor) (text : List ℕ) : ∃ history, e.addToHistory text = { e with history := history } := by
  unfold addToHistory
  dsimp only
  split
  · exact ⟨_, rfl⟩
  · split
    · exact ⟨_, rfl⟩
    · exact ⟨_, rfl⟩

/-- A step through the history keeps the state where browsing starts. -/
theorem edit_navigateHistory (e : Editor) (older : Bool) :
    e.historyIndex = none ∧ Edit none e (e.navigateHistory older) ∨ Frame (e.setLastAction none) (e.navigateHistory older) ∧
      (e.historyIndex ≠ none ∨ (e.navigateHistory older).state = e.state) := by
  unfold navigateHistory
  dsimp only
  have hsame : Frame (e.setLastAction none) (e.setLastAction none) := frame_rfl _
  split
  · exact Or.inr ⟨hsame, Or.inr rfl⟩
  · split
    · split
      · exact Or.inr ⟨hsame, Or.inr rfl⟩
      · split
        · next hindex => exact Or.inl ⟨hindex, rfl, rfl, rfl, rfl, fun c hc => by cases hc⟩
        · next hindex => exact Or.inr ⟨⟨rfl, rfl, rfl, rfl, fun c hc => by cases hc⟩, Or.inl hindex⟩
    · split
      · exact Or.inr ⟨hsame, Or.inr rfl⟩
      · next hindex =>
        have hbrowsing : e.historyIndex ≠ none := fun hnone => by cases hindex.symm.trans hnone
        exact Or.inr ⟨⟨rfl, rfl, rfl, rfl, fun c hc => by cases hc⟩, Or.inl hbrowsing⟩
      · next hindex =>
        have hbrowsing : e.historyIndex ≠ none := fun hnone => by cases hindex.symm.trans hnone
        split
        · exact Or.inr ⟨hsame, Or.inl hbrowsing⟩
        · exact Or.inr ⟨⟨rfl, rfl, rfl, rfl, fun c hc => by cases hc⟩, Or.inl hbrowsing⟩

/-! ### Valid editors -/

/-- Where there is a snapshot it is well formed, and where there is an entry in the kill ring it has text. -/
structure Sound (e : Editor) : Prop where
  undoStack : ∀ s ∈ e.undoStack, s.WellFormed
  killRing : [] ∉ e.killRing
  lastWidth : 0 < e.lastWidth
  preferred : PreferredOk e

/-- What was yanked last stands before the cursor. -/
def Yanked (e : Editor) : Prop := ∃ before text after, e.killRing.peek = some text ∧ e.state.At (before ++ text) after

/-- An editor that its own operations can go on with. -/
structure Valid (e : Editor) : Prop extends Sound e where
  state : e.state.WellFormed
  yanked : e.lastAction = some .yank → e.Yanked

theorem Sound.frame (h : Sound e) (hframe : Frame e e') : Sound e' where
  undoStack := hframe.undoStack ▸ h.undoStack
  killRing := hframe.killRing ▸ h.killRing
  lastWidth := hframe.lastWidth ▸ h.lastWidth
  preferred := fun col hcol => h.preferred col (hframe.preferred col hcol)

theorem Sound.setLastAction (h : Sound e) (action : Option LastAction) : Sound (e.setLastAction action) :=
  ⟨h.undoStack, h.killRing, h.lastWidth, h.preferred⟩

theorem Sound.pushUndoSnapshot (h : Sound e) (hstate : e.state.WellFormed) : Sound e.pushUndoSnapshot :=
  ⟨List.forall_mem_cons.mpr ⟨hstate, h.undoStack⟩, h.killRing, h.lastWidth, h.preferred⟩

/-- No empty text is put into the kill ring. -/
theorem notMem_push {ring : KillRing} (h : [] ∉ ring) (text : List ℕ) (toFront accumulate : Bool) :
    [] ∉ ring.push text toFront accumulate := by
  unfold KillRing.push
  split
  · exact h
  · next hne =>
    split
    · next last rest =>
      obtain ⟨hlast, hrest⟩ := not_or.mp (fun hor => h (List.mem_cons.mpr hor))
      cases accumulate <;> cases toFront <;> simp_all [eq_comm]
    · simpa [eq_comm] using hne

theorem Sound.killText (h : Sound e) (text : List ℕ) (toFront : Bool) : Sound (e.killText text toFront) :=
  ⟨h.undoStack, notMem_push h.killRing _ _ _, h.lastWidth, h.preferred⟩

namespace Valid

/-- A change of the text that is kept for `undo`. -/
theorem edit {action : Option LastAction} (h : Valid e) (hedit : Edit action e e') (haction : action ≠ some .yank)
    (hstate : e'.state.WellFormed) : Valid e' where
  toSound := ((h.toSound.pushUndoSnapshot h.state).setLastAction action).frame hedit
  state := hstate
  yanked := fun hyank => absurd (hedit.lastAction.symm.trans hyank) haction

/-- A change that is not. -/
theorem keep {action : Option LastAction} (h : Valid e) (hframe : Frame (e.setLastAction action) e') (haction : action ≠ some .yank)
    (hstate : e'.state.WellFormed) : Valid e' where
  toSound := (h.toSound.setLastAction action).frame hframe
  state := hstate
  yanked := fun hyank => absurd (hframe.lastAction.symm.trans hyank) haction

theorem setLastAction_none (h : Valid e) : Valid (e.exitHistory.setLastAction none) :=
  h.keep (frame_exitHistory _) (fun hnone => by cases hnone) h.state

/-- A move of the cursor. -/
theorem move (h : Valid e) (hlands : Lands (e.setLastAction none) e') : Valid e' := by
  have hstate := hlands.wellFormed h.state
  have hpreferred := hlands.preferredOk
  obtain ⟨row, col, preferred, snapped, rfl, -⟩ := hlands
  exact ⟨⟨h.undoStack, h.killRing, h.lastWidth, hpreferred⟩, hstate, fun hyank => by cases hyank⟩

/-- A kill. -/
theorem kill (h : Valid e) (wordSegmenter : Segmenter) (op : KillOp) : Valid (op.run wordSegmenter e) := by
  obtain ⟨before, after, hat⟩ := h.state.exists_at
  by_cases hidle : op.Idle e
  · rw [KillOp.run_idle hidle]
    exact ⟨h.toSound.frame (frame_exitHistory e), h.state, h.yanked⟩
  · obtain ⟨killed, hkills, -⟩ := @KillOp.run_kills e before after wordSegmenter op hat hidle
    have hstate : (op.run wordSegmenter e).state.WellFormed := by
      have hsplit := hkills.state
      split at hsplit
      · obtain ⟨before', -, hat'⟩ := hsplit
        exact hat'.wellFormed
      · obtain ⟨after', -, hat'⟩ := hsplit
        exact hat'.wellFormed
    refine ⟨?_, hstate, fun hyank => by cases hkills.lastAction.symm.trans hyank⟩
    rcases edit_kill wordSegmenter op e with ⟨killed', hframe⟩ | hsame
    · exact ((h.toSound.pushUndoSnapshot h.state).killText killed' op.isBackward).frame hframe
    · rw [hsame]
      exact h.toSound.frame (frame_exitHistory e)

/-- The last entry of the kill ring is put before the cursor. -/
theorem yank (h : Valid e) : Valid e.yank := by
  rcases edit_yank e with hedit | hsame
  · obtain ⟨before, after, hat⟩ := h.state.exists_at
    have hsound := ((h.toSound.pushUndoSnapshot h.state).setLastAction (some .yank)).frame hedit
    have hkilled := hedit.killRing
    revert hsound hkilled
    unfold Editor.yank
    cases hpeek : e.killRing.peek with
    | none => exact fun _ _ => h
    | some text =>
      intro hsound hkilled
      have hinsert := @insertYankedText_at e.pushUndoSnapshot before after hat text
      refine ⟨hsound, hinsert.wellFormed, fun _ => ⟨before, text, after, ?_, hinsert⟩⟩
      rw [hkilled]
      exact hpeek
  · rw [hsame]
    exact h

/-- The entry before it is put in its place. -/
theorem yankPop (h : Valid e) : Valid e.yankPop ∧ (e.yankPop = e ∨ e.yankPop.undoStack = e.state :: e.undoStack) := by
  rcases yankPop_cases e with hsame | ⟨hlast, text, text', rest, hring⟩
  · rw [hsame]
    exact ⟨h, Or.inl rfl⟩
  · obtain ⟨before, text₀, after, hpeek, hat⟩ := h.yanked hlast
    obtain rfl : text = text₀ := Option.some.inj (by rw [← hpeek, hring]; rfl)
    have hpop := yankPop_at hat hlast hring
    rw [yankPop_of hlast hring] at hpop ⊢
    have hdelete := frame_deleteYankedText e.pushUndoSnapshot
    have hsound := (h.toSound.pushUndoSnapshot h.state).frame hdelete
    have hrotated : Sound { e.pushUndoSnapshot.deleteYankedText with killRing := text' :: (rest ++ [text]) } := by
      refine ⟨hsound.undoStack, ?_, hsound.lastWidth, hsound.preferred⟩
      have hkept := h.killRing
      rw [hring] at hkept
      simp only [List.mem_cons, List.mem_append, List.not_mem_nil, or_false, not_or] at hkept ⊢
      exact ⟨hkept.2.1, hkept.2.2, hkept.1⟩
    have hinsert := frame_insertYankedText { e.pushUndoSnapshot.deleteYankedText with killRing := text' :: (rest ++ [text]) } text'
    refine ⟨⟨(hrotated.frame hinsert).setLastAction _, hpop.wellFormed, fun _ => ⟨before, text', after, ?_, hpop⟩⟩,
      Or.inr (hinsert.undoStack.trans hdelete.undoStack)⟩
    exact congrArg List.head? hinsert.killRing

/-- A step through the history. -/
theorem navigateHistory (h : Valid e) (older : Bool) : Valid (e.navigateHistory older) := by
  have hstate : (e.navigateHistory older).state.WellFormed := by
    unfold Editor.navigateHistory
    dsimp only
    split
    · exact h.state
    · split
      · split
        · exact h.state
        · exact (setTextInternal_at _ _).wellFormed
      · split
        · exact h.state
        · exact (setTextInternal_at _ _).wellFormed
        · split
          · exact h.state
          · exact (setTextInternal_at _ _).wellFormed
  rcases edit_navigateHistory e older with ⟨-, hedit⟩ | ⟨hframe, -⟩
  · exact h.edit hedit (fun hnone => by cases hnone) hstate
  · exact h.keep hframe (fun hnone => by cases hnone) hstate

/-- The last snapshot is taken back. -/
theorem undo (h : Valid e) : Valid e.undo := by
  unfold Editor.undo
  dsimp only
  split
  · exact ⟨h.toSound.frame (frame_exitHistory e), h.state, h.yanked⟩
  · next snapshot rest hstack =>
    obtain ⟨hsnapshot, hrest⟩ := List.forall_mem_cons.mp (hstack ▸ h.undoStack : ∀ s ∈ snapshot :: rest, s.WellFormed)
    exact ⟨⟨hrest, h.killRing, h.lastWidth, fun c hc => by cases hc⟩, hsnapshot, fun hyank => by cases hyank⟩

/-- A safe move ends at a place in the text. -/
theorem lands_of_move (h : Valid e) (hmove : op.isMove) (hsafe : Safe u calls e op)
    (hstep : Editor.step u wordSegmenter calls e op = some e') : Lands (e.setLastAction none) e' := by
  cases op with
  | moveToLineStart =>
    obtain rfl := Option.some.inj hstep
    exact @lands_setCursorCol (e.setLastAction none) h.state 0 (Int.le_refl 0) (Int.natCast_nonneg _)
  | moveToLineEnd =>
    obtain rfl := Option.some.inj hstep
    exact @lands_setCursorCol (e.setLastAction none) h.state _ (Int.natCast_nonneg _) (Int.le_refl _)
  | moveWordBackwards =>
    obtain rfl := Option.some.inj hstep
    exact lands_moveWordBackwards h.state h.preferred wordSegmenter
  | moveWordForwards =>
    obtain rfl := Option.some.inj hstep
    exact lands_moveWordForwards h.state h.preferred wordSegmenter
  | moveCursorLine down => exact lands_moveCursorLine h.state h.lastWidth h.preferred hsafe hstep
  | moveCursorCol right => exact lands_moveCursorCol h.state h.lastWidth h.preferred hstep
  | pageScroll down terminalRows =>
    exact lands_pageScroll h.state h.lastWidth h.preferred (fun vls hvls => (hsafe vls hvls).1)
      (fun hdown vls hvls => (hsafe vls hvls).2 hdown) hstep
  | jumpToChar char isForward =>
    obtain rfl := Option.some.inj hstep
    exact lands_jumpToChar h.state h.preferred char isForward
  | _ => cases hmove

/-- **A safe step leads from a valid editor to a valid one.** -/
theorem step (h : Valid e) (hsafe : Safe u calls e op) (hstep : Editor.step u wordSegmenter calls e op = some e') : Valid e' := by
  obtain ⟨before, after, hat⟩ := h.state.exists_at
  have hnone : (none : Option LastAction) ≠ some .yank := fun hnone => by cases hnone
  cases op with
  | insertCharacter char =>
    obtain rfl := Option.some.inj hstep
    have hstate := (insertCharacter_at hat hsafe).wellFormed
    have hedit := edit_insertCharacter e char
    split at hedit
    · exact h.edit hedit (fun hyank => by cases hyank) hstate
    · exact h.keep hedit (fun hyank => by cases hyank) hstate
  | insertTextAtCursor text =>
    obtain rfl := Option.some.inj hstep
    rcases edit_insertTextAtCursor e text with hedit | hsame
    · refine h.edit hedit hnone ?_
      unfold Editor.insertTextAtCursor
      split
      · exact h.state
      · exact (@insertTextAtCursorInternal_at ((e.pushUndoSnapshot.setLastAction none).exitHistory) before after hat text).wellFormed
    · rw [hsame]
      exact h
  | setText text =>
    obtain rfl := Option.some.inj hstep
    have hstate : (e.setText text).state.WellFormed := (setTextInternal_at _ _).wellFormed
    rcases edit_setText e text with hedit | ⟨hframe, -⟩
    · exact h.edit hedit hnone hstate
    · exact h.keep hframe hnone hstate
  | handlePaste text =>
    obtain rfl := Option.some.inj hstep
    refine h.edit (edit_handlePaste e text) hnone ?_
    unfold Editor.handlePaste
    dsimp only
    split
    · exact (@insertTextAtCursorInternal_at { (e.exitHistory.setLastAction none).pushUndoSnapshot with
        pasteCounter := _, pastes := _ } before after hat _).wellFormed
    · exact (@insertTextAtCursorInternal_at (e.exitHistory.setLastAction none).pushUndoSnapshot before after hat _).wellFormed
  | addNewLine =>
    obtain rfl := Option.some.inj hstep
    exact h.edit (edit_addNewLine e) hnone (addNewLine_at hat).wellFormed
  | handleBackspace =>
    obtain rfl := Option.some.inj hstep
    obtain ⟨before', deleted, -, hat'⟩ := handleBackspace_at hat u
    rcases edit_handleBackspace u e with hedit | hsame
    · exact h.edit hedit hnone hat'.wellFormed
    · rw [hsame]
      exact h.setLastAction_none
  | handleForwardDelete =>
    obtain rfl := Option.some.inj hstep
    obtain ⟨deleted, after', -, hat'⟩ := handleForwardDelete_at hat u
    rcases edit_handleForwardDelete u e with hedit | hsame
    · exact h.edit hedit hnone hat'.wellFormed
    · rw [hsame]
      exact h.setLastAction_none
  | kill op =>
    obtain rfl := Option.some.inj hstep
    exact h.kill wordSegmenter op
  | yank =>
    obtain rfl := Option.some.inj hstep
    exact h.yank
  | yankPop =>
    obtain rfl := Option.some.inj hstep
    exact h.yankPop.1
  | undo =>
    obtain rfl := Option.some.inj hstep
    exact h.undo
  | navigateHistory older =>
    obtain rfl := Option.some.inj hstep
    exact h.navigateHistory older
  | addToHistory text =>
    obtain rfl := Option.some.inj hstep
    obtain ⟨history, hhistory⟩ := addToHistory_eq e text
    rw [hhistory]
    exact ⟨⟨h.undoStack, h.killRing, h.lastWidth, h.preferred⟩, h.state, h.yanked⟩
  | submitValue =>
    obtain rfl := Option.some.inj hstep
    exact ⟨⟨fun s hs => absurd hs List.not_mem_nil, h.killRing, h.lastWidth, h.preferred⟩,
      (EditorState.at_mk rfl rfl rfl rfl rfl : (⟨[] ++ [] :: [], 0, 0⟩ : EditorState).At [] []).wellFormed, fun hyank => by cases hyank⟩
  | render width =>
    obtain rfl := Option.some.inj hstep
    exact ⟨⟨h.undoStack, h.killRing, Nat.lt_of_lt_of_le Nat.one_pos (Nat.le_max_left _ _), h.preferred⟩, h.state, h.yanked⟩
  | moveToLineStart | moveToLineEnd | moveWordBackwards | moveWordForwards | moveCursorLine _ | moveCursorCol _
  | pageScroll _ _ | jumpToChar _ _ => exact h.move (h.lands_of_move rfl hsafe hstep)

end Valid

/-! ### Undo -/

/-- **A step that can be undone keeps the state before it.** -/
theorem undoStack_of_undoable (h : Valid e) (hsafe : Safe u calls e op) (hstep : step u wordSegmenter calls e op = some e')
    (hundoable : Undoable e op e') : e'.undoStack = e.state :: e.undoStack := by
  obtain ⟨htext, hfirst, hundo, hsubmit⟩ := hundoable
  have hsame : ∀ e₁ : Editor, e' = e₁ → e₁.state = e.state → False := by
    rintro _ rfl hstate
    exact htext (by rw [Editor.getText, hstate]; rfl)
  cases op with
  | insertCharacter char =>
    obtain rfl := Option.some.inj hstep
    have hedit := edit_insertCharacter e char
    split at hedit
    · exact hedit.undoStack
    · next hgoesOn => exact absurd (by simpa [Coalesced, and_comm] using hgoesOn) hfirst
  | insertTextAtCursor text =>
    obtain rfl := Option.some.inj hstep
    exact ((edit_insertTextAtCursor e text).resolve_right fun heq => hsame _ heq rfl).undoStack
  | setText text =>
    obtain rfl := Option.some.inj hstep
    exact ((edit_setText e text).resolve_right fun hframe => htext hframe.2).undoStack
  | handlePaste text =>
    obtain rfl := Option.some.inj hstep
    exact (edit_handlePaste e text).undoStack
  | addNewLine =>
    obtain rfl := Option.some.inj hstep
    exact (edit_addNewLine e).undoStack
  | handleBackspace =>
    obtain rfl := Option.some.inj hstep
    exact ((edit_handleBackspace u e).resolve_right fun heq => hsame _ heq rfl).undoStack
  | handleForwardDelete =>
    obtain rfl := Option.some.inj hstep
    exact ((edit_handleForwardDelete u e).resolve_right fun heq => hsame _ heq rfl).undoStack
  | kill op =>
    obtain rfl := Option.some.inj hstep
    obtain ⟨killed, hframe⟩ := (edit_kill wordSegmenter op e).resolve_right fun heq => hsame _ heq rfl
    exact hframe.undoStack
  | yank =>
    obtain rfl := Option.some.inj hstep
    exact ((edit_yank e).resolve_right fun heq => hsame _ heq rfl).undoStack
  | yankPop =>
    obtain rfl := Option.some.inj hstep
    exact h.yankPop.2.resolve_left fun heq => hsame _ heq rfl
  | navigateHistory older =>
    obtain rfl := Option.some.inj hstep
    exact ((edit_navigateHistory e older).resolve_right fun hframe => hframe.2.elim hfirst (hsame _ rfl)).2.undoStack
  | addToHistory text =>
    obtain rfl := Option.some.inj hstep
    obtain ⟨history, hhistory⟩ := addToHistory_eq e text
    exact (hsame _ hhistory rfl).elim
  | undo => exact absurd rfl hundo
  | submitValue => exact absurd rfl hsubmit
  | render width =>
    obtain rfl := Option.some.inj hstep
    exact (hsame _ rfl rfl).elim
  | moveToLineStart | moveToLineEnd | moveWordBackwards | moveWordForwards | moveCursorLine _ | moveCursorCol _
  | pageScroll _ _ | jumpToChar _ _ =>
    obtain ⟨row, col, preferred, snapped, rfl, -⟩ := h.lands_of_move rfl hsafe hstep
    exact absurd rfl htext

/-- What goes on with the step before it leaves the snapshots alone. -/
theorem undoStack_of_coalesced (hcoalesced : e.Coalesced op) (hstep : step u wordSegmenter calls e op = some e') :
    e'.undoStack = e.undoStack := by
  cases op with
  | insertCharacter char =>
    obtain rfl := Option.some.inj hstep
    have hedit := edit_insertCharacter e char
    split at hedit
    · next hfirst => exact absurd hfirst (by simp [hcoalesced.1, hcoalesced.2])
    · exact hedit.undoStack
  | navigateHistory older =>
    obtain rfl := Option.some.inj hstep
    exact ((edit_navigateHistory e older).resolve_left fun hfirst => hcoalesced hfirst.1).1.undoStack
  | _ => exact hcoalesced.elim

/-- **Undo is exact**, also after what has gone on with the step. -/
theorem undo_gives_back {ops : List Op} (h : Valid e) (hsafe : Safe u calls e op) (hstep : step u wordSegmenter calls e op = some e')
    (hundoable : Undoable e op e') (hcoalesced : Machine.Throughout (step u wordSegmenter calls) Coalesced e' ops)
    (hrun : Machine.run (step u wordSegmenter calls) e' ops = some e'') : e''.undo.state = e.state := by
  have hkept : e''.undoStack = e.state :: e.undoStack :=
    Machine.inv_throughout (fun _ _ _ hstack hgoesOn hs => (undoStack_of_coalesced hgoesOn hs).trans hstack) ops
      (undoStack_of_undoable h hsafe hstep hundoable) hcoalesced hrun
  have hstack : e''.exitHistory.undoStack = e.state :: e.undoStack := hkept
  unfold undo
  dsimp only
  rw [hstack]

/-! ### Runs -/

theorem valid_new (paddingX : ℕ) : Valid (new paddingX) where
  undoStack := fun s hs => absurd hs List.not_mem_nil
  killRing := List.not_mem_nil
  lastWidth := Nat.zero_lt_succ 79
  preferred := fun c hc => by cases hc
  state := by constructor <;> simp [new, EditorState.currentLine, EditorState.lineAt]
  yanked := fun hyank => by cases hyank

/-- **The editor stays well formed, and undo is exact**, in every run of safe steps. -/
theorem wellFormed_and_undo_exact {paddingX : ℕ} {ops : List Op}
    (hsafe : Machine.Throughout (step u wordSegmenter calls) (Safe u calls) (new paddingX) ops)
    (hrun : Machine.run (step u wordSegmenter calls) (new paddingX) ops = some e) :
    e.state.WellFormed ∧ ∀ op e' ops' e'', Safe u calls e op → step u wordSegmenter calls e op = some e' → Undoable e op e' →
      Machine.Throughout (step u wordSegmenter calls) Coalesced e' ops' →
        Machine.run (step u wordSegmenter calls) e' ops' = some e'' → e''.undo.state = e.state := by
  have hvalid : Valid e :=
    Machine.inv_throughout (fun _ _ _ h hs hstep => h.step hs hstep) ops (valid_new paddingX) hsafe hrun
  exact ⟨hvalid.state, fun op e' ops' e'' hs hstep hundoable hgoesOn hrun' =>
    undo_gives_back hvalid hs hstep hundoable hgoesOn hrun'⟩

/-- A line, a line feed, a move up; and what is typed there can be undone. -/
theorem wellFormed_and_undo_exact_lines :
    ∃ e, Machine.run (step Unicode.uncombined oneWord 1) (new 0)
        [.insertCharacter (ascii "ab"), .addNewLine, .moveCursorLine false] = some e ∧
      e.state.WellFormed ∧ (e.insertCharacter (ascii "c")).undo.state = e.state := by
  have hmap : (Machine.run (step Unicode.uncombined oneWord 1) (new 0)
      [.insertCharacter (ascii "ab"), .addNewLine, .moveCursorLine false]).map
        (fun e => (decide ((e.insertCharacter (ascii "c")).getText = e.getText), e.lastAction)) = some (false, none) := by
    decide +kernel
  obtain ⟨e, hrun, heq⟩ := Option.map_eq_some_iff.mp hmap
  obtain ⟨htext, haction⟩ := Prod.mk.inj heq
  have hsafe : Machine.Throughout (step Unicode.uncombined oneWord 1) (Safe Unicode.uncombined 1) (new 0)
      [.insertCharacter (ascii "ab"), .addNewLine, .moveCursorLine false] := by
    refine Machine.throughout_cons (show NEWLINE ∉ ascii "ab" by decide) rfl (Machine.throughout_cons trivial rfl ⟨?_, fun _ _ => trivial⟩)
    rintro vls - col hsnapped
    exact (Option.some_ne_none col (hsnapped.symm.trans rfl)).elim
  obtain ⟨hwell, hundo⟩ := wellFormed_and_undo_exact hsafe hrun
  refine ⟨e, hrun, hwell, hundo (.insertCharacter (ascii "c")) _ [] _ (show NEWLINE ∉ ascii "c" by decide) rfl ⟨?_, ?_, ?_, ?_⟩ trivial rfl⟩
  · exact of_decide_eq_false htext
  · rintro ⟨htyped, -⟩
    exact Option.some_ne_none _ (htyped.symm.trans haction)
  · exact fun hundo => by cases hundo
  · exact fun hsubmit => by cases hsubmit

/-- A move down into the marker of a paste, a kill of the marker, and a move up: the cursor is put before the
start of the line, since the column in the marker is looked up in the last visual line. -/
theorem wellFormed_stale_column :
    ∃ e, Machine.run (step Unicode.uncombined oneWord 3) (new 0)
        [.render 11, .insertCharacter (ascii "xxx"), .addNewLine, .handlePaste (List.replicate 10 NEWLINE), .addNewLine,
          .insertCharacter (List.replicate 30 0x79), .moveToLineStart, .moveCursorLine false, .moveCursorLine false,
          .moveToLineEnd, .moveCursorLine true, .kill .deleteToEndOfLine, .moveCursorLine false] = some e ∧
      ¬ e.state.WellFormed := by
  have hcol : (Machine.run (step Unicode.uncombined oneWord 3) (new 0)
      [.render 11, .insertCharacter (ascii "xxx"), .addNewLine, .handlePaste (List.replicate 10 NEWLINE), .addNewLine,
        .insertCharacter (List.replicate 30 0x79), .moveToLineStart, .moveCursorLine false, .moveCursorLine false,
        .moveToLineEnd, .moveCursorLine true, .kill .deleteToEndOfLine, .moveCursorLine false]).map (·.state.cursorCol) =
      some (-17) := by decide +kernel
  obtain ⟨e, hrun, heq⟩ := Option.map_eq_some_iff.mp hcol
  refine ⟨e, hrun, fun hwell => ?_⟩
  have := hwell.cursorCol.1
  omega

end Trek.Editor
