/-
# Kill and yank

The kills delete from the cursor to the end of a word or of the line and keep what they delete in the
kill ring; kills one after the other are kept as one entry, where a kill backwards puts its text before
the entry. `yank` inserts the last entry, `yankPop` takes it back and inserts the one before.
-/
import Trek.Editor.Motion

namespace Trek.Editor

/-- `killRing.push(text, ...)`, with the text of the last kill if that was the last action. -/
def killText (e : Editor) (text : List ℕ) (toFront : Bool) : Editor :=
  { e with killRing := e.killRing.push text toFront (e.lastAction = some .kill), lastAction := some .kill }

/-- `deleteToStartOfLine`. -/
def deleteToStartOfLine (e : Editor) : Editor :=
  let e := e.exitHistory
  let currentLine := e.state.currentLine
  if 0 < e.state.cursorCol then
    let e := e.pushUndoSnapshot.killText (sliceTo currentLine e.state.cursorCol) true
    (e.setLine (sliceFrom currentLine e.state.cursorCol)).setCursorCol 0
  else if 0 < e.state.cursorLine then (e.pushUndoSnapshot.killText [NEWLINE] true).mergeWithPrevious
  else e

/-- `deleteToEndOfLine`. -/
def deleteToEndOfLine (e : Editor) : Editor :=
  let e := e.exitHistory
  let currentLine := e.state.currentLine
  if e.state.cursorCol < currentLine.length then
    let e := e.pushUndoSnapshot.killText (sliceFrom currentLine e.state.cursorCol) false
    e.setLine (sliceTo currentLine e.state.cursorCol)
  else if e.state.cursorLine < e.state.lines.length - 1 then (e.pushUndoSnapshot.killText [NEWLINE] false).mergeWithNext
  else e

/-- `deleteWordBackwards`. -/
def deleteWordBackwards (wordSegmenter : Segmenter) (e : Editor) : Editor :=
  let e := e.exitHistory
  let currentLine := e.state.currentLine
  if e.state.cursorCol = 0 then
    if 0 < e.state.cursorLine then (e.pushUndoSnapshot.killText [NEWLINE] true).mergeWithPrevious else e
  else
    let e := e.pushUndoSnapshot
    let deleteFrom := (e.moveWordBackwards wordSegmenter).state.cursorCol
    let e := e.killText (sliceBetween currentLine deleteFrom e.state.cursorCol) true
    (e.setLine (sliceTo currentLine deleteFrom ++ sliceFrom currentLine e.state.cursorCol)).setCursorCol deleteFrom

/-- `deleteWordForward`. -/
def deleteWordForward (wordSegmenter : Segmenter) (e : Editor) : Editor :=
  let e := e.exitHistory
  let currentLine := e.state.currentLine
  if currentLine.length ≤ e.state.cursorCol then
    if e.state.cursorLine < e.state.lines.length - 1 then (e.pushUndoSnapshot.killText [NEWLINE] false).mergeWithNext else e
  else
    let e := e.pushUndoSnapshot
    let deleteTo := (e.moveWordForwards wordSegmenter).state.cursorCol
    let e := e.setCursorCol e.state.cursorCol
    let e := e.killText (sliceBetween currentLine e.state.cursorCol deleteTo) false
    e.setLine (sliceTo currentLine e.state.cursorCol ++ sliceFrom currentLine deleteTo)

/-- The middle lines of `insertYankedText`, one after the other. -/
def spliceLines : List (List ℕ) → ℕ → List (List ℕ) → List (List ℕ)
  | lines, _, [] => lines
  | lines, i, line :: rest => spliceLines (splice lines i 0 [line]) (i + 1) rest

/-- `insertYankedText`. -/
def insertYankedText (e : Editor) (text : List ℕ) : Editor :=
  let e := e.exitHistory
  let lines := text.splitOn NEWLINE
  let before := sliceTo e.state.currentLine e.state.cursorCol
  let after := sliceFrom e.state.currentLine e.state.cursorCol
  if lines.length = 1 then (e.setLine (before ++ (text ++ after))).setCursorCol (e.state.cursorCol + text.length)
  else
    let last := lines.getLastD []
    let lastLineIndex := e.state.cursorLine + lines.length - 1
    let e := e.setLine (before ++ lines.headD [])
    let e := e.setLines (spliceLines e.state.lines (e.state.cursorLine + 1) lines.tail.dropLast)
    let e := e.setLines (splice e.state.lines lastLineIndex 0 [last ++ after])
    (e.setCursorLine lastLineIndex).setCursorCol last.length

/-- `deleteYankedText`. -/
def deleteYankedText (e : Editor) : Editor :=
  match e.killRing.peek with
  | none => e
  | some yankedText =>
    if yankedText = [] then e
    else
      let yankLines := yankedText.splitOn NEWLINE
      if yankLines.length = 1 then
        let col := e.state.cursorCol - yankedText.length
        (e.setLine (sliceTo e.state.currentLine col ++ sliceFrom e.state.currentLine e.state.cursorCol)).setCursorCol col
      else
        let startLine := e.state.cursorLine - (yankLines.length - 1)
        let startCol : ℤ := (e.state.lineAt startLine).length - (yankLines.headD []).length
        let afterCursor := sliceFrom e.state.currentLine e.state.cursorCol
        let beforeYank := sliceTo (e.state.lineAt startLine) startCol
        ((e.setLines (splice e.state.lines startLine yankLines.length [beforeYank ++ afterCursor])).setCursorLine
          startLine).setCursorCol startCol

/-- `yank`. -/
def yank (e : Editor) : Editor :=
  match e.killRing.peek with
  | none => e
  | some text => (e.pushUndoSnapshot.insertYankedText text).setLastAction (some .yank)

/-- `yankPop`. -/
def yankPop (e : Editor) : Editor :=
  if e.lastAction ≠ some .yank ∨ e.killRing.length ≤ 1 then e
  else
    let e := e.pushUndoSnapshot.deleteYankedText
    let e := { e with killRing := e.killRing.rotate }
    match e.killRing.peek with
    | none => e
    | some text => (e.insertYankedText text).setLastAction (some .yank)

end Trek.Editor
