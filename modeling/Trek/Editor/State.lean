/-
# The editor

The text of the editor is a list of lines, and the cursor is a row and a column in them. An operation
changes them by slicing and splicing; what changes the text keeps a snapshot of both for `undo` first,
unless it goes on with typing that a snapshot was kept for (`insertCharacter`). Columns are integers,
since nothing but the operations themselves keeps them in range.
-/
import Trek.Editor.WordWrap
import Trek.Lib.Lines
import Trek.Lib.OrdMap

namespace Trek.Editor

open Trek.Tui

/-- A line feed. -/
def NEWLINE : ℕ := 0x0a

/-! ### Slices -/

/-- Where `slice` cuts a text of a length: a position below zero counts from its end. -/
def sliceIndex (length : ℕ) (k : ℤ) : ℕ := if k < 0 then (length + k).toNat else min k.toNat length

/-- `text.slice(0, k)`. -/
def sliceTo (text : List ℕ) (k : ℤ) : List ℕ := text.take (sliceIndex text.length k)

/-- `text.slice(k)`. -/
def sliceFrom (text : List ℕ) (k : ℤ) : List ℕ := text.drop (sliceIndex text.length k)

/-- `text.slice(a, b)`. -/
def sliceBetween (text : List ℕ) (a b : ℤ) : List ℕ := (sliceTo text b).drop (sliceIndex text.length a)

/-- `list.splice(start, deleteCount, ...items)`. -/
def splice {α : Type*} (list : List α) (start deleteCount : ℕ) (items : List α) : List α :=
  list.take start ++ (items ++ list.drop (start + deleteCount))

/-- `text.trim()`. -/
def trim (text : List ℕ) : List ℕ :=
  ((text.dropWhile fun c => isWhitespaceChar [c]).reverse.dropWhile fun c => isWhitespaceChar [c]).reverse

/-- The decimal digits of a number. -/
def decimal (n : ℕ) : List ℕ := (Nat.toDigits 10 n).map Char.toNat

/-! ### Pasted text -/

/-- `\r\n` becomes `\n`. -/
def joinLineEndings : List ℕ → List ℕ
  | [] => []
  | 0x0d :: 0x0a :: text => NEWLINE :: joinLineEndings text
  | c :: text => c :: joinLineEndings text

/-- `normalizeText`. -/
def normalizeText (text : List ℕ) : List ℕ :=
  ((joinLineEndings text).map fun c => if c = 0x0d then NEWLINE else c).flatMap fun c =>
    if c = 0x09 then [0x20, 0x20, 0x20, 0x20] else [c]

/-- `\x1b\[(\d+);5u` at the start of a text: its digits and its length. -/
def matchControl : List ℕ → Option (List ℕ × ℕ)
  | 0x1b :: 0x5b :: text =>
    let digits := text.takeWhile isDigit
    if digits ≠ [] ∧ (ascii ";5u").isPrefixOf (text.drop digits.length) then some (digits, digits.length + 5) else none
  | _ => none

/-- The control character that a terminal has written as a key, or what it has written. -/
def decodeControl (code : ℕ) (text : List ℕ) : List ℕ :=
  if 97 ≤ code ∧ code ≤ 122 then [code - 96] else if 65 ≤ code ∧ code ≤ 90 then [code - 64] else text

/-- `pastedText.replace(/\x1b\[(\d+);5u/g, ...)`, without as many characters as are left of a match. -/
def decodeControls : ℕ → List ℕ → List ℕ
  | _, [] => []
  | skip + 1, _ :: text => decodeControls skip text
  | 0, c :: text =>
    match matchControl (c :: text) with
    | some (digits, length) => decodeControl (parseDigits digits) ((c :: text).take length) ++ decodeControls (length - 1) text
    | none => c :: decodeControls 0 text

/-- `/\w/`. -/
def isWordUnit (c : ℕ) : Bool := 0x30 ≤ c && c ≤ 0x39 || 0x41 ≤ c && c ≤ 0x5a || c = 0x5f || 0x61 ≤ c && c ≤ 0x7a

/-! ### Paste markers -/

/-- A marker of the paste at the start of a text, `\[paste #ID( (\+\d+ lines|\d+ chars))?\]`: its length. -/
def matchMarkerOf (pasteId : ℕ) (text : List ℕ) : Option ℕ :=
  let start := MARKER_START ++ decimal pasteId
  if start.isPrefixOf text then (markerTailLength (text.drop start.length)).map (start.length + ·) else none

/-- `result.replace(markerRegex, () => pasteContent)`, without as many characters as are left of a match. -/
def replaceMarkers (pasteId : ℕ) (pasteContent : List ℕ) : ℕ → List ℕ → List ℕ
  | _, [] => []
  | skip + 1, _ :: text => replaceMarkers pasteId pasteContent skip text
  | 0, c :: text =>
    match matchMarkerOf pasteId (c :: text) with
    | some length => pasteContent ++ replaceMarkers pasteId pasteContent (length - 1) text
    | none => c :: replaceMarkers pasteId pasteContent 0 text

/-- `expandPasteMarkers`. -/
def expandPasteMarkers (pastes : List (ℕ × List ℕ)) (text : List ℕ) : List ℕ :=
  pastes.foldl (fun result paste => replaceMarkers paste.1 paste.2 0 result) text

/-! ### Kill ring -/

/-- `KillRing`: the entries, the most recent first. -/
abbrev KillRing := List (List ℕ)

namespace KillRing

/-- `push`. -/
def push (ring : KillRing) (text : List ℕ) (toFront accumulate : Bool) : KillRing :=
  if text = [] then ring
  else
    match ring with
    | last :: rest => if accumulate then (if toFront then text ++ last else last ++ text) :: rest else text :: last :: rest
    | [] => [text]

/-- `peek`. -/
def peek (ring : KillRing) : Option (List ℕ) := ring.head?

/-- `rotate`. -/
def rotate : KillRing → KillRing
  | last :: rest => rest ++ [last]
  | [] => []

end KillRing

/-! ### The state -/

/-- `EditorState`. -/
structure EditorState where
  lines : List (List ℕ)
  cursorLine : ℕ
  cursorCol : ℤ
  deriving DecidableEq

/-- What the last operation was. -/
inductive LastAction where
  | kill
  | yank
  | typeWord
  deriving DecidableEq

namespace EditorState

/-- `lines[i] || ""`. -/
def lineAt (s : EditorState) (i : ℕ) : List ℕ := s.lines.getD i []

/-- The line of the cursor. -/
def currentLine (s : EditorState) : List ℕ := s.lineAt s.cursorLine

end EditorState

end Trek.Editor

namespace Trek

open Editor

/-- `Editor`. The undo stack has its last snapshot first; `historyIndex` is `none` where the source has -1. -/
structure Editor where
  state : EditorState
  paddingX : ℕ
  lastWidth : ℕ
  pastes : OrdMap ℕ (List ℕ)
  pasteCounter : ℕ
  history : List (List ℕ)
  historyIndex : Option ℕ
  killRing : KillRing
  lastAction : Option LastAction
  preferredVisualCol : Option ℤ
  snappedFromCursorCol : Option ℤ
  undoStack : List EditorState

end Trek

namespace Trek.Editor

open Trek.Tui

/-- A new editor. -/
def new (paddingX : ℕ) : Editor where
  state := ⟨[[]], 0, 0⟩
  paddingX := paddingX
  lastWidth := 80
  pastes := OrdMap.empty
  pasteCounter := 0
  history := []
  historyIndex := none
  killRing := []
  lastAction := none
  preferredVisualCol := none
  snappedFromCursorCol := none
  undoStack := []

/-- `getText`. -/
def getText (e : Editor) : List ℕ := [NEWLINE].intercalate e.state.lines

/-- `setCursorCol`. -/
def setCursorCol (e : Editor) (col : ℤ) : Editor :=
  { e with state := { e.state with cursorCol := col }, preferredVisualCol := none, snappedFromCursorCol := none }

/-- `this.state.lines = lines`. -/
def setLines (e : Editor) (lines : List (List ℕ)) : Editor := { e with state := { e.state with lines := lines } }

/-- `this.state.lines[this.state.cursorLine] = line`. -/
def setLine (e : Editor) (line : List ℕ) : Editor := e.setLines (e.state.lines.set e.state.cursorLine line)

/-- `this.state.cursorLine = row`. -/
def setCursorLine (e : Editor) (row : ℕ) : Editor := { e with state := { e.state with cursorLine := row } }

/-- `pushUndoSnapshot`. -/
def pushUndoSnapshot (e : Editor) : Editor := { e with undoStack := e.state :: e.undoStack }

/-- `this.lastAction = action`. -/
def setLastAction (e : Editor) (action : Option LastAction) : Editor := { e with lastAction := action }

/-- History browsing mode is left. -/
def exitHistory (e : Editor) : Editor := { e with historyIndex := none }

/-- `validPasteIds`. -/
def validPasteIds (e : Editor) : List ℕ := e.pastes.keys

/-- `this.segment(text, mode)`. -/
def segment (e : Editor) (segmenter : Segmenter) (text : List ℕ) : List SegmentData :=
  segmentWithMarkers text segmenter e.validPasteIds

/-! ### Text of the editor as a whole -/

/-- `setTextInternal`. -/
def setTextInternal (e : Editor) (text : List ℕ) : Editor :=
  let lines := text.splitOn NEWLINE
  ((e.setLines lines).setCursorLine (lines.length - 1)).setCursorCol ((lines.getD (lines.length - 1) []).length)

/-- `setText`. -/
def setText (e : Editor) (text : List ℕ) : Editor :=
  let e := (e.setLastAction none).exitHistory
  let normalized := normalizeText text
  let e := if e.getText ≠ normalized then e.pushUndoSnapshot else e
  e.setTextInternal normalized

/-- `addToHistory`. -/
def addToHistory (e : Editor) (text : List ℕ) : Editor :=
  let trimmed := trim text
  if trimmed = [] then e
  else if e.history.head? = some trimmed then e
  else { e with history := (trimmed :: e.history).take 100 }

/-- `navigateHistory`: `true` is the direction -1, to older entries. -/
def navigateHistory (e : Editor) (older : Bool) : Editor :=
  let e := e.setLastAction none
  if e.history = [] then e
  else if older then
    let newIndex := (e.historyIndex.map (· + 1)).getD 0
    if e.history.length ≤ newIndex then e
    else
      let e := if e.historyIndex = none then e.pushUndoSnapshot else e
      { e with historyIndex := some newIndex }.setTextInternal (e.history.getD newIndex [])
  else
    match e.historyIndex with
    | none => e
    | some 0 => e.exitHistory.setTextInternal []
    | some (index + 1) =>
      if e.history.length ≤ index then e
      else { e with historyIndex := some index }.setTextInternal (e.history.getD index [])

/-! ### Insertion -/

/-- `insertTextAtCursorInternal`. -/
def insertTextAtCursorInternal (e : Editor) (text : List ℕ) : Editor :=
  if text = [] then e
  else
    let normalized := normalizeText text
    let insertedLines := normalized.splitOn NEWLINE
    let beforeCursor := sliceTo e.state.currentLine e.state.cursorCol
    let afterCursor := sliceFrom e.state.currentLine e.state.cursorCol
    if insertedLines.length = 1 then
      (e.setLine (beforeCursor ++ (normalized ++ afterCursor))).setCursorCol (e.state.cursorCol + normalized.length)
    else
      let last := insertedLines.getLastD []
      ((e.setLines (e.state.lines.take e.state.cursorLine ++ ((beforeCursor ++ insertedLines.headD []) ::
        (insertedLines.tail.dropLast ++ (last ++ afterCursor) :: e.state.lines.drop (e.state.cursorLine + 1))))).setCursorLine
          (e.state.cursorLine + (insertedLines.length - 1))).setCursorCol last.length

/-- `insertTextAtCursor`. -/
def insertTextAtCursor (e : Editor) (text : List ℕ) : Editor :=
  if text = [] then e else ((e.pushUndoSnapshot.setLastAction none).exitHistory).insertTextAtCursorInternal text

/-- `insertCharacter`, of typed data. -/
def insertCharacter (e : Editor) (char : List ℕ) : Editor :=
  let e := e.exitHistory
  let e := if isWhitespaceChar char || e.lastAction ≠ some .typeWord then e.pushUndoSnapshot else e
  let e := e.setLastAction (some .typeWord)
  let before := sliceTo e.state.currentLine e.state.cursorCol
  let after := sliceFrom e.state.currentLine e.state.cursorCol
  (e.setLine (before ++ (char ++ after))).setCursorCol (e.state.cursorCol + char.length)

/-- `addNewLine`. -/
def addNewLine (e : Editor) : Editor :=
  let e := (e.exitHistory.setLastAction none).pushUndoSnapshot
  let before := sliceTo e.state.currentLine e.state.cursorCol
  let after := sliceFrom e.state.currentLine e.state.cursorCol
  let e := e.setLine before
  let e := e.setLines (splice e.state.lines (e.state.cursorLine + 1) 0 [after])
  (e.setCursorLine (e.state.cursorLine + 1)).setCursorCol 0

/-! ### Deletion -/

/-- The line of the cursor is put behind the line before it. -/
def mergeWithPrevious (e : Editor) : Editor :=
  let previousLine := e.state.lineAt (e.state.cursorLine - 1)
  let lines := splice (e.state.lines.set (e.state.cursorLine - 1) (previousLine ++ e.state.currentLine)) e.state.cursorLine 1 []
  ((e.setLines lines).setCursorLine (e.state.cursorLine - 1)).setCursorCol previousLine.length

/-- The line after the line of the cursor is put behind it. -/
def mergeWithNext (e : Editor) : Editor :=
  let nextLine := e.state.lineAt (e.state.cursorLine + 1)
  e.setLines (splice (e.state.lines.set e.state.cursorLine (e.state.currentLine ++ nextLine)) (e.state.cursorLine + 1) 1 [])

/-- The length of a segment of `this.segment(text, "grapheme")`, or 1 where there is none. -/
def segmentLength (segment : Option SegmentData) : ℕ := (segment.map fun s => s.segment.length).getD 1

/-- The length of the last grapheme of a text. -/
def lastGraphemeLength (u : Unicode) (e : Editor) (text : List ℕ) : ℕ :=
  segmentLength (e.segment (graphemeSegmenter u) text).getLast?

/-- The length of the first grapheme of a text. -/
def firstGraphemeLength (u : Unicode) (e : Editor) (text : List ℕ) : ℕ :=
  segmentLength (e.segment (graphemeSegmenter u) text).head?

/-- `handleBackspace`. -/
def handleBackspace (u : Unicode) (e : Editor) : Editor :=
  let e := e.exitHistory.setLastAction none
  if 0 < e.state.cursorCol then
    let e := e.pushUndoSnapshot
    let line := e.state.currentLine
    let graphemeLength := e.lastGraphemeLength u (sliceTo line e.state.cursorCol)
    let before := sliceTo line (e.state.cursorCol - graphemeLength)
    let after := sliceFrom line e.state.cursorCol
    (e.setLine (before ++ after)).setCursorCol (e.state.cursorCol - graphemeLength)
  else if 0 < e.state.cursorLine then e.pushUndoSnapshot.mergeWithPrevious
  else e

/-- `handleForwardDelete`. -/
def handleForwardDelete (u : Unicode) (e : Editor) : Editor :=
  let e := e.exitHistory.setLastAction none
  let currentLine := e.state.currentLine
  if e.state.cursorCol < currentLine.length then
    let e := e.pushUndoSnapshot
    let graphemeLength := e.firstGraphemeLength u (sliceFrom currentLine e.state.cursorCol)
    let before := sliceTo currentLine e.state.cursorCol
    let after := sliceFrom currentLine (e.state.cursorCol + graphemeLength)
    e.setLine (before ++ after)
  else if e.state.cursorLine < e.state.lines.length - 1 then e.pushUndoSnapshot.mergeWithNext
  else e

/-! ### Undo -/

/-- `undo`. -/
def undo (e : Editor) : Editor :=
  let e := e.exitHistory
  match e.undoStack with
  | [] => e
  | snapshot :: rest => { e with state := snapshot, undoStack := rest, lastAction := none, preferredVisualCol := none }

/-! ### Pastes -/

/-- `getExpandedText`. -/
def getExpandedText (e : Editor) : List ℕ := expandPasteMarkers e.pastes.pairs e.getText

/-- `submitValue`: the editor after it, and the text that `onSubmit` gets. -/
def submitValue (e : Editor) : Editor × List ℕ :=
  let result := trim (expandPasteMarkers e.pastes.pairs e.getText)
  ({ e with
    state := ⟨[[]], 0, 0⟩
    pastes := OrdMap.empty
    pasteCounter := 0
    historyIndex := none
    undoStack := []
    lastAction := none }, result)

/-- The text of a paste as it is inserted or stored. -/
def pastedText (e : Editor) (text : List ℕ) : List ℕ :=
  let filteredText := (normalizeText (decodeControls 0 text)).filter fun c => c = NEWLINE || 32 ≤ c
  if filteredText.head?.any (· ∈ [0x2f, 0x7e, 0x2e]) ∧ 0 < e.state.cursorCol ∧
      e.state.currentLine[(e.state.cursorCol - 1).toNat]?.any isWordUnit then
    0x20 :: filteredText
  else filteredText

/-- `handlePaste`. -/
def handlePaste (e : Editor) (text : List ℕ) : Editor :=
  let e := (e.exitHistory.setLastAction none).pushUndoSnapshot
  let filteredText := e.pastedText text
  let pastedLines := filteredText.splitOn NEWLINE
  let totalChars := filteredText.length
  if 10 < pastedLines.length ∨ 1000 < totalChars then
    let pasteId := e.pasteCounter + 1
    let e := { e with pasteCounter := pasteId, pastes := e.pastes.set pasteId filteredText }
    let marker :=
      if 10 < pastedLines.length then MARKER_START ++ (decimal pasteId ++ (ascii " +" ++ (decimal pastedLines.length ++ LINES_END)))
      else MARKER_START ++ (decimal pasteId ++ (0x20 :: (decimal totalChars ++ CHARS_END)))
    e.insertTextAtCursorInternal marker
  else e.insertTextAtCursorInternal filteredText

end Trek.Editor
