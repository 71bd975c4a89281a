/-
# Cursor motion

The cursor moves by graphemes, by words, to a character, and by visual lines: the chunks that the lines
are wrapped to at the last width. A vertical move keeps the visual column where it can; where it would
land inside of a segment, such as the marker of a paste, it goes to the start of it and remembers the
column that it came from (`snappedFromCursorCol`).
-/
import Trek.Editor.State

namespace Trek.Editor

open Trek.Tui

/-! ### Words -/

/-- `PUNCTUATION_REGEX`. -/
def isPunctuation (c : ℕ) : Bool := c ∈ ascii "()[]<>.,;:'\"!?+-=*/\\|&%^$#@~" ++ [0x7b, 0x7d, 0x60]

/-- A segment of white space, that is no marker. -/
def isBlankSegment (s : SegmentData) : Bool := !isPasteMarker s.segment && isWhitespaceChar s.segment

/-- A segment that is neither a word, nor white space, nor a marker. -/
def isPunctuationSegment (s : SegmentData) : Bool :=
  !isPasteMarker s.segment && !s.isWordLike && !isWhitespaceChar s.segment

/-- The length of segments. -/
def segmentsLength (segments : List SegmentData) : ℕ := (segments.map fun s => s.segment.length).sum

/-- How far a word motion goes over segments, from white space over a word: `wordLength` is what it takes
of a segment that is a word. -/
def wordSpan (wordLength : List ℕ → ℕ) (segments : List SegmentData) : ℕ :=
  let blank := segments.takeWhile isBlankSegment
  segmentsLength blank +
    match segments.dropWhile isBlankSegment with
    | [] => 0
    | s :: rest =>
      if isPasteMarker s.segment then s.segment.length
      else if s.isWordLike then wordLength s.segment
      else segmentsLength ((s :: rest).takeWhile isPunctuationSegment)

/-- `findWordBackward`. Of a word it takes what stands after its last punctuation. -/
def findWordBackward (segment : List ℕ → List SegmentData) (text : List ℕ) (cursor : ℤ) : ℤ :=
  if cursor ≤ 0 then 0
  else cursor - wordSpan (fun word => (word.reverse.takeWhile (!isPunctuation ·)).length) (segment (sliceTo text cursor)).reverse

/-- `findWordForward`. Of a word it takes what stands before its first punctuation. -/
def findWordForward (segment : List ℕ → List SegmentData) (text : List ℕ) (cursor : ℤ) : ℤ :=
  if text.length ≤ cursor then text.length
  else cursor + wordSpan (fun word => (word.takeWhile (!isPunctuation ·)).length) (segment (sliceFrom text cursor))

/-- `moveWordBackwards`. -/
def moveWordBackwards (wordSegmenter : Segmenter) (e : Editor) : Editor :=
  let e := e.setLastAction none
  if e.state.cursorCol = 0 then
    if 0 < e.state.cursorLine then
      (e.setCursorLine (e.state.cursorLine - 1)).setCursorCol (e.state.lineAt (e.state.cursorLine - 1)).length
    else e
  else e.setCursorCol (findWordBackward (e.segment wordSegmenter) e.state.currentLine e.state.cursorCol)

/-- `moveWordForwards`. -/
def moveWordForwards (wordSegmenter : Segmenter) (e : Editor) : Editor :=
  let e := e.setLastAction none
  if e.state.currentLine.length ≤ e.state.cursorCol then
    if e.state.cursorLine < e.state.lines.length - 1 then (e.setCursorLine (e.state.cursorLine + 1)).setCursorCol 0 else e
  else e.setCursorCol (findWordForward (e.segment wordSegmenter) e.state.currentLine e.state.cursorCol)

/-! ### Lines and characters -/

/-- `moveToLineStart`. -/
def moveToLineStart (e : Editor) : Editor := (e.setLastAction none).setCursorCol 0

/-- `moveToLineEnd`. -/
def moveToLineEnd (e : Editor) : Editor := (e.setLastAction none).setCursorCol e.state.currentLine.length

/-- `line.indexOf(char, start)`. -/
def indexOf (line char : List ℕ) (start : ℕ) : Option ℕ :=
  (List.range (line.length + 1)).find? fun i => min start line.length ≤ i && char.isPrefixOf (line.drop i)

/-- `line.lastIndexOf(char, start)`. -/
def lastIndexOf (line char : List ℕ) (start : ℕ) : Option ℕ :=
  (List.range (line.length + 1)).reverse.find? fun i => i ≤ start && char.isPrefixOf (line.drop i)

/-- The first line from a row on, in the direction of the jump, with the character: its row and its column. -/
def findChar (lines : List (List ℕ)) (char : List ℕ) (isForward : Bool) : List ℕ → Option (ℕ × ℕ)
  | [] => none
  | row :: rows =>
    let line := lines.getD row []
    match (if isForward then indexOf line char 0 else lastIndexOf line char line.length) with
    | some idx => some (row, idx)
    | none => findChar lines char isForward rows

/-- `jumpToChar`. A position below zero is zero, for `indexOf` and for `lastIndexOf`. -/
def jumpToChar (e : Editor) (char : List ℕ) (isForward : Bool) : Editor :=
  let e := e.setLastAction none
  let line := e.state.currentLine
  let here :=
    if isForward then indexOf line char (e.state.cursorCol + 1).toNat else lastIndexOf line char (e.state.cursorCol - 1).toNat
  let found :=
    match here with
    | some idx => some (e.state.cursorLine, idx)
    | none =>
      let rows :=
        if isForward then (List.range e.state.lines.length).drop (e.state.cursorLine + 1)
        else (List.range e.state.cursorLine).reverse
      findChar e.state.lines char isForward rows
  match found with
  | some (row, idx) => (e.setCursorLine row).setCursorCol idx
  | none => e

/-! ### Visual lines -/

/-- A visual line: a part of a line of the editor. -/
structure VisualLine where
  logicalLine : ℕ
  startCol : ℕ
  length : ℕ
  deriving DecidableEq

/-- The visual lines of one line. -/
def visualLinesOf (u : Unicode) (calls : ℕ) (e : Editor) (width i : ℕ) (line : List ℕ) : Option (List VisualLine) :=
  if line.length = 0 then some [⟨i, 0, 0⟩]
  else if visibleWidth u line ≤ width then some [⟨i, 0, line.length⟩]
  else
    (wordWrapLine u calls line width (e.segment (graphemeSegmenter u) line)).map fun chunks =>
      chunks.map fun chunk => ⟨i, chunk.startIndex, chunk.endIndex - chunk.startIndex⟩

/-- The visual lines of lines that start at a row. -/
def visualLinesFrom (u : Unicode) (calls : ℕ) (e : Editor) (width : ℕ) : ℕ → List (List ℕ) → Option (List VisualLine)
  | _, [] => some []
  | i, line :: lines =>
    (visualLinesOf u calls e width i line).bind fun here =>
      (visualLinesFrom u calls e width (i + 1) lines).map (here ++ ·)

/-- `buildVisualLineMap`. -/
def buildVisualLineMap (u : Unicode) (calls : ℕ) (e : Editor) (width : ℕ) : Option (List VisualLine) :=
  visualLinesFrom u calls e width 0 e.state.lines

/-- A visual line that is the last one of its line. -/
def VisualLine.isLast (vl : VisualLine) (next : Option VisualLine) : Bool := !next.any (·.logicalLine = vl.logicalLine)

/-- A place is in a visual line; its end is only in the last one. -/
def VisualLine.contains (vl : VisualLine) (next : Option VisualLine) (line : ℕ) (col : ℤ) : Bool :=
  vl.logicalLine = line && 0 ≤ col - vl.startCol &&
    (col - vl.startCol < vl.length || vl.isLast next && col - vl.startCol = vl.length)

/-- The loop of `findVisualLineAt`. -/
def findVisualLineFrom (line : ℕ) (col : ℤ) : ℕ → List VisualLine → Option ℕ
  | _, [] => none
  | i, vl :: rest => if vl.contains rest.head? line col then some i else findVisualLineFrom line col (i + 1) rest

/-- `findVisualLineAt`. -/
def findVisualLineAt (visualLines : List VisualLine) (line : ℕ) (col : ℤ) : ℕ :=
  (findVisualLineFrom line col 0 visualLines).getD (visualLines.length - 1)

/-- `findCurrentVisualLine`. -/
def findCurrentVisualLine (e : Editor) (visualLines : List VisualLine) : ℕ :=
  findVisualLineAt visualLines e.state.cursorLine e.state.cursorCol

/-- The last visual column of a visual line: not its end, unless it is the last one of its line. -/
def maxVisualCol (visualLines : List VisualLine) (i : ℕ) (vl : VisualLine) : ℕ :=
  if vl.isLast visualLines[i + 1]? then vl.length else vl.length - 1

/-- `computeVerticalMoveColumn`: the new `preferredVisualCol`, and the column to move to. -/
def computeVerticalMoveColumn (preferred : Option ℤ) (currentVisualCol : ℤ) (sourceMaxVisualCol targetMaxVisualCol : ℕ) :
    Option ℤ × ℤ :=
  let cursorInMiddle := currentVisualCol < sourceMaxVisualCol
  let targetTooShort := targetMaxVisualCol < currentVisualCol
  match preferred with
  | none => if targetTooShort then (some currentVisualCol, targetMaxVisualCol) else (none, currentVisualCol)
  | some preferredVisualCol =>
    if cursorInMiddle then
      if targetTooShort then (some currentVisualCol, targetMaxVisualCol) else (none, currentVisualCol)
    else if targetTooShort ∨ targetMaxVisualCol < preferredVisualCol then (some preferredVisualCol, targetMaxVisualCol)
    else (none, preferredVisualCol)

/-- The segment of more than one character that a column is in. -/
def snapSegment (col : ℤ) : List SegmentData → Option SegmentData
  | [] => none
  | seg :: rest =>
    if col < seg.index then none
    else if seg.segment.length ≤ 1 then snapSegment col rest
    else if col < seg.index + seg.segment.length then some seg
    else snapSegment col rest

/-- The first visual line from `next` on that is not a continuation of a segment. -/
def skipContinuation (visualLines : List VisualLine) (logicalLine segEnd next : ℕ) : ℕ :=
  next + ((visualLines.drop next).takeWhile fun vl => vl.logicalLine = logicalLine ∧ vl.startCol < segEnd).length

/-- The visual column that a vertical move starts from. -/
def currentVisualCol (e : Editor) (visualLines : List VisualLine) (currentVL : VisualLine) : ℤ :=
  match e.snappedFromCursorCol with
  | some col =>
    let vlIndex := findVisualLineAt visualLines currentVL.logicalLine col
    col - (visualLines[vlIndex]?.map (·.startCol)).getD 0
  | none => e.state.cursorCol - currentVL.startCol

/-- The cursor is put on a visual line, before it is moved to the start of a segment. -/
def landOn (e : Editor) (visualLines : List VisualLine) (currentVisualLine targetVisualLine : ℕ)
    (currentVL targetVL : VisualLine) : Editor :=
  let move := computeVerticalMoveColumn e.preferredVisualCol (e.currentVisualCol visualLines currentVL)
    (maxVisualCol visualLines currentVisualLine currentVL) (maxVisualCol visualLines targetVisualLine targetVL)
  let e := { e with preferredVisualCol := move.1 }.setCursorLine targetVL.logicalLine
  { e with state := { e.state with cursorCol := min (targetVL.startCol + move.2) e.state.currentLine.length } }

/-- `moveToVisualLine`. -/
def moveToVisualLine (u : Unicode) (visualLines : List VisualLine) (currentVisualLine : ℕ) (e : Editor)
    (targetVisualLine : ℕ) : Editor :=
  match visualLines[currentVisualLine]?, visualLines[targetVisualLine]? with
  | some currentVL, some targetVL =>
    let e := e.landOn visualLines currentVisualLine targetVisualLine currentVL targetVL
    match snapSegment e.state.cursorCol (e.segment (graphemeSegmenter u) e.state.currentLine) with
    | some seg =>
      let next := skipContinuation visualLines targetVL.logicalLine (seg.index + seg.segment.length) (targetVisualLine + 1)
      if seg.index < targetVL.startCol ∧ currentVisualLine < targetVisualLine ∧ next < visualLines.length then
        moveToVisualLine u visualLines currentVisualLine e next
      else
        { e with
          snappedFromCursorCol := some e.state.cursorCol
          state := { e.state with cursorCol := seg.index } }
    | none => { e with snappedFromCursorCol := none }
  | _, _ => e
  termination_by visualLines.length - targetVisualLine
  decreasing_by
    rename_i h
    have hnext : targetVisualLine + 1 ≤ next := Nat.le_add_right _ _
    omega

/-- `moveCursor` to the visual line before or after the cursor. -/
def moveCursorLine (u : Unicode) (calls : ℕ) (e : Editor) (down : Bool) : Option Editor :=
  let e := e.setLastAction none
  (e.buildVisualLineMap u calls e.lastWidth).map fun visualLines =>
    let currentVisualLine := e.findCurrentVisualLine visualLines
    if down then
      if currentVisualLine + 1 < visualLines.length then
        e.moveToVisualLine u visualLines currentVisualLine (currentVisualLine + 1)
      else e
    else if 0 < currentVisualLine then e.moveToVisualLine u visualLines currentVisualLine (currentVisualLine - 1)
    else e

/-- `moveCursor` by one grapheme. -/
def moveCursorCol (u : Unicode) (calls : ℕ) (e : Editor) (right : Bool) : Option Editor :=
  let e := e.setLastAction none
  (e.buildVisualLineMap u calls e.lastWidth).map fun visualLines =>
    let currentLine := e.state.currentLine
    if right then
      if e.state.cursorCol < currentLine.length then
        e.setCursorCol (e.state.cursorCol + e.firstGraphemeLength u (sliceFrom currentLine e.state.cursorCol))
      else if e.state.cursorLine < e.state.lines.length - 1 then (e.setCursorLine (e.state.cursorLine + 1)).setCursorCol 0
      else
        match visualLines[e.findCurrentVisualLine visualLines]? with
        | some currentVL => { e with preferredVisualCol := some (e.state.cursorCol - currentVL.startCol) }
        | none => e
    else if 0 < e.state.cursorCol then
      e.setCursorCol (e.state.cursorCol - e.lastGraphemeLength u (sliceTo currentLine e.state.cursorCol))
    else if 0 < e.state.cursorLine then
      (e.setCursorLine (e.state.cursorLine - 1)).setCursorCol (e.state.lineAt (e.state.cursorLine - 1)).length
    else e

/-- The visual line that `pageScroll` moves to. -/
def pageTarget (visualLines : List VisualLine) (currentVisualLine : ℕ) (down : Bool) (terminalRows : ℕ) : ℕ :=
  let pageSize := max 5 (terminalRows * 3 / 10)
  if down then min (visualLines.length - 1) (currentVisualLine + pageSize)
  else min (visualLines.length - 1) (currentVisualLine - pageSize)

/-- `pageScroll`. -/
def pageScroll (u : Unicode) (calls : ℕ) (e : Editor) (down : Bool) (terminalRows : ℕ) : Option Editor :=
  let e := e.setLastAction none
  (e.buildVisualLineMap u calls e.lastWidth).map fun visualLines =>
    let currentVisualLine := e.findCurrentVisualLine visualLines
    e.moveToVisualLine u visualLines currentVisualLine (pageTarget visualLines currentVisualLine down terminalRows)

/-- `render`, as far as the cursor is concerned: the width that lines are wrapped to. -/
def render (e : Editor) (width : ℕ) : Editor :=
  let paddingX := min e.paddingX ((width - 1) / 2)
  let contentWidth := max 1 (width - paddingX * 2)
  { e with lastWidth := max 1 (contentWidth - if paddingX = 0 then 1 else 0) }

end Trek.Editor
