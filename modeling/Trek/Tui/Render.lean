/-
# Differential rendering

`TUI.doRender` brings the terminal from the lines of the last frame to the lines of the next
one. It keeps the lines, the row of the terminal cursor and the first line that the terminal
shows, and writes what changed. What it writes is a list of texts and control sequences.
Frames have no image lines here and there are no overlays.
-/
import Mathlib.Data.Int.Notation
import Mathlib.Order.Lattice
import Trek.Tui.StdinBuffer

namespace Trek.Tui

/-- What `doRender` writes. -/
inductive Output
  | text (line : List ℕ)
  /-- `\r`. -/
  | carriageReturn
  /-- `\n`. -/
  | lineFeed
  /-- `CSI n A`. -/
  | cursorUp (n : ℕ)
  /-- `CSI n B`. -/
  | cursorDown (n : ℕ)
  /-- `CSI n G`. -/
  | cursorColumn (n : ℕ)
  /-- `CSI H`. -/
  | cursorHome
  /-- `CSI 2 K`. -/
  | eraseLine
  /-- `CSI 2 J`. -/
  | eraseScreen
  /-- `CSI 3 J`. -/
  | eraseScrollback
  /-- `CSI ? 2026 h` and `CSI ? 2026 l`. -/
  | synchronized (on : Bool)
  /-- `CSI ? 25 h` and `CSI ? 25 l`. -/
  | showCursor (on : Bool)

/-- The fields of `TUI` that `doRender` reads and writes. -/
structure TUI where
  previousLines : List (List ℕ)
  previousWidth : ℤ
  previousHeight : ℤ
  cursorRow : ℕ
  hardwareCursorRow : ℕ
  showHardwareCursor : Bool
  clearOnShrink : Bool
  maxLinesRendered : ℕ
  previousViewportTop : ℕ
  fullRedrawCount : ℕ
  stopped : Bool

/-- `Rendered line ${line} exceeds terminal width (${visibleWidth} > ${width}).` -/
structure RenderError where
  line : ℕ
  visibleWidth : ℕ
  width : ℕ

/-! ### The lines of a frame -/

/-- `CURSOR_MARKER`, `ESC _ pi:c BEL`. -/
def CURSOR_MARKER : List ℕ := [ESC, 0x5f, 0x70, 0x69, 0x3a, 0x63, 0x07]

/-- `SEGMENT_RESET`, `ESC [ 0 m ESC ] 8 ; ; BEL`. -/
def SEGMENT_RESET : List ℕ := [ESC, 0x5b, 0x30, 0x6d, ESC, 0x5d, 0x38, 0x3b, 0x3b, 0x07]

/-- Thai and Lao AM vowels are decomposed. -/
def normalizeTerminalOutput (str : List ℕ) : List ℕ :=
  str.flatMap fun c => if c = 0x0e33 then [0x0e4d, 0x0e32] else if c = 0x0eb3 then [0x0ecd, 0x0eb2] else [c]

def applyLineResets (lines : List (List ℕ)) : List (List ℕ) :=
  lines.map fun line => normalizeTerminalOutput line ++ SEGMENT_RESET

/-- The last line that has a marker, among those before `row` and not before `viewportTop`, and
the texts before and after the marker. -/
def findCursorMarker (lines : List (List ℕ)) (viewportTop : ℕ) : ℕ → Option (ℕ × List ℕ × List ℕ)
  | 0 => none
  | row + 1 =>
    if row < viewportTop then none
    else
      match cutAt CURSOR_MARKER (lines.getD row []) with
      | some (before, after) => some (row, before, after)
      | none => findCursorMarker lines viewportTop row

/-- The position of the cursor, and the lines without its marker. -/
def extractCursorPosition (visibleWidth : List ℕ → ℕ) (lines : List (List ℕ)) (height : ℕ) :
    Option (ℕ × ℕ) × List (List ℕ) :=
  match findCursorMarker lines (lines.length - height) lines.length with
  | some (row, before, after) => (some (row, visibleWidth before), lines.set row (before ++ after))
  | none => (none, lines)

/-! ### What is written -/

/-- The cursor moves by a number of rows. -/
def moveRows (lineDiff : ℤ) : List Output :=
  if 0 < lineDiff then [.cursorDown lineDiff.toNat]
  else if lineDiff < 0 then [.cursorUp (-lineDiff).toNat]
  else []

/-- Rows, each on the line after the last. -/
def writeRows {β : Type*} (row : β → List Output) : List β → List Output
  | [] => []
  | line :: lines => row line ++ lines.flatMap fun line => [.carriageReturn, .lineFeed] ++ row line

def computeLineDiff (hardwareCursorRow prevViewportTop viewportTop targetRow : ℕ) : ℤ :=
  let currentScreenRow := (hardwareCursorRow : ℤ) - prevViewportTop
  let targetScreenRow := (targetRow : ℤ) - viewportTop
  targetScreenRow - currentScreenRow

/-- The lines that differ. -/
def changedLines (previousLines newLines : List (List ℕ)) : List ℕ :=
  (List.range (max newLines.length previousLines.length)).filter fun i =>
    previousLines.getD i [] ≠ newLines.getD i []

/-- `firstChanged`, `none` for `-1`. -/
def firstChanged (previousLines newLines : List (List ℕ)) : Option ℕ :=
  let changed := (changedLines previousLines newLines).head?
  if previousLines.length < newLines.length then some (changed.getD previousLines.length) else changed

/-- `lastChanged`, where a line has changed. -/
def lastChanged (previousLines newLines : List (List ℕ)) : ℕ :=
  if previousLines.length < newLines.length then newLines.length - 1
  else (changedLines previousLines newLines).getLast?.getD 0

/-- A row below the screen is scrolled to: what is written, `prevViewportTop` and
`hardwareCursorRow`. -/
def scrollTo (height prevViewportTop hardwareCursorRow moveTargetRow : ℕ) : List Output × ℕ × ℕ :=
  let prevViewportBottom := (prevViewportTop : ℤ) + height - 1
  if prevViewportBottom < moveTargetRow then
    let currentScreenRow := max 0 (min ((height : ℤ) - 1) (hardwareCursorRow - prevViewportTop))
    let moveToBottom := (height : ℤ) - 1 - currentScreenRow
    let scroll := (moveTargetRow - prevViewportBottom).toNat
    ((if 0 < moveToBottom then [Output.cursorDown moveToBottom.toNat] else []) ++
        (List.range scroll).flatMap fun _ => [Output.carriageReturn, .lineFeed],
      prevViewportTop + scroll, moveTargetRow)
  else ([], prevViewportTop, hardwareCursorRow)

namespace TUI

/-- A `TUI` as it is constructed. -/
def new (showHardwareCursor clearOnShrink : Bool) : TUI where
  previousLines := []
  previousWidth := 0
  previousHeight := 0
  cursorRow := 0
  hardwareCursorRow := 0
  showHardwareCursor
  clearOnShrink
  maxLinesRendered := 0
  previousViewportTop := 0
  fullRedrawCount := 0
  stopped := false

def positionHardwareCursor (s : TUI) (cursorPos : Option (ℕ × ℕ)) (totalLines : ℕ) : TUI × List Output :=
  match cursorPos with
  | none => (s, [.showCursor false])
  | some (row, col) =>
    if totalLines = 0 then (s, [.showCursor false])
    else
      let targetRow := min row (totalLines - 1)
      let rowDelta := (targetRow : ℤ) - s.hardwareCursorRow
      ({ s with hardwareCursorRow := targetRow },
        moveRows rowDelta ++ [.cursorColumn (col + 1), .showCursor s.showHardwareCursor])

/-- The ends of `doRender`: the cursor is positioned and the frame is kept. -/
def keepFrame (s : TUI) (width height : ℕ) (newLines : List (List ℕ)) (cursorPos : Option (ℕ × ℕ)) :
    TUI × List Output :=
  let (s, position) := s.positionHardwareCursor cursorPos newLines.length
  ({ s with previousLines := newLines, previousWidth := width, previousHeight := height }, position)

def fullRender (s : TUI) (width height : ℕ) (newLines : List (List ℕ)) (cursorPos : Option (ℕ × ℕ)) (clear : Bool) :
    TUI × List Output :=
  let buffer := [Output.synchronized true] ++ (if clear then [Output.eraseScreen, .cursorHome, .eraseScrollback] else []) ++
    writeRows (fun line => [.text line]) newLines ++ [Output.synchronized false]
  let bufferLength := max height newLines.length
  let (s, position) :=
    { s with
      fullRedrawCount := s.fullRedrawCount + 1
      cursorRow := newLines.length - 1
      hardwareCursorRow := newLines.length - 1
      maxLinesRendered := if clear then newLines.length else max s.maxLinesRendered newLines.length
      previousViewportTop := bufferLength - height }.keepFrame width height newLines cursorPos
  (s, buffer ++ position)

/-- All changes are in deleted lines. -/
def renderDeleted (s : TUI) (width height prevViewportTop : ℕ) (newLines : List (List ℕ))
    (cursorPos : Option (ℕ × ℕ)) : TUI × List Output :=
  if newLines.length < s.previousLines.length then
    let targetRow := newLines.length - 1
    let extraLines := s.previousLines.length - newLines.length
    if targetRow < prevViewportTop then s.fullRender width height newLines cursorPos true
    else if height < extraLines then s.fullRender width height newLines cursorPos true
    else
      let lineDiff := computeLineDiff s.hardwareCursorRow prevViewportTop prevViewportTop targetRow
      let buffer := [.synchronized true] ++ moveRows lineDiff ++ [.carriageReturn] ++
        (if 0 < extraLines then [.cursorDown 1] else []) ++
        ((List.range extraLines).flatMap fun i =>
          [.carriageReturn, .eraseLine] ++ if i + 1 < extraLines then [.cursorDown 1] else []) ++
        (if 0 < extraLines then [.cursorUp extraLines] else []) ++ [.synchronized false]
      let (s, position) :=
        { s with cursorRow := targetRow, hardwareCursorRow := targetRow }.keepFrame width height newLines cursorPos
      ({ s with previousViewportTop := prevViewportTop }, buffer ++ position)
  else
    let (s, position) := s.keepFrame width height newLines cursorPos
    ({ s with previousViewportTop := prevViewportTop }, position)

/-- The lines from the first to the last changed one. -/
def renderChanged (s : TUI) (visibleWidth : List ℕ → ℕ) (width height prevViewportTop : ℕ) (newLines : List (List ℕ))
    (cursorPos : Option (ℕ × ℕ)) (firstChanged lastChanged : ℕ) (appendStart : Bool) :
    Except RenderError (TUI × List Output) :=
  let moveTargetRow := if appendStart then firstChanged - 1 else firstChanged
  let (jump, prevViewportTop, hardwareCursorRow) := scrollTo height prevViewportTop s.hardwareCursorRow moveTargetRow
  let lineDiff := computeLineDiff hardwareCursorRow prevViewportTop prevViewportTop moveTargetRow
  let renderEnd := min lastChanged (newLines.length - 1)
  let rendered := (newLines.take (renderEnd + 1)).drop firstChanged
  match rendered.findIdx? (fun line => width < visibleWidth line) with
  | some i => .error ⟨firstChanged + i, visibleWidth (rendered.getD i []), width⟩
  | none =>
    let extraLines := s.previousLines.length - newLines.length
    let shrunk := newLines.length < s.previousLines.length
    let moveDown := newLines.length - 1 - renderEnd
    let buffer := [.synchronized true] ++ jump ++ moveRows lineDiff ++
      (if appendStart then [.carriageReturn, .lineFeed] else [.carriageReturn]) ++
      writeRows (fun line => [.eraseLine, .text line]) rendered ++
      (if shrunk then
        (if renderEnd < newLines.length - 1 then [.cursorDown moveDown] else []) ++
          ((List.range extraLines).flatMap fun _ => [.carriageReturn, .lineFeed, .eraseLine]) ++ [.cursorUp extraLines]
      else []) ++ [.synchronized false]
    let finalCursorRow := if shrunk ∧ renderEnd < newLines.length - 1 then newLines.length - 1 else renderEnd
    let (s, position) :=
      { s with
        cursorRow := newLines.length - 1
        hardwareCursorRow := finalCursorRow
        maxLinesRendered := max s.maxLinesRendered newLines.length
        previousViewportTop := max prevViewportTop (finalCursorRow + 1 - height) }.keepFrame width height newLines cursorPos
    .ok (s, buffer ++ position)

/-- What is done where the terminal need not be cleared. -/
def renderDifference (s : TUI) (visibleWidth : List ℕ → ℕ) (width height prevViewportTop : ℕ)
    (newLines : List (List ℕ)) (cursorPos : Option (ℕ × ℕ)) : Except RenderError (TUI × List Output) :=
  match firstChanged s.previousLines newLines with
  | none =>
    let (s, position) := s.positionHardwareCursor cursorPos newLines.length
    .ok ({ s with previousViewportTop := prevViewportTop, previousHeight := height }, position)
  | some first =>
    let appendStart := decide (s.previousLines.length < newLines.length ∧ first = s.previousLines.length ∧ 0 < first)
    if newLines.length ≤ first then .ok (s.renderDeleted width height prevViewportTop newLines cursorPos)
    else if first < prevViewportTop then .ok (s.fullRender width height newLines cursorPos true)
    else
      s.renderChanged visibleWidth width height prevViewportTop newLines cursorPos first
        (lastChanged s.previousLines newLines) appendStart

/-- `doRender`, for the lines that the components render and a terminal of some size;
`isTermux` is `isTermuxSession()`. -/
def doRender (s : TUI) (visibleWidth : List ℕ → ℕ) (isTermux : Bool) (width height : ℕ) (lines : List (List ℕ)) :
    Except RenderError (TUI × List Output) :=
  if s.stopped then .ok (s, [])
  else
    let widthChanged := s.previousWidth ≠ 0 ∧ s.previousWidth ≠ width
    let heightChanged := s.previousHeight ≠ 0 ∧ s.previousHeight ≠ height
    let previousBufferLength := if 0 < s.previousHeight then s.previousViewportTop + s.previousHeight else height
    let prevViewportTop := if heightChanged then (previousBufferLength - height).toNat else s.previousViewportTop
    let (cursorPos, lines) := extractCursorPosition visibleWidth lines height
    let newLines := applyLineResets lines
    if s.previousLines = [] ∧ ¬widthChanged ∧ ¬heightChanged then .ok (s.fullRender width height newLines cursorPos false)
    else if widthChanged then .ok (s.fullRender width height newLines cursorPos true)
    else if heightChanged ∧ ¬isTermux then .ok (s.fullRender width height newLines cursorPos true)
    else if s.clearOnShrink ∧ newLines.length < s.maxLinesRendered then
      .ok (s.fullRender width height newLines cursorPos true)
    else s.renderDifference visibleWidth width height prevViewportTop newLines cursorPos

end TUI

end Trek.Tui
