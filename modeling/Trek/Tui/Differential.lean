/-
# Differential rendering shows the frame

A terminal of a fixed size gets what `doRender` writes for one frame after the other. A frame
without lines leaves the first row, and a cursor in a line above the screen cannot be reached;
where neither happens the screen shows each frame as if it had been written in full, from
`previousViewportTop` on (`renderAll_shown`).
-/
import Mathlib.Data.List.Basic
import Trek.Tui.Terminal

namespace Trek.Tui

/-! ### The lines of a frame -/

theorem findCursorMarker_bounds {lines : List (List ℕ)} {viewportTop : ℕ} : ∀ {n row : ℕ} {parts : List ℕ × List ℕ},
    findCursorMarker lines viewportTop n = some (row, parts) → viewportTop ≤ row ∧ row < n
  | 0, _, _, h => by cases h
  | n + 1, row, parts, h => by
    unfold findCursorMarker at h
    split at h
    · cases h
    · rename_i hge
      split at h
      · cases h
        exact ⟨by omega, Nat.lt_succ_self n⟩
      · obtain ⟨hle, hlt⟩ := findCursorMarker_bounds h
        exact ⟨hle, by omega⟩

/-- The cursor is in one of the last lines of the frame, as many as the screen has rows. -/
theorem extractCursorPosition_bounds {visibleWidth : List ℕ → ℕ} {lines : List (List ℕ)} {height : ℕ} {pos : ℕ × ℕ}
    (h : pos ∈ (extractCursorPosition visibleWidth lines height).1) :
    lines.length ≤ pos.1 + height ∧ pos.1 < lines.length := by
  unfold extractCursorPosition at h
  split at h
  · rename_i row before after hfound
    cases h
    obtain ⟨hle, hlt⟩ := findCursorMarker_bounds hfound
    exact ⟨by show lines.length ≤ row + height; omega, hlt⟩
  · cases h

theorem length_extractCursorPosition (visibleWidth : List ℕ → ℕ) (lines : List (List ℕ)) (height : ℕ) :
    (extractCursorPosition visibleWidth lines height).2.length = lines.length := by
  unfold extractCursorPosition
  split
  · exact List.length_set
  · rfl

theorem ne_nil_of_mem_applyLineResets {lines : List (List ℕ)} {line : List ℕ} (h : line ∈ applyLineResets lines) :
    line ≠ [] := by
  obtain ⟨_, -, rfl⟩ := List.mem_map.mp h
  exact List.append_ne_nil_of_right_ne_nil _ (List.cons_ne_nil _ _)

/-! ### The lines that differ -/

theorem mem_changedLines {p n : List (List ℕ)} {i : ℕ} : i ∈ changedLines p n ↔ p.getD i [] ≠ n.getD i [] := by
  unfold changedLines
  rw [List.mem_filter, List.mem_range, decide_eq_true_iff]
  refine ⟨And.right, fun h => ⟨?_, h⟩⟩
  by_contra hge
  have hp : p[i]? = none := List.getElem?_eq_none (by omega)
  have hn : n[i]? = none := List.getElem?_eq_none (by omega)
  rw [List.getD_eq_getElem?_getD, List.getD_eq_getElem?_getD, hp, hn] at h
  exact h rfl

/-- Lines with text that do not differ are the same, or missing in both. -/
theorem getElem?_of_getD {p n : List (List ℕ)} (hp : ∀ line ∈ p, line ≠ []) (hn : ∀ line ∈ n, line ≠ []) {i : ℕ}
    (h : p.getD i [] = n.getD i []) : p[i]? = n[i]? := by
  rw [List.getD_eq_getElem?_getD, List.getD_eq_getElem?_getD] at h
  cases hpi : p[i]? with
  | none =>
    cases hni : n[i]? with
    | none => rfl
    | some line =>
      rw [hpi, hni] at h
      exact absurd h.symm (hn line (List.mem_of_getElem? hni))
  | some line =>
    rw [hpi] at h
    cases hni : n[i]? with
    | none =>
      rw [hni] at h
      exact absurd h (hp line (List.mem_of_getElem? hpi))
    | some line' =>
      rw [hni] at h
      exact congrArg some h

theorem changedLines_sorted (p n : List (List ℕ)) : (changedLines p n).Pairwise (· < ·) :=
  List.pairwise_lt_range.filter _

/-- An appended line differs. -/
theorem head?_changedLines_of_append {p n : List (List ℕ)} (hn : ∀ line ∈ n, line ≠ []) (h : p.length < n.length) :
    ∃ i, (changedLines p n).head? = some i := by
  have hmem : p.length ∈ changedLines p n := by
    rw [mem_changedLines, List.getD_eq_getElem?_getD, List.getD_eq_getElem?_getD, List.getElem?_eq_none (Nat.le_refl _),
      List.getElem?_eq_getElem h]
    exact Ne.symm (hn _ (List.getElem_mem h))
  cases hc : changedLines p n with
  | nil =>
    rw [hc] at hmem
    cases hmem
  | cons i rest => exact ⟨i, rfl⟩

section Changes

variable {p n : List (List ℕ)} (hp : ∀ line ∈ p, line ≠ []) (hn : ∀ line ∈ n, line ≠ [])

include hn in
theorem firstChanged_eq_head? : firstChanged p n = (changedLines p n).head? := by
  unfold firstChanged
  split
  · rename_i happend
    obtain ⟨i, hi⟩ := head?_changedLines_of_append hn happend
    rw [hi]
    rfl
  · rfl

include hp hn

theorem eq_of_firstChanged (h : firstChanged p n = none) : p = n := by
  rw [firstChanged_eq_head? hn, List.head?_eq_none_iff] at h
  refine List.ext_getElem? fun i => getElem?_of_getD hp hn ?_
  by_contra hne
  have := mem_changedLines.mpr hne
  rw [h] at this
  cases this

theorem firstChanged_spec {first : ℕ} (h : firstChanged p n = some first) :
    p.getD first [] ≠ n.getD first [] ∧ ∀ i, i < first → p[i]? = n[i]? := by
  rw [firstChanged_eq_head? hn] at h
  obtain ⟨rest, hrest⟩ := List.head?_eq_some_iff.mp h
  have hsorted := changedLines_sorted p n
  rw [hrest] at hsorted
  refine ⟨mem_changedLines.mp (by rw [hrest]; exact List.mem_cons_self), fun i hi => getElem?_of_getD hp hn ?_⟩
  by_contra hne
  have hmem := mem_changedLines.mpr hne
  rw [hrest] at hmem
  rcases List.mem_cons.mp hmem with rfl | hmem
  · exact Nat.lt_irrefl _ hi
  · exact Nat.lt_asymm hi (List.rel_of_pairwise_cons hsorted hmem)

theorem lastChanged_spec {i : ℕ} (h : lastChanged p n < i) : p[i]? = n[i]? := by
  unfold lastChanged at h
  split at h
  · rw [List.getElem?_eq_none (by omega), List.getElem?_eq_none (by omega)]
  · refine getElem?_of_getD hp hn ?_
    by_contra hne
    have hmem := mem_changedLines.mpr hne
    obtain ⟨l, last, hlast⟩ : ∃ l last, changedLines p n = l ++ [last] := by
      refine ⟨_, _, (List.dropLast_append_getLast (l := changedLines p n) ?_).symm⟩
      intro hnil
      rw [hnil] at hmem
      cases hmem
    have hsorted := changedLines_sorted p n
    rw [hlast] at hmem hsorted h
    rw [List.getLast?_append] at h
    replace h : last < i := h
    rcases List.mem_append.mp hmem with hmem | hmem
    · exact Nat.lt_asymm h ((List.pairwise_append.mp hsorted).2.2 i hmem last List.mem_cons_self)
    · rw [List.mem_singleton.mp hmem] at h
      exact Nat.lt_irrefl _ h

end Changes

namespace Display

variable {Cell : Type*} (d : Display Cell) {height width : ℕ}

/-! ### What the terminal is to show -/

/-- The lines of a frame as they are written. -/
def frameLines (height : ℕ) (frame : List (List ℕ)) : List (List ℕ) :=
  applyLineResets (extractCursorPosition d.visibleWidth frame height).2

/-- One call of `doRender`, and what the terminal does with its output. -/
def render (isTermux : Bool) (s : TUI × Screen Cell height width) (frame : List (List ℕ)) :
    Except RenderError (TUI × Screen Cell height width) :=
  (s.1.doRender d.visibleWidth isTermux width height frame).map fun r => (r.1, d.writeAll s.2 r.2)

/-- One frame after the other. -/
def renderAll (isTermux : Bool) (s : TUI × Screen Cell height width) (frames : List (List (List ℕ))) :
    Except RenderError (TUI × Screen Cell height width) :=
  frames.foldlM (d.render isTermux) s

/-- A new `TUI` on a clear screen. -/
def start (hheight : 0 < height) (showHardwareCursor : Bool) : TUI × Screen Cell height width :=
  (.new showHardwareCursor false, .clear d.blank hheight)

/-- The screen shows the lines of the frame from `previousViewportTop` on and blank rows after
them, the terminal cursor is in the row that is tracked, and the lines are kept. -/
structure Shown (s : TUI × Screen Cell height width) (frame : List (List ℕ)) : Prop where
  rows : ∀ (r : Fin height) (c : Fin width),
    s.2.cell r c = (d.page (d.frameLines height frame) (s.1.previousViewportTop + r)).getD c d.blank
  cursor : (s.2.row : ℤ) = s.1.hardwareCursorRow - s.1.previousViewportTop
  previousLines : s.1.previousLines = d.frameLines height frame

/-- No line is wider than the terminal. -/
def Fits (height width : ℕ) (frame : List (List ℕ)) : Prop :=
  ∀ line ∈ d.frameLines height frame, d.visibleWidth line ≤ width

/-- When `doRender` keeps the terminal in step: a frame without lines finds nothing in the first
row, or a terminal with one row; and the cursor is in a line on the screen, or the terminal is
cleared because a line above the screen changes or no line of the frame is on it. -/
structure Keeps (height : ℕ) (s : TUI) (frame : List (List ℕ)) : Prop where
  clears : frame = [] → s.previousViewportTop = 0 → 1 < height →
    ∀ line ∈ s.previousLines.head?, ∀ x ∈ d.paint line, x = d.blank
  reaches : ∀ pos ∈ (extractCursorPosition d.visibleWidth frame height).1,
    s.previousViewportTop ≤ pos.1 ∨ frame.length ≤ s.previousViewportTop ∨
      ∃ i, i < s.previousViewportTop ∧ s.previousLines.getD i [] ≠ (d.frameLines height frame).getD i []

/-- Every frame is such a frame. -/
def KeepsAll (isTermux : Bool) : TUI × Screen Cell height width → List (List (List ℕ)) → Prop
  | _, [] => True
  | s, frame :: frames => d.Keeps height s.1 frame ∧
      ∀ s', d.render isTermux s frame = .ok s' → KeepsAll isTermux s' frames

/-! ### The terminal in step -/

/-- What every call keeps: the screen is a window on the lines of the last frame. -/
structure Settled (s : TUI × Screen Cell height width) : Prop where
  running : s.1.stopped = false
  keepsRows : s.1.clearOnShrink = false
  sameWidth : s.1.previousWidth = 0 ∨ s.1.previousWidth = width
  sameHeight : s.1.previousHeight = 0 ∨ s.1.previousHeight = height
  lines : ∀ line ∈ s.1.previousLines, line ≠ []
  window : s.2.Window d.blank (d.page s.1.previousLines) s.1.previousViewportTop s.1.hardwareCursorRow
  inside : s.1.previousLines.length ≤ s.1.previousViewportTop + height
  seen : s.1.previousLines ≠ [] → s.1.previousViewportTop < s.1.previousLines.length
  start : s.1.previousLines = [] → s.1.previousViewportTop = 0 ∧ s.1.hardwareCursorRow = 0 ∧ s.2.col = 0

variable {d} {page : ℕ → List Cell} {top row : ℕ}

theorem settled_start (hheight : 0 < height) (showHardwareCursor : Bool) :
    d.Settled (d.start hheight showHardwareCursor : TUI × Screen Cell height width) := by
  refine ⟨rfl, rfl, Or.inl rfl, Or.inl rfl, ?_, Screen.window_clear hheight, Nat.zero_le _, ?_, fun _ => ⟨rfl, rfl, rfl⟩⟩
  · intro line hline
    cases hline
  · intro hne
    exact absurd rfl hne

theorem Settled.shown {s : TUI × Screen Cell height width} (h : d.Settled s) {frame : List (List ℕ)}
    (hlines : s.1.previousLines = d.frameLines height frame) : d.Shown s frame := by
  refine ⟨fun r c => ?_, ?_, hlines⟩
  · rw [← hlines]
    exact h.window.cells r c
  · have := h.window.cursor
    omega

theorem length_frameLines (d : Display Cell) (height : ℕ) (frame : List (List ℕ)) :
    (d.frameLines height frame).length = frame.length := by
  unfold frameLines applyLineResets
  rw [List.length_map, length_extractCursorPosition]

theorem positionHardwareCursor_some (t : TUI) (pos : ℕ × ℕ) {totalLines : ℕ} (h : totalLines ≠ 0) :
    t.positionHardwareCursor (some pos) totalLines = ({ t with hardwareCursorRow := min pos.1 (totalLines - 1) },
      moveRows ((min pos.1 (totalLines - 1) : ℕ) - (t.hardwareCursorRow : ℤ)) ++
        [Output.cursorColumn (pos.2 + 1), .showCursor t.showHardwareCursor]) := by
  show (if totalLines = 0 then _ else _) = _
  rw [if_neg h]

/-- The cursor is left where it is, or moved to a row on the screen. -/
theorem positionHardwareCursor_window {t : TUI} {screen : Screen Cell height width} {cursorPos : Option (ℕ × ℕ)}
    {totalLines : ℕ} (h : screen.Window d.blank page top t.hardwareCursorRow) (hin : totalLines ≤ top + height)
    (hpos : ∀ pos ∈ cursorPos, top ≤ pos.1 ∧ pos.1 < totalLines) :
    ∃ row, (t.positionHardwareCursor cursorPos totalLines).1 = { t with hardwareCursorRow := row } ∧
      (d.writeAll screen (t.positionHardwareCursor cursorPos totalLines).2).Window d.blank page top row ∧
      (totalLines = 0 → row = t.hardwareCursorRow ∧
        d.writeAll screen (t.positionHardwareCursor cursorPos totalLines).2 = screen) := by
  cases cursorPos with
  | none => exact ⟨t.hardwareCursorRow, rfl, h, fun _ => ⟨rfl, rfl⟩⟩
  | some pos =>
    obtain ⟨htop, hlt⟩ := hpos pos rfl
    rw [positionHardwareCursor_some t pos (by omega)]
    refine ⟨min pos.1 (totalLines - 1), rfl, ?_, fun hzero => by omega⟩
    have hmoved := moveRows_window h (min pos.1 (totalLines - 1)) (by omega) (by omega)
    rw [writeAll_append]
    exact hmoved.cursorColumn (pos.2 + 1)

/-- A frame is on the screen: the cursor is positioned and the frame is kept. -/
theorem keepFrame_settled (t : TUI) (cursorPos : Option (ℕ × ℕ)) {screen : Screen Cell height width}
    {newLines : List (List ℕ)} (hrunning : t.stopped = false) (hkeepsRows : t.clearOnShrink = false)
    (hlines : ∀ line ∈ newLines, line ≠ [])
    (hwindow : screen.Window d.blank (d.page newLines) t.previousViewportTop t.hardwareCursorRow)
    (hinside : newLines.length ≤ t.previousViewportTop + height)
    (hseen : newLines ≠ [] → t.previousViewportTop < newLines.length)
    (hstart : newLines = [] → t.previousViewportTop = 0 ∧ t.hardwareCursorRow = 0 ∧ screen.col = 0)
    (hpos : ∀ pos ∈ cursorPos, t.previousViewportTop ≤ pos.1 ∧ pos.1 < newLines.length) :
    d.Settled ((t.keepFrame width height newLines cursorPos).1,
        d.writeAll screen (t.keepFrame width height newLines cursorPos).2) ∧
      (t.keepFrame width height newLines cursorPos).1.previousLines = newLines ∧
      (t.keepFrame width height newLines cursorPos).1.previousViewportTop = t.previousViewportTop := by
  obtain ⟨row, hstate, hmoved, hstay⟩ := positionHardwareCursor_window hwindow hinside hpos
  have hkeep : (t.keepFrame width height newLines cursorPos).1 =
      { t with hardwareCursorRow := row, previousLines := newLines, previousWidth := width, previousHeight := height } := by
    show { (t.positionHardwareCursor cursorPos newLines.length).1 with
      previousLines := newLines, previousWidth := width, previousHeight := height } = _
    rw [hstate]
  rw [hkeep]
  refine ⟨⟨hrunning, hkeepsRows, Or.inr rfl, Or.inr rfl, hlines, hmoved, hinside, hseen, fun hnil => ?_⟩, rfl, rfl⟩
  obtain ⟨htop, hrow, hcol⟩ := hstart hnil
  obtain ⟨hsame, hscreen⟩ := hstay (List.length_eq_zero_iff.mpr hnil)
  exact ⟨htop, hsame.trans hrow, (congrArg Screen.col hscreen).trans hcol⟩

/-! ### A frame that is written in full -/

theorem setRows_page (lines : List (List ℕ)) : setRows (fun _ => []) 0 (lines.map d.paint) = d.page lines := by
  funext i
  unfold setRows Display.page
  rw [if_pos (Nat.zero_le i), Nat.sub_zero, List.getElem?_map]
  cases lines[i]? <;> rfl

/-- **A frame that is written in full is on the screen**, if the terminal is cleared or clear. -/
theorem fullRender_settled (t : TUI) (screen : Screen Cell height width) {newLines : List (List ℕ)}
    {cursorPos : Option (ℕ × ℕ)} {clear : Bool} (hheight : 0 < height) (hrunning : t.stopped = false)
    (hkeepsRows : t.clearOnShrink = false) (hlines : ∀ line ∈ newLines, line ≠ [])
    (hfits : ∀ line ∈ newLines, d.visibleWidth line ≤ width)
    (hclear : clear = true ∨ (screen.Window d.blank (fun _ => []) 0 0 ∧ screen.col = 0))
    (hpos : ∀ pos ∈ cursorPos, newLines.length ≤ pos.1 + height ∧ pos.1 < newLines.length) :
    d.Settled ((t.fullRender width height newLines cursorPos clear).1,
        d.writeAll screen (t.fullRender width height newLines cursorPos clear).2) ∧
      (t.fullRender width height newLines cursorPos clear).1.previousLines = newLines := by
  set cleared := d.writeAll screen (if clear then [.eraseScreen, .cursorHome, .eraseScrollback] else []) with hcleared
  have hblank : cleared.Window d.blank (fun _ => []) 0 0 ∧ cleared.col = 0 := by
    rcases hclear with rfl | hclear
    · exact ⟨Screen.window_erased screen, rfl⟩
    · cases clear with
      | true => exact ⟨Screen.window_erased screen, rfl⟩
      | false => exact hclear
  set written := d.writeAll cleared (writeRows (fun line => [.text line]) newLines) with hwritten
  have hwindow : written.Window d.blank (d.page newLines) (max height newLines.length - height) (newLines.length - 1) ∧
      (newLines = [] → written.col = 0) := by
    by_cases hnil : newLines = []
    · rw [hwritten, hnil]
      refine ⟨?_, fun _ => hblank.2⟩
      rw [show max height ([] : List (List ℕ)).length - height = 0 by simp]
      exact hblank.1
    · have hrows := writeRows_window (fun line => [.text line]) d.paint (· = []) hnil
        (fun line hline _ _ _ _ h hcol hempty => text_window (hfits line hline) h hcol hempty) hblank.1 hblank.2
        fun _ _ => rfl
      rw [setRows_page, Nat.zero_add, show max 0 (newLines.length - height) = max height newLines.length - height by omega]
        at hrows
      exact ⟨hrows, fun h => absurd h hnil⟩
  have hkept := keepFrame_settled { t with
      fullRedrawCount := t.fullRedrawCount + 1
      cursorRow := newLines.length - 1
      hardwareCursorRow := newLines.length - 1
      maxLinesRendered := if clear then newLines.length else max t.maxLinesRendered newLines.length
      previousViewportTop := max height newLines.length - height } cursorPos
    hrunning hkeepsRows hlines hwindow.1 (by show newLines.length ≤ max height newLines.length - height + height; omega)
    (fun hne => by
      have := List.length_pos_of_ne_nil hne
      show max height newLines.length - height < newLines.length
      omega)
    (fun hnil => by
      refine ⟨?_, ?_, hwindow.2 hnil⟩
      · show max height newLines.length - height = 0
        rw [hnil]
        simp
      · show newLines.length - 1 = 0
        rw [hnil]
        rfl)
    (fun pos hp => by
      obtain ⟨hle, hlt⟩ := hpos pos hp
      refine ⟨?_, hlt⟩
      show max height newLines.length - height ≤ pos.1
      omega)
  refine ⟨?_, hkept.2.1⟩
  have hscreen : d.writeAll screen (t.fullRender width height newLines cursorPos clear).2 =
      d.writeAll written (TUI.keepFrame { t with
        fullRedrawCount := t.fullRedrawCount + 1
        cursorRow := newLines.length - 1
        hardwareCursorRow := newLines.length - 1
        maxLinesRendered := if clear then newLines.length else max t.maxLinesRendered newLines.length
        previousViewportTop := max height newLines.length - height } width height newLines cursorPos).2 := by
    unfold TUI.fullRender
    simp only [writeAll_append]
    rfl
  rw [hscreen]
  exact hkept.1

/-! ### Deleted lines -/

/-- The page without the rows from `row` on. -/
def eraseRows (page : ℕ → List Cell) (row k : ℕ) (i : ℕ) : List Cell := if row ≤ i ∧ i < row + k then [] else page i

/-- What is written to erase rows and to go to the next. -/
def eraseDown (k : ℕ) (i : ℕ) : List Output :=
  [Output.carriageReturn, .eraseLine] ++ if i + 1 < k then [Output.cursorDown 1] else []

/-- Erasing a row, or one that is erased already. -/
theorem update_eraseRows {screen : Screen Cell height width} (h : screen.Window d.blank page top row) (j : ℕ) :
    Function.update (eraseRows page row j) (min (row + j) (top + height - 1)) [] = eraseRows page row (j + 1) := by
  have hbounds := h.bounds
  funext i
  unfold eraseRows
  by_cases hi : i = min (row + j) (top + height - 1)
  · rw [hi, Function.update_self, if_pos (by omega)]
  · rw [Function.update_of_ne hi]
    by_cases hj : i = row + j
    · rw [hj, if_neg (by omega), if_pos (by omega), h.below _ (by omega)]
    · by_cases hin : row ≤ i ∧ i < row + j
      · rw [if_pos hin, if_pos (by omega)]
      · rw [if_neg hin, if_neg (by omega)]

/-- Rows are erased one after the other, the last row of the screen again if there are no more. -/
theorem eraseDown_window {screen : Screen Cell height width} (h : screen.Window d.blank page top row) {k : ℕ} :
    ∀ j, j < k → (d.writeAll screen ((List.range j).flatMap (eraseDown k))).Window d.blank (eraseRows page row j) top
      (min (row + j) (top + height - 1))
  | 0, _ => by
    have hbounds := h.bounds
    have hsame : eraseRows page row 0 = page := by
      funext i
      unfold eraseRows
      rw [if_neg (by omega)]
    rw [hsame, show min (row + 0) (top + height - 1) = row by omega]
    exact h
  | j + 1, hj => by
    have hbounds := h.bounds
    have hrow := (eraseDown_window (k := k) h j (by omega)).carriageReturn.eraseLine.cursorDown Nat.one_pos
    rw [update_eraseRows h, show min (min (row + j) (top + height - 1) + 1) (top + height - 1) =
      min (row + (j + 1)) (top + height - 1) by omega] at hrow
    rw [List.range_succ, List.flatMap_append, List.flatMap_singleton, writeAll_append, eraseDown, if_pos hj]
    exact hrow

/-- All of them. -/
theorem eraseDown_all {screen : Screen Cell height width} (h : screen.Window d.blank page top row) {k : ℕ} (hk : 0 < k) :
    (d.writeAll screen ((List.range k).flatMap (eraseDown k))).Window d.blank (eraseRows page row k) top
        (min (row + k - 1) (top + height - 1)) ∧
      (d.writeAll screen ((List.range k).flatMap (eraseDown k))).col = 0 := by
  obtain ⟨j, rfl⟩ := Nat.exists_eq_add_one_of_ne_zero (Nat.pos_iff_ne_zero.mp hk)
  have hlast := (eraseDown_window h j (Nat.lt_succ_self j)).carriageReturn.eraseLine
  rw [update_eraseRows h] at hlast
  rw [List.range_succ, List.flatMap_append, List.flatMap_singleton, writeAll_append, eraseDown,
    if_neg (Nat.lt_irrefl _)]
  exact ⟨hlast, rfl⟩

theorem page_of_length_le {lines : List (List ℕ)} {i : ℕ} (h : lines.length ≤ i) : d.page lines i = [] := by
  unfold Display.page
  rw [List.getElem?_eq_none h]
  rfl

theorem page_congr {p n : List (List ℕ)} {i : ℕ} (h : p[i]? = n[i]?) : d.page p i = d.page n i := by
  unfold Display.page
  rw [h]

theorem computeLineDiff_same (hardwareCursorRow viewportTop targetRow : ℕ) :
    computeLineDiff hardwareCursorRow viewportTop viewportTop targetRow = (targetRow : ℤ) - hardwareCursorRow := by
  show ((targetRow : ℤ) - viewportTop) - ((hardwareCursorRow : ℤ) - viewportTop) = _
  omega

/-- The rows below the target are erased, or all rows but the first if that has nothing. -/
theorem erased_page {p n : List (List ℕ)} {height : ℕ} (hlt : n.length < p.length) (hin : p.length ≤ top + height)
    (hbefore : ∀ i, i < n.length → p[i]? = n[i]?) (htop : top ≤ n.length - 1)
    (hempty : n = [] → top = 0 ∧ (1 < height → ∀ line ∈ p.head?, ∀ x ∈ d.paint line, x = d.blank)) (i c : ℕ)
    (hi : top ≤ i) :
    (eraseRows (d.page p) (min (n.length - 1 + 1) (top + height - 1)) (p.length - n.length) i).getD c d.blank =
      (d.page n i).getD c d.blank := by
  have hheight : 0 < height := by omega
  unfold eraseRows
  by_cases herased : min (n.length - 1 + 1) (top + height - 1) ≤ i ∧
      i < min (n.length - 1 + 1) (top + height - 1) + (p.length - n.length)
  · rw [if_pos herased, page_of_length_le (by omega)]
  · rw [if_neg herased]
    by_cases hin' : i < n.length
    · rw [page_congr (hbefore i hin')]
    · rw [page_of_length_le (by omega : n.length ≤ i)]
      by_cases hi' : i < p.length
      · -- only the first row is left
        have hn : n = [] := List.length_eq_zero_iff.mp (by omega)
        obtain ⟨htop', hblank⟩ := hempty hn
        have hzero : i = 0 := by
          rw [hn] at herased
          simp only [List.length_nil] at herased
          omega
        have hone : 1 < height := by
          rw [hn] at herased
          simp only [List.length_nil] at herased
          omega
        subst hzero
        unfold Display.page
        cases hp : p[0]? with
        | none => rfl
        | some line =>
          have hall := hblank hone line (by rw [List.head?_eq_getElem?]; exact hp)
          show (d.paint line).getD c d.blank = _
          rw [List.getD_eq_getElem?_getD]
          cases hc : (d.paint line)[c]? with
          | none => rfl
          | some x => exact hall x (List.mem_of_getElem? hc)
      · rw [page_of_length_le (by omega)]

/-- **Deleted lines are erased.** -/
theorem renderDeleted_settled {s : TUI × Screen Cell height width} (h : d.Settled s) (cursorPos : Option (ℕ × ℕ))
    {newLines : List (List ℕ)} (hlines : ∀ line ∈ newLines, line ≠ [])
    (hfits : ∀ line ∈ newLines, d.visibleWidth line ≤ width) (hlt : newLines.length < s.1.previousLines.length)
    (hbefore : ∀ i, i < newLines.length → s.1.previousLines[i]? = newLines[i]?)
    (hempty : newLines = [] → s.1.previousViewportTop = 0 → 1 < height →
      ∀ line ∈ s.1.previousLines.head?, ∀ x ∈ d.paint line, x = d.blank)
    (hbounds : ∀ pos ∈ cursorPos, newLines.length ≤ pos.1 + height ∧ pos.1 < newLines.length)
    (hpos : s.1.previousViewportTop ≤ newLines.length - 1 → ∀ pos ∈ cursorPos, s.1.previousViewportTop ≤ pos.1) :
    d.Settled ((s.1.renderDeleted width height s.1.previousViewportTop newLines cursorPos).1,
        d.writeAll s.2 (s.1.renderDeleted width height s.1.previousViewportTop newLines cursorPos).2) ∧
      (s.1.renderDeleted width height s.1.previousViewportTop newLines cursorPos).1.previousLines = newLines := by
  have hheight : 0 < height := Nat.zero_lt_of_lt s.2.row_lt
  have hinside := h.inside
  have hfull := fullRender_settled s.1 s.2 hheight h.running h.keepsRows hlines hfits
    (Or.inl rfl) hbounds
  unfold TUI.renderDeleted
  rw [if_pos hlt]
  by_cases htarget : newLines.length - 1 < s.1.previousViewportTop
  · simp only [htarget, if_true]
    exact hfull
  · have hextra : ¬height < s.1.previousLines.length - newLines.length := by omega
    simp only [htarget, hextra, if_false]
    set extraLines := s.1.previousLines.length - newLines.length with hextraLines
    have hpositive : 0 < extraLines := by omega
    rw [if_pos hpositive, if_pos hpositive]
    set moved := d.writeAll s.2 (moveRows (computeLineDiff s.1.hardwareCursorRow s.1.previousViewportTop
      s.1.previousViewportTop (newLines.length - 1))) with hmoved
    have hmove : moved.Window d.blank (d.page s.1.previousLines) s.1.previousViewportTop (newLines.length - 1) := by
      rw [hmoved, computeLineDiff_same]
      exact moveRows_window h.window _ (by omega) (by omega)
    obtain ⟨herased, hcol⟩ := eraseDown_all (hmove.carriageReturn.cursorDown Nat.one_pos) hpositive
    set erased := d.writeAll (moved.carriageReturn.cursorDown 1) ((List.range extraLines).flatMap (eraseDown extraLines))
      with herasedDef
    have hcolBack : (erased.cursorUp extraLines).col = 0 := by
      show min erased.col (width - 1) = 0
      rw [hcol, Nat.zero_min]
    have hinside' : newLines.length ≤ s.1.previousViewportTop + height := by omega
    have hseen : newLines ≠ [] → s.1.previousViewportTop < newLines.length := by
      intro hne
      have := List.length_pos_of_ne_nil hne
      omega
    have hfirst : newLines = [] → s.1.previousViewportTop = 0 ∧
        (1 < height → ∀ line ∈ s.1.previousLines.head?, ∀ x ∈ d.paint line, x = d.blank) := by
      intro hnil
      have hzero : s.1.previousViewportTop = 0 := by
        rw [hnil, List.length_nil] at htarget
        omega
      exact ⟨hzero, hempty hnil hzero⟩
    have hback : (erased.cursorUp extraLines).Window d.blank (d.page newLines) s.1.previousViewportTop
        (newLines.length - 1) := by
      have hup := herased.cursorUp hpositive
      rw [show max s.1.previousViewportTop (min (min (newLines.length - 1 + 1) (s.1.previousViewportTop + height - 1) +
        extraLines - 1) (s.1.previousViewportTop + height - 1) - extraLines) = newLines.length - 1 by omega] at hup
      exact hup.congr (fun i c hi => erased_page hlt hinside hbefore (by omega) hfirst i c hi) fun i hi =>
        page_of_length_le (by omega)
    have hkept := keepFrame_settled
      { s.1 with cursorRow := newLines.length - 1, hardwareCursorRow := newLines.length - 1 } cursorPos h.running h.keepsRows hlines hback hinside' hseen
      (fun hnil => ⟨(hfirst hnil).1, by rw [hnil]; rfl, hcolBack⟩)
      fun pos hp => ⟨hpos (by omega) pos hp, (hbounds pos hp).2⟩
    set kept := TUI.keepFrame { s.1 with cursorRow := newLines.length - 1, hardwareCursorRow := newLines.length - 1 }
      width height newLines cursorPos with hkeptDef
    have hscreen : d.writeAll s.2 ([Output.synchronized true] ++ moveRows (computeLineDiff s.1.hardwareCursorRow
        s.1.previousViewportTop s.1.previousViewportTop (newLines.length - 1)) ++
          [Output.carriageReturn] ++ [Output.cursorDown 1] ++ (List.range extraLines).flatMap (eraseDown extraLines) ++
            [Output.cursorUp extraLines] ++ [Output.synchronized false] ++
            kept.2) = d.writeAll (erased.cursorUp extraLines) kept.2 := by
      simp only [writeAll_append]
      rfl
    have hstate : { kept.1 with previousViewportTop := s.1.previousViewportTop } = kept.1 := by
      rw [← hkept.2.2]
    refine ⟨?_, hkept.2.1⟩
    show d.Settled ({ kept.1 with previousViewportTop := s.1.previousViewportTop }, d.writeAll s.2 (_ ++ kept.2))
    rw [hstate]
    exact hscreen ▸ hkept.1

/-! ### Changed lines -/

/-- The lines that are written, from the first changed one on. -/
theorem written_page {p n : List (List ℕ)} {first renderEnd : ℕ} (hbefore : ∀ i, i < first → p[i]? = n[i]?)
    (hend : renderEnd < n.length) (i : ℕ) :
    setRows (d.page p) first (((n.take (renderEnd + 1)).drop first).map d.paint) i =
      if i ≤ renderEnd then d.page n i else d.page p i := by
  unfold setRows
  by_cases hi : first ≤ i
  · rw [if_pos hi, List.getElem?_map, List.getElem?_drop, show first + (i - first) = i by omega, List.getElem?_take]
    by_cases hle : i ≤ renderEnd
    · rw [if_pos (by omega), if_pos hle]
      unfold Display.page
      rw [List.getElem?_eq_getElem (by omega)]
      rfl
    · rw [if_neg (by omega), if_neg hle]
      rfl
  · rw [if_neg hi, page_congr (hbefore i (by omega))]
    split <;> rfl

/-- The lines after the last one are erased. -/
theorem erasedRows_window {screen : Screen Cell height width} (h : screen.Window d.blank page top row) (extraLines : ℕ)
    (hin : row + extraLines < top + height) :
    (d.writeAll screen ((List.range extraLines).flatMap fun _ => [.carriageReturn, .lineFeed, .eraseLine])).Window d.blank
      (eraseRows page (row + 1) extraLines) top (row + extraLines) := by
  have hrows := rows_window (fun _ => [.eraseLine]) (fun _ => []) (fun _ => True)
    (List.range extraLines) (fun _ _ _ _ _ _ h _ _ => h.eraseLine) h fun _ _ => trivial
  rw [List.length_range, Nat.max_eq_left (by omega)] at hrows
  refine hrows.congr_from fun i _ => ?_
  unfold setRows eraseRows
  by_cases hi : row + 1 ≤ i
  · rw [if_pos hi, List.getElem?_map]
    by_cases hlt : i < row + 1 + extraLines
    · rw [if_pos ⟨hi, hlt⟩, List.getElem?_range (by omega)]
      rfl
    · rw [if_neg (by omega), List.getElem?_eq_none (by rw [List.length_range]; omega)]
      rfl
  · rw [if_neg hi, if_neg (by omega)]

/-- What the changed lines of two frames are, as `renderChanged` needs it. -/
structure Changes (p n : List (List ℕ)) (first last : ℕ) : Prop where
  inside : first < n.length
  changed : p[first]? ≠ n[first]?
  before : ∀ i, i < first → p[i]? = n[i]?
  after : ∀ i, last < i → p[i]? = n[i]?

theorem Changes.bounds {p n : List (List ℕ)} {first last : ℕ} (h : Changes p n first last) :
    first ≤ p.length ∧ first ≤ last ∧ (n.length < p.length → n.length ≤ last) ∧
      (p.length < n.length → n.length ≤ last + 1) := by
  have hin := h.inside
  refine ⟨?_, ?_, fun hlt => ?_, fun hlt => ?_⟩
  · by_contra hgt
    have := h.before p.length (by omega)
    rw [List.getElem?_eq_none (Nat.le_refl _), List.getElem?_eq_getElem (by omega)] at this
    cases this
  · by_contra hgt
    exact h.changed (h.after first (by omega))
  · by_contra hgt
    have := h.after n.length (by omega)
    rw [List.getElem?_eq_none (Nat.le_refl n.length), List.getElem?_eq_getElem hlt] at this
    cases this
  · by_contra hgt
    have := h.after (n.length - 1) (by omega)
    rw [List.getElem?_eq_none (by omega), List.getElem?_eq_getElem (by omega)] at this
    cases this

/-- **Changed lines are written over.** -/
theorem renderChanged_settled {s : TUI × Screen Cell height width} (h : d.Settled s) (cursorPos : Option (ℕ × ℕ))
    (appendStart : Bool) {newLines : List (List ℕ)} {first last : ℕ} (hlines : ∀ line ∈ newLines, line ≠ [])
    (hfits : ∀ line ∈ newLines, d.visibleWidth line ≤ width) (hne : s.1.previousLines ≠ [])
    (hchanges : Changes s.1.previousLines newLines first last) (hfirst : s.1.previousViewportTop ≤ first)
    (happend : appendStart = true ↔ first = s.1.previousLines.length)
    (hbounds : ∀ pos ∈ cursorPos, newLines.length ≤ pos.1 + height ∧ pos.1 < newLines.length)
    (hpos : ∀ pos ∈ cursorPos, s.1.previousViewportTop ≤ pos.1) :
    ∃ r, s.1.renderChanged d.visibleWidth width height s.1.previousViewportTop newLines cursorPos first last appendStart =
        .ok r ∧ d.Settled (r.1, d.writeAll s.2 r.2) ∧ r.1.previousLines = newLines := by
  have hheight : 0 < height := Nat.zero_lt_of_lt s.2.row_lt
  have hinside := h.inside
  have hseen := h.seen hne
  have hin := hchanges.inside
  obtain ⟨hle, hlast, hshrunk, hgrown⟩ := hchanges.bounds
  set target := if appendStart then first - 1 else first with htarget
  have htarget' : s.1.previousViewportTop ≤ target ∧ target < s.1.previousViewportTop + height := by
    rw [htarget]
    by_cases ha : appendStart = true
    · have := happend.mp ha
      rw [if_pos ha]
      omega
    · have : first ≠ s.1.previousLines.length := fun heq => ha (happend.mpr heq)
      rw [if_neg ha]
      omega
  have hscroll : scrollTo height s.1.previousViewportTop s.1.hardwareCursorRow target =
      ([], s.1.previousViewportTop, s.1.hardwareCursorRow) := by
    show (if (s.1.previousViewportTop : ℤ) + height - 1 < target then _ else _) = _
    rw [if_neg (by omega)]
  set renderEnd := min last (newLines.length - 1) with hrenderEnd
  set rendered := (newLines.take (renderEnd + 1)).drop first with hrendered
  have hwide : rendered.findIdx? (fun line => width < d.visibleWidth line) = none := by
    rw [List.findIdx?_eq_none_iff]
    intro line hline
    have := hfits line (List.mem_of_mem_take (List.mem_of_mem_drop hline))
    exact decide_eq_false (by omega)
  set moved := d.writeAll s.2 (moveRows (computeLineDiff s.1.hardwareCursorRow s.1.previousViewportTop
    s.1.previousViewportTop target)) with hmoved
  have hmove : moved.Window d.blank (d.page s.1.previousLines) s.1.previousViewportTop target := by
    rw [hmoved, computeLineDiff_same]
    exact moveRows_window h.window target htarget'.1 htarget'.2
  set begun := d.writeAll moved (if appendStart then [.carriageReturn, .lineFeed] else [.carriageReturn]) with hbegun
  have hbegin : begun.Window d.blank (d.page s.1.previousLines) (max s.1.previousViewportTop (first + 1 - height)) first ∧
      begun.col = 0 := by
    rw [hbegun]
    by_cases ha : appendStart = true
    · have := happend.mp ha
      have hrow : target = first - 1 := if_pos ha
      have hlength := List.length_pos_of_ne_nil hne
      have hnext := hmove.carriageReturn.lineFeed
      rw [hrow, show first - 1 + 2 - height = first + 1 - height by omega, show first - 1 + 1 = first by omega] at hnext
      rw [if_pos ha]
      exact ⟨hnext, Screen.lineFeed_col _ _⟩
    · have hrow : target = first := if_neg ha
      rw [hrow] at hmove htarget'
      rw [if_neg ha, Nat.max_eq_left (by omega)]
      exact ⟨hmove.carriageReturn, rfl⟩
  set written := d.writeAll begun (writeRows (fun line => [.eraseLine, .text line]) rendered) with hwritten
  have hwrite : written.Window d.blank (fun i => if i ≤ renderEnd then d.page newLines i else d.page s.1.previousLines i)
      (max s.1.previousViewportTop (renderEnd + 1 - height)) renderEnd := by
    have hlength : rendered.length = renderEnd + 1 - first := by
      rw [hrendered, List.length_drop, List.length_take]
      omega
    have hrows := writeRows_window (fun line => [.eraseLine, .text line]) d.paint (fun _ => True)
      (List.ne_nil_of_length_pos (by omega : 0 < rendered.length))
      (fun line hline _ _ _ _ h hcol _ => erased_text_window
        (hfits line (List.mem_of_mem_take (List.mem_of_mem_drop hline))) h hcol) hbegin.1 hbegin.2 fun _ _ => trivial
    rw [hlength, show first + (renderEnd + 1 - first) = renderEnd + 1 by omega,
      show max (max s.1.previousViewportTop (first + 1 - height)) (renderEnd + 1 - height) =
        max s.1.previousViewportTop (renderEnd + 1 - height) by omega] at hrows
    exact hrows.congr_from fun i _ => written_page hchanges.before (by omega) i
  set extraLines := s.1.previousLines.length - newLines.length with hextraLines
  set cleared := d.writeAll written (if newLines.length < s.1.previousLines.length then
      (if renderEnd < newLines.length - 1 then [Output.cursorDown (newLines.length - 1 - renderEnd)] else []) ++
        ((List.range extraLines).flatMap fun _ => [Output.carriageReturn, .lineFeed, .eraseLine]) ++ [Output.cursorUp extraLines]
    else []) with hcleared
  have hclear : cleared.Window d.blank (d.page newLines) (max s.1.previousViewportTop (renderEnd + 1 - height))
      renderEnd := by
    rw [hcleared]
    by_cases hs : newLines.length < s.1.previousLines.length
    · have hend := hshrunk hs
      have hup := (erasedRows_window hwrite extraLines (by omega)).cursorUp (n := extraLines) (by omega)
      rw [Nat.add_sub_cancel, show max (max s.1.previousViewportTop (renderEnd + 1 - height)) renderEnd = renderEnd by
        omega] at hup
      rw [if_pos hs, if_neg (by omega), List.nil_append, writeAll_append]
      refine hup.congr_from fun i hi => ?_
      unfold eraseRows
      by_cases hi' : i ≤ renderEnd
      · rw [if_neg (by omega)]
        exact if_pos hi'
      · have hnone : d.page newLines i = [] := page_of_length_le (by omega)
        rw [hnone]
        split
        · rfl
        · exact (if_neg hi').trans (page_of_length_le (by omega))
    · rw [if_neg hs]
      refine hwrite.congr_from fun i hi => ?_
      by_cases hi' : i ≤ renderEnd
      · exact if_pos hi'
      · refine (if_neg hi').trans ?_
        by_cases hlt : last < i
        · exact page_congr (hchanges.after i hlt)
        · rw [page_of_length_le (by omega), page_of_length_le (by omega)]
  have hkept := keepFrame_settled { s.1 with
      cursorRow := newLines.length - 1
      hardwareCursorRow := renderEnd
      maxLinesRendered := max s.1.maxLinesRendered newLines.length
      previousViewportTop := max s.1.previousViewportTop (renderEnd + 1 - height) } cursorPos
    h.running h.keepsRows hlines hclear
    (by
      show newLines.length ≤ max s.1.previousViewportTop (renderEnd + 1 - height) + height
      omega)
    (fun _ => by
      show max s.1.previousViewportTop (renderEnd + 1 - height) < newLines.length
      omega)
    (fun hnil => by
      rw [hnil] at hin
      exact absurd hin (Nat.not_lt_zero _))
    (fun pos hp => by
      obtain ⟨hlow, hlt⟩ := hbounds pos hp
      have htop := hpos pos hp
      refine ⟨?_, hlt⟩
      show max s.1.previousViewportTop (renderEnd + 1 - height) ≤ pos.1
      omega)
  set kept := TUI.keepFrame { s.1 with
    cursorRow := newLines.length - 1
    hardwareCursorRow := renderEnd
    maxLinesRendered := max s.1.maxLinesRendered newLines.length
    previousViewportTop := max s.1.previousViewportTop (renderEnd + 1 - height) } width height newLines cursorPos with hkeptDef
  have hfinal : (if newLines.length < s.1.previousLines.length ∧ renderEnd < newLines.length - 1 then newLines.length - 1
      else renderEnd) = renderEnd := by
    rw [if_neg]
    rintro ⟨hs, hlt⟩
    have := hshrunk hs
    omega
  unfold TUI.renderChanged
  simp only [← htarget, hscroll, ← hrenderEnd, ← hrendered, hwide, hfinal]
  refine ⟨_, rfl, ?_, hkept.2.1⟩
  simp only [writeAll_append]
  exact hkept.1

/-! ### One call after the other -/

/-- The terminal has its size, and rows are not cleared when a frame is shorter. -/
theorem Settled.doRender_eq {s : TUI × Screen Cell height width} (h : d.Settled s) (isTermux : Bool)
    (frame : List (List ℕ)) : s.1.doRender d.visibleWidth isTermux width height frame =
      if s.1.previousLines = [] then
        .ok (s.1.fullRender width height (d.frameLines height frame) (extractCursorPosition d.visibleWidth frame height).1
          false)
      else
        s.1.renderDifference d.visibleWidth width height s.1.previousViewportTop (d.frameLines height frame)
          (extractCursorPosition d.visibleWidth frame height).1 := by
  have hwidth : ¬(s.1.previousWidth ≠ 0 ∧ s.1.previousWidth ≠ width) := by
    have := h.sameWidth
    tauto
  have hheight : ¬(s.1.previousHeight ≠ 0 ∧ s.1.previousHeight ≠ height) := by
    have := h.sameHeight
    tauto
  unfold TUI.doRender
  simp only [h.running, h.keepsRows, hwidth, hheight, Bool.false_eq_true, if_false, false_and, not_false_eq_true, and_true]
  rfl

/-- A frame that does not differ is left on the screen. -/
theorem unchanged_settled {s : TUI × Screen Cell height width} (h : d.Settled s) (cursorPos : Option (ℕ × ℕ))
    (hne : s.1.previousLines ≠ [])
    (hpos : ∀ pos ∈ cursorPos, s.1.previousViewportTop ≤ pos.1 ∧ pos.1 < s.1.previousLines.length) :
    d.Settled ({ (s.1.positionHardwareCursor cursorPos s.1.previousLines.length).1 with
        previousViewportTop := s.1.previousViewportTop, previousHeight := height },
      d.writeAll s.2 (s.1.positionHardwareCursor cursorPos s.1.previousLines.length).2) ∧
      (s.1.positionHardwareCursor cursorPos s.1.previousLines.length).1.previousLines = s.1.previousLines := by
  obtain ⟨row, hstate, hmoved, -⟩ := positionHardwareCursor_window h.window h.inside hpos
  rw [hstate]
  exact ⟨⟨h.running, h.keepsRows, h.sameWidth, Or.inr rfl, h.lines, hmoved, h.inside, h.seen, fun hnil => absurd hnil hne⟩,
    rfl⟩

/-- **What every call keeps**, if its frame fits and keeps the terminal in step. -/
theorem Settled.render {s : TUI × Screen Cell height width} (h : d.Settled s) {frame : List (List ℕ)}
    (hfits : d.Fits height width frame) (hkeeps : d.Keeps height s.1 frame) (isTermux : Bool) :
    ∃ s', d.render isTermux s frame = .ok s' ∧ d.Settled s' ∧ s'.1.previousLines = d.frameLines height frame := by
  have hheight : 0 < height := Nat.zero_lt_of_lt s.2.row_lt
  have hlength := length_frameLines d height frame
  have hlines : ∀ line ∈ d.frameLines height frame, line ≠ [] := fun line hline => ne_nil_of_mem_applyLineResets hline
  have hbounds : ∀ pos ∈ (extractCursorPosition d.visibleWidth frame height).1,
      (d.frameLines height frame).length ≤ pos.1 + height ∧ pos.1 < (d.frameLines height frame).length := by
    intro pos hp
    rw [hlength]
    exact extractCursorPosition_bounds hp
  have hfull : ∀ (clear : Bool), (clear = true ∨ (s.2.Window d.blank (fun _ => []) 0 0 ∧ s.2.col = 0)) →
      d.Settled ((s.1.fullRender width height (d.frameLines height frame)
          (extractCursorPosition d.visibleWidth frame height).1 clear).1,
        d.writeAll s.2 (s.1.fullRender width height (d.frameLines height frame)
          (extractCursorPosition d.visibleWidth frame height).1 clear).2) ∧
      (s.1.fullRender width height (d.frameLines height frame)
        (extractCursorPosition d.visibleWidth frame height).1 clear).1.previousLines = d.frameLines height frame :=
    fun clear hclear => fullRender_settled s.1 s.2 hheight h.running h.keepsRows hlines hfits hclear hbounds
  unfold Display.render
  rw [h.doRender_eq]
  by_cases hnil : s.1.previousLines = []
  · obtain ⟨htop, hrow, hcol⟩ := h.start hnil
    have hwindow := h.window
    rw [hnil, htop, hrow] at hwindow
    rw [if_pos hnil]
    exact ⟨_, rfl, hfull false (Or.inr ⟨hwindow, hcol⟩)⟩
  · rw [if_neg hnil]
    have hseen := h.seen hnil
    -- a cursor above the screen is met by a change above it, or by a frame that ends there
    have hreach : ∀ pos ∈ (extractCursorPosition d.visibleWidth frame height).1,
        s.1.previousViewportTop < frame.length →
        (∀ i, i < s.1.previousViewportTop → s.1.previousLines[i]? = (d.frameLines height frame)[i]?) →
        s.1.previousViewportTop ≤ pos.1 := by
      intro pos hp hlt hsame
      rcases hkeeps.reaches pos hp with hle | hle | ⟨i, hi, hne⟩
      · exact hle
      · omega
      · rw [List.getD_eq_getElem?_getD, List.getD_eq_getElem?_getD, hsame i hi] at hne
        exact absurd rfl hne
    unfold TUI.renderDifference
    cases hfirst : firstChanged s.1.previousLines (d.frameLines height frame) with
    | none =>
      have heq := eq_of_firstChanged h.lines hlines hfirst
      have hunchanged := unchanged_settled h (extractCursorPosition d.visibleWidth frame height).1 hnil
        fun pos hp => ⟨hreach pos hp (by rw [← hlength, ← heq]; exact hseen) fun i _ => by rw [heq],
          by rw [heq]; exact (hbounds pos hp).2⟩
      rw [← heq]
      exact ⟨_, rfl, hunchanged⟩
    | some first =>
      obtain ⟨hchanged, hbefore⟩ := firstChanged_spec h.lines hlines hfirst
      have hchanged' : s.1.previousLines[first]? ≠ (d.frameLines height frame)[first]? := by
        intro heq
        rw [List.getD_eq_getElem?_getD, List.getD_eq_getElem?_getD, heq] at hchanged
        exact hchanged rfl
      by_cases hdeleted : (d.frameLines height frame).length ≤ first
      · have hlt : (d.frameLines height frame).length < s.1.previousLines.length := by
          by_contra hge
          rw [List.getElem?_eq_none (by omega), List.getElem?_eq_none hdeleted] at hchanged'
          exact hchanged' rfl
        have hresult := renderDeleted_settled h (extractCursorPosition d.visibleWidth frame height).1
          hlines hfits hlt (fun i hi => hbefore i (by omega))
          (fun hempty => hkeeps.clears (List.length_eq_zero_iff.mp (by rw [← hlength, hempty]; rfl)))
          hbounds fun htop pos hp => hreach pos hp (by have := hbounds pos hp; omega) fun i hi => hbefore i (by omega)
        simp only [hdeleted, if_true]
        exact ⟨_, rfl, hresult⟩
      · by_cases habove : first < s.1.previousViewportTop
        · simp only [hdeleted, habove, if_true, if_false]
          exact ⟨_, rfl, hfull true (Or.inl rfl)⟩
        · have hchanges : Changes s.1.previousLines (d.frameLines height frame) first
              (lastChanged s.1.previousLines (d.frameLines height frame)) :=
            ⟨by omega, hchanged', hbefore, fun i hi => lastChanged_spec h.lines hlines hi⟩
          have hpositive := List.length_pos_of_ne_nil hnil
          obtain ⟨r, hr, hresult⟩ := renderChanged_settled h
            (extractCursorPosition d.visibleWidth frame height).1
            (decide (s.1.previousLines.length < (d.frameLines height frame).length ∧
              first = s.1.previousLines.length ∧ 0 < first)) hlines hfits hnil hchanges (by omega)
            (by
              rw [decide_eq_true_iff]
              refine ⟨fun ha => ha.2.1, fun heq => ⟨?_, heq, ?_⟩⟩ <;> omega)
            hbounds fun pos hp => hreach pos hp (by omega) fun i hi => hbefore i (by omega)
          simp only [hdeleted, habove, if_false]
          rw [hr]
          exact ⟨_, rfl, hresult⟩

theorem Settled.renderAll {isTermux : Bool} : ∀ (frames : List (List (List ℕ))) {s : TUI × Screen Cell height width},
    d.Settled s → (∀ frame ∈ frames, d.Fits height width frame) → d.KeepsAll isTermux s frames →
      ∃ s', d.renderAll isTermux s frames = .ok s' ∧ d.Settled s' ∧
        ∀ frame ∈ frames.getLast?, s'.1.previousLines = d.frameLines height frame
  | [], s, h, _, _ => ⟨s, rfl, h, fun _ hf => by cases hf⟩
  | frame :: frames, s, h, hfits, hkeeps => by
    obtain ⟨s₁, h₁, hsettled, hlines⟩ := h.render (hfits frame List.mem_cons_self) hkeeps.1 isTermux
    obtain ⟨s', hs', hsettled', hlines'⟩ := Settled.renderAll frames hsettled
      (fun f hf => hfits f (List.mem_cons_of_mem _ hf)) (hkeeps.2 s₁ h₁)
    refine ⟨s', ?_, hsettled', ?_⟩
    · show (d.render isTermux s frame).bind _ = _
      rw [h₁]
      exact hs'
    · intro last hlast
      cases frames with
      | nil =>
        obtain rfl : frame = last := Option.some.inj hlast
        obtain rfl : s₁ = s' := Except.ok.inj hs'
        exact hlines
      | cons next rest => exact hlines' last hlast

/-- **For every sequence of frames that fit and keep the terminal in step, the screen shows the
last frame from `previousViewportTop` on, as if it had been written in full.** -/
theorem renderAll_shown (d : Display Cell) (hheight : 0 < height) (isTermux showHardwareCursor : Bool)
    (frames : List (List (List ℕ))) (frame : List (List ℕ))
    (hfits : ∀ f ∈ frames ++ [frame], d.Fits height width f)
    (hkeeps : d.KeepsAll isTermux (d.start hheight showHardwareCursor : TUI × Screen Cell height width) (frames ++ [frame])) :
    ∃ s, d.renderAll isTermux (d.start hheight showHardwareCursor : TUI × Screen Cell height width) (frames ++ [frame]) =
      .ok s ∧ d.Shown s frame := by
  obtain ⟨s, hs, hsettled, hlines⟩ := (settled_start hheight showHardwareCursor).renderAll _ hfits hkeeps
  exact ⟨s, hs, hsettled.shown (hlines frame List.getLast?_concat)⟩

end Display

/-- A terminal that shows the code units before the first escape sequence, one a column. -/
def plainDisplay : Display ℕ where
  blank := 0x20
  paint := fun text => text.takeWhile (· ≠ ESC)
  visibleWidth := fun text => (text.takeWhile (· ≠ ESC)).length
  length_paint := fun _ => rfl

namespace Display

/-- A second line that changes. -/
theorem renderAll_shown_change : ∃ s, plainDisplay.renderAll false
      (plainDisplay.start (by decide) false : TUI × Screen ℕ 2 4) ([[[0x61], [0x62]]] ++ [[[0x61], [0x63]]]) = .ok s ∧
    plainDisplay.Shown s [[0x61], [0x63]] :=
  renderAll_shown plainDisplay (by decide) false false [[[0x61], [0x62]]] [[0x61], [0x63]]
    (by unfold Fits; decide)
    ⟨⟨(fun h => by cases h), fun pos hp => by cases hp⟩, fun _ _ =>
      ⟨⟨(fun h => by cases h), fun pos hp => by cases hp⟩, fun _ _ => trivial⟩⟩

/-- A frame without lines after one with a line, which is still there. -/
theorem renderAll_not_shown : (∀ f ∈ [[[0x61]], []], plainDisplay.Fits 2 4 f) ∧
    ∃ s, plainDisplay.renderAll false (plainDisplay.start (by decide) false : TUI × Screen ℕ 2 4) [[[0x61]], []] = .ok s ∧
      ¬plainDisplay.Shown s [] := by
  refine ⟨by unfold Fits; decide, _, rfl, fun h => ?_⟩
  have hcell := h.rows 0 0
  revert hcell
  decide

end Display

end Trek.Tui
