/-
# Moves by visual lines

The visual lines of the text follow each other without a gap (`Maps`), so that every place in the text is
in one of them. A vertical move ends at a place in the text if it starts from a visual column that is not
below zero (`WellFormed.moveToVisualLine`), and if a move that goes on from a continuation of a segment
does not go on from the wrong column; from one visual line to the next it cannot.
-/
import Trek.Editor.KillSpecs
import Mathlib.Data.List.Chain
import Mathlib.Data.List.TakeWhile

namespace Trek.Editor

open Trek.Tui

/-- The visual lines from a column of a row on: each takes a part of its line, and the last one of a line
ends where the line does. -/
inductive Maps (lines : List (List ℕ)) : ℕ → ℕ → List VisualLine → Prop
  | done : Maps lines lines.length 0 []
  | more {row pos n : ℕ} {rest : List VisualLine} (hrow : row < lines.length) (hlen : pos + n ≤ (lines.getD row []).length)
      (h : Maps lines row (pos + n) rest) (hne : rest ≠ []) (hhead : ∀ vl, rest.head? = some vl → vl.logicalLine = row) :
      Maps lines row pos (⟨row, pos, n⟩ :: rest)
  | last {row pos n : ℕ} {rest : List VisualLine} (hrow : row < lines.length) (hlen : pos + n = (lines.getD row []).length)
      (h : Maps lines (row + 1) 0 rest) : Maps lines row pos (⟨row, pos, n⟩ :: rest)

variable {u : Unicode} {calls width : ℕ} {e : Editor} {lines : List (List ℕ)} {row pos : ℕ} {vls : List VisualLine}

theorem contains_start {vl : VisualLine} {next : Option VisualLine} {line : ℕ} {col : ℤ} (h : vl.contains next line col = true) :
    vl.logicalLine = line ∧ vl.startCol ≤ col := by
  simp only [VisualLine.contains, Bool.and_eq_true, decide_eq_true_eq] at h
  exact ⟨h.1.1, by omega⟩

namespace Maps

/-- The first visual line starts where the others are counted from. -/
theorem head (h : Maps lines row pos vls) : ∀ vl, vls.head? = some vl → vl.logicalLine = row ∧ vl.startCol = pos := by
  intro vl hvl
  cases h with
  | done => cases hvl
  | more => obtain rfl := Option.some.inj hvl; exact ⟨rfl, rfl⟩
  | last => obtain rfl := Option.some.inj hvl; exact ⟨rfl, rfl⟩

/-- The chunks of a line are its visual lines. -/
theorem of_tiles {line : List ℕ} (hrow : row < lines.length) (hline : lines.getD row [] = line) (hrest : Maps lines (row + 1) 0 vls) :
    ∀ {chunks : List TextChunk} {pos : ℕ}, Tiles line pos chunks line.length → chunks ≠ [] →
      Maps lines row pos (chunks.map (fun chunk => ⟨row, chunk.startIndex, chunk.endIndex - chunk.startIndex⟩) ++ vls)
  | [c], pos, ⟨hstart, hle, _, hstop⟩, _ => by
    have hend : c.endIndex = line.length := hstop
    subst hstart
    exact Maps.last hrow (by rw [hline]; omega) hrest
  | c :: d :: chunks, pos, ⟨hstart, hle, _, htiles⟩, _ => by
    have ih := of_tiles hrow hline hrest htiles (List.cons_ne_nil d chunks)
    have hlen : c.endIndex ≤ line.length := htiles.le
    subst hstart
    have hend : c.startIndex + (c.endIndex - c.startIndex) = c.endIndex := by omega
    refine Maps.more hrow (by rw [hline]; omega) (by rw [hend]; exact ih) (by simp) fun vl hvl => ?_
    obtain rfl := Option.some.inj hvl
    rfl

/-- Every visual line is a part of a line. -/
theorem bounds (h : Maps lines row pos vls) : ∀ vl ∈ vls, vl.logicalLine < lines.length ∧ row ≤ vl.logicalLine ∧
    (vl.logicalLine = row → pos ≤ vl.startCol) := by
  induction h with
  | done => exact fun vl hvl => absurd hvl List.not_mem_nil
  | more hrow hlen h hne hhead ih =>
    intro vl hvl
    rcases List.mem_cons.mp hvl with rfl | hvl
    · exact ⟨hrow, le_refl _, fun _ => le_refl _⟩
    · obtain ⟨hlt, hle, hpos⟩ := ih vl hvl
      exact ⟨hlt, hle, fun heq => (Nat.le_add_right _ _).trans (hpos heq)⟩
  | last hrow hlen h ih =>
    intro vl hvl
    rcases List.mem_cons.mp hvl with rfl | hvl
    · exact ⟨hrow, le_refl _, fun _ => le_refl _⟩
    · obtain ⟨hlt, hle, -⟩ := ih vl hvl
      exact ⟨hlt, by omega, fun heq => by omega⟩

theorem inside (h : Maps lines row pos vls) : ∀ vl ∈ vls, vl.startCol + vl.length ≤ (lines.getD vl.logicalLine []).length := by
  induction h with
  | done => exact fun vl hvl => absurd hvl List.not_mem_nil
  | more hrow hlen h hne hhead ih => exact List.forall_mem_cons.mpr ⟨hlen, ih⟩
  | last hrow hlen h ih => exact List.forall_mem_cons.mpr ⟨hlen.le, ih⟩

/-- In a line the visual lines start one after the other. -/
theorem pairwise (h : Maps lines row pos vls) :
    vls.Pairwise fun vl vl' => vl'.logicalLine = vl.logicalLine → vl.startCol ≤ vl'.startCol := by
  induction h with
  | done => exact List.Pairwise.nil
  | more hrow hlen h hne hhead ih =>
    refine List.pairwise_cons.mpr ⟨fun vl hvl heq => ?_, ih⟩
    exact (Nat.le_add_right _ _).trans ((h.bounds vl hvl).2.2 heq)
  | last hrow hlen h ih =>
    refine List.pairwise_cons.mpr ⟨fun vl hvl heq => ?_, ih⟩
    have := (h.bounds vl hvl).2.1
    dsimp only at heq
    omega

/-- The first visual line of a line starts at its start. -/
theorem isChain (h : Maps lines row pos vls) :
    vls.IsChain fun vl vl' => vl'.logicalLine = vl.logicalLine ∨ vl'.startCol = 0 := by
  induction h with
  | done => exact List.IsChain.nil
  | more hrow hlen h hne hhead ih =>
    exact ih.cons fun vl hvl => Or.inl (hhead vl hvl)
  | last hrow hlen h ih =>
    exact ih.cons fun vl hvl => Or.inr (h.head vl hvl).2

/-- **Every place is in a visual line.** -/
theorem findVisualLineFrom (h : Maps lines row pos vls) (i : ℕ) {line : ℕ} {col : ℤ}
    (hline : line < lines.length) (hcol : col ≤ (lines.getD line []).length)
    (hplace : row = line ∧ pos ≤ col ∨ row < line ∧ 0 ≤ col) :
    ∃ k vl, Editor.findVisualLineFrom line col i vls = some (i + k) ∧ vls[k]? = some vl ∧ vl.logicalLine = line ∧
      vl.startCol ≤ col := by
  induction h generalizing i with
  | done => omega
  | @more row pos n rest hrow hlen h hne hhead ih =>
    rw [Editor.findVisualLineFrom]
    split
    · next hcontains =>
      refine ⟨0, _, rfl, rfl, ?_⟩
      exact contains_start hcontains
    · next hcontains =>
      have hlater : row = line ∧ (pos + n : ℕ) ≤ col ∨ row < line ∧ 0 ≤ col := by
        rcases hplace with ⟨rfl, hpos⟩ | hlater
        · refine Or.inl ⟨rfl, ?_⟩
          by_contra hlt
          refine hcontains ?_
          simp only [VisualLine.contains, Bool.and_eq_true, Bool.or_eq_true, decide_eq_true_eq, true_and]
          push_cast at hlt
          omega
        · exact Or.inr hlater
      obtain ⟨k, vl, hfind, hk, hvl⟩ := ih (i + 1) hlater
      exact ⟨k + 1, vl, by rw [hfind]; congr 1; omega, hk, hvl⟩
  | @last row pos n rest hrow hlen h ih =>
    rw [Editor.findVisualLineFrom]
    split
    · next hcontains =>
      refine ⟨0, _, rfl, rfl, ?_⟩
      exact contains_start hcontains
    · next hcontains =>
      have hlater : row + 1 = line ∧ ((0 : ℕ) : ℤ) ≤ col ∨ row + 1 < line ∧ 0 ≤ col := by
        rcases hplace with ⟨rfl, hpos⟩ | hlater
        · refine absurd ?_ hcontains
          have hlast : VisualLine.isLast ⟨row, pos, n⟩ rest.head? = true := by
            cases hrest : rest.head? with
            | none => rfl
            | some vl => simp [VisualLine.isLast, (h.head vl hrest).1]
          simp only [VisualLine.contains, hlast, Bool.and_eq_true, Bool.or_eq_true, decide_eq_true_eq, true_and]
          omega
        · omega
      obtain ⟨k, vl, hfind, hk, hvl⟩ := ih (i + 1) hlater
      exact ⟨k + 1, vl, by rw [hfind]; congr 1; omega, hk, hvl⟩

end Maps

/-! ### The visual lines of the text -/

theorem maps_visualLinesOf {line : List ℕ} {here : List VisualLine} (hwidth : 0 < width) (hrow : row < lines.length)
    (hline : lines.getD row [] = line) (hrest : Maps lines (row + 1) 0 vls) (h : visualLinesOf u calls e width row line = some here) :
    Maps lines row 0 (here ++ vls) := by
  unfold visualLinesOf at h
  split at h
  · next hempty =>
    obtain rfl := Option.some.inj h
    exact Maps.last hrow (by rw [hline]; omega) hrest
  · split at h
    · obtain rfl := Option.some.inj h
      exact Maps.last hrow (by rw [hline]; omega) hrest
    · obtain ⟨chunks, hchunks, rfl⟩ := Option.map_eq_some_iff.mp h
      have hspaced : Spaced line 0 (e.segment (graphemeSegmenter u) line) :=
        spaced_segmentWithMarkers line (graphemeSegmenter u) e.validPasteIds
      obtain ⟨htiles, hne⟩ := wordWrapLine_tiles calls hwidth hspaced hchunks
      exact Maps.of_tiles hrow hline hrest htiles hne

theorem maps_visualLinesFrom (hwidth : 0 < width) : ∀ (rest pre : List (List ℕ)) {vls : List VisualLine},
    visualLinesFrom u calls e width pre.length rest = some vls → Maps (pre ++ rest) pre.length 0 vls
  | [], pre, vls, h => by
    obtain rfl := Option.some.inj h
    rw [List.append_nil]
    exact Maps.done
  | line :: rest, pre, vls, h => by
    obtain ⟨here, hhere, h⟩ := Option.bind_eq_some_iff.mp h
    obtain ⟨later, hlater, rfl⟩ := Option.map_eq_some_iff.mp h
    have hlater' : visualLinesFrom u calls e width (pre ++ [line]).length rest = some later := by
      rw [List.length_append]
      exact hlater
    have ih := maps_visualLinesFrom hwidth rest (pre ++ [line]) hlater'
    rw [List.append_assoc, List.length_append] at ih
    exact maps_visualLinesOf hwidth (by simp) (by simp) ih hhere

theorem maps_buildVisualLineMap (hwidth : 0 < width) (h : e.buildVisualLineMap u calls width = some vls) :
    Maps e.state.lines 0 0 vls :=
  maps_visualLinesFrom hwidth e.state.lines [] h

/-! ### Moves -/

/-- The cursor is moved to a place in the text. -/
def Lands (e e' : Editor) : Prop :=
  ∃ row col preferred snapped, e' = { e with
      state := ⟨e.state.lines, row, col⟩
      preferredVisualCol := preferred
      snappedFromCursorCol := snapped } ∧
    row < e.state.lines.length ∧ 0 ≤ col ∧ col ≤ (e.state.lineAt row).length ∧ ∀ c, preferred = some c → 0 ≤ c

/-- The preferred visual column is not below zero. -/
def PreferredOk (e : Editor) : Prop := ∀ col, e.preferredVisualCol = some col → 0 ≤ col

theorem Lands.trans {e' e'' : Editor} (h : Lands e e') (h' : Lands e' e'') : Lands e e'' := by
  obtain ⟨row, col, preferred, snapped, rfl, -⟩ := h
  obtain ⟨row', col', preferred', snapped', rfl, hplace⟩ := h'
  exact ⟨row', col', preferred', snapped', rfl, hplace⟩

theorem Lands.preferredOk {e' : Editor} (h : Lands e e') : PreferredOk e' := by
  obtain ⟨row, col, preferred, snapped, rfl, -, -, -, hpreferred⟩ := h
  exact hpreferred

theorem Lands.wellFormed {e' : Editor} (h : Lands e e') (hwell : e.state.WellFormed) : e'.state.WellFormed := by
  obtain ⟨row, col, preferred, snapped, rfl, hrow, hcol, hle, -⟩ := h
  exact ⟨hwell.lines, hwell.newline, hrow, hcol, hle⟩

theorem lands_refl (h : e.state.WellFormed) (hpreferred : PreferredOk e) : Lands e e :=
  ⟨_, _, _, _, rfl, h.cursorLine, h.cursorCol.1, h.cursorCol.2, hpreferred⟩

/-- A move to a column of a row. -/
theorem lands_setCursor {row : ℕ} {col : ℤ} (hrow : row < e.state.lines.length) (hcol : 0 ≤ col)
    (hle : col ≤ (e.state.lineAt row).length) : Lands e ((e.setCursorLine row).setCursorCol col) :=
  ⟨row, col, none, none, rfl, hrow, hcol, hle, fun c hc => by cases hc⟩

/-- A move to a column of the line of the cursor. -/
theorem lands_setCursorCol (h : e.state.WellFormed) {col : ℤ} (hcol : 0 ≤ col) (hle : col ≤ e.state.currentLine.length) :
    Lands e (e.setCursorCol col) :=
  lands_setCursor h.cursorLine hcol hle

/-! ### Vertical moves -/

/-- A visual line starts inside of a segment of more than one character. -/
def Continues (u : Unicode) (e : Editor) (vl : VisualLine) : Prop :=
  ∃ seg ∈ e.segment (graphemeSegmenter u) (e.state.lineAt vl.logicalLine), 1 < seg.segment.length ∧
    seg.index < vl.startCol ∧ vl.startCol < seg.index + seg.segment.length

theorem computeVerticalMoveColumn_nonneg {preferred : Option ℤ} {currentVisualCol : ℤ} (hcol : 0 ≤ currentVisualCol)
    (hpreferred : ∀ c, preferred = some c → 0 ≤ c) (sourceMaxVisualCol targetMaxVisualCol : ℕ) :
    0 ≤ (computeVerticalMoveColumn preferred currentVisualCol sourceMaxVisualCol targetMaxVisualCol).2 ∧
      ∀ c, (computeVerticalMoveColumn preferred currentVisualCol sourceMaxVisualCol targetMaxVisualCol).1 = some c → 0 ≤ c := by
  have htarget : (0 : ℤ) ≤ targetMaxVisualCol := Int.natCast_nonneg _
  have hnone : ∀ c : ℤ, none = some c → 0 ≤ c := fun c hc => by cases hc
  have hcurrent : ∀ c, some currentVisualCol = some c → 0 ≤ c := fun c hc => Option.some.inj hc ▸ hcol
  unfold computeVerticalMoveColumn
  dsimp only
  cases preferred with
  | none =>
    dsimp only
    split
    · exact ⟨htarget, hcurrent⟩
    · exact ⟨hcol, hnone⟩
  | some preferredVisualCol =>
    dsimp only
    split
    · split
      · exact ⟨htarget, hcurrent⟩
      · exact ⟨hcol, hnone⟩
    · split
      · exact ⟨htarget, hpreferred⟩
      · exact ⟨hpreferred _ rfl, hnone⟩

/-- The segment that a column is snapped to. -/
theorem snapSegment_eq_some {col : ℤ} {seg : SegmentData} : ∀ {segments : List SegmentData}, snapSegment col segments = some seg →
    seg ∈ segments ∧ seg.index ≤ col ∧ 1 < seg.segment.length ∧ col < seg.index + seg.segment.length
  | s :: rest, h => by
    rw [snapSegment] at h
    split at h
    · cases h
    · split at h
      · obtain ⟨hmem, hseg⟩ := snapSegment_eq_some h
        exact ⟨List.mem_cons_of_mem _ hmem, hseg⟩
      · split at h
        · obtain rfl := Option.some.inj h
          exact ⟨List.mem_cons_self, by omega, by omega, by assumption⟩
        · obtain ⟨hmem, hseg⟩ := snapSegment_eq_some h
          exact ⟨List.mem_cons_of_mem _ hmem, hseg⟩

/-- Where a continuation ends: in the same line the next visual line is behind it, and in another one it is
the first. -/
theorem skipContinuation_start (h : Maps lines 0 0 vls) {target segEnd : ℕ} {vl vl' : VisualLine} (hvl : vls[target]? = some vl)
    (hvl' : vls[skipContinuation vls vl.logicalLine segEnd (target + 1)]? = some vl') :
    vl'.logicalLine = vl.logicalLine ∧ vl.startCol ≤ vl'.startCol ∨ vl'.startCol = 0 := by
  unfold skipContinuation at hvl'
  generalize hskipped : (vls.drop (target + 1)).takeWhile (fun w => w.logicalLine = vl.logicalLine ∧ w.startCol < segEnd) =
    skipped at hvl'
  obtain ⟨htarget, rfl⟩ := List.getElem?_eq_some_iff.mp hvl
  obtain ⟨hnext, rfl⟩ := List.getElem?_eq_some_iff.mp hvl'
  -- the visual line before the next one is in the line of the target
  have hbefore : ∀ hlt : target + skipped.length < vls.length, vls[target + skipped.length].logicalLine = vls[target].logicalLine := by
    intro hlt
    rcases Nat.eq_zero_or_pos skipped.length with hzero | hpos
    · simp only [hzero, Nat.add_zero]
    · have hskip : ∀ w ∈ skipped, w.logicalLine = vls[target].logicalLine := fun w hw => by
        rw [← hskipped] at hw
        have hsame := List.mem_takeWhile_imp hw
        exact (of_decide_eq_true hsame).1
      have hline := hskip skipped[skipped.length - 1] (List.getElem_mem _)
      have hprefix : skipped <+: vls.drop (target + 1) := hskipped ▸ List.takeWhile_prefix _
      have hget := hprefix.getElem (Nat.sub_one_lt_of_lt hpos)
      rw [List.getElem_drop] at hget
      have hindex : target + 1 + (skipped.length - 1) = target + skipped.length := by omega
      simp only [hindex] at hget
      rwa [hget] at hline
  have hlast : target + skipped.length < vls.length := by omega
  have hchain := List.isChain_iff_getElem.mp h.isChain (target + skipped.length) (by omega)
  have hindex : target + skipped.length + 1 = target + 1 + skipped.length := by omega
  simp only [hindex, hbefore hlast] at hchain
  refine hchain.imp_left fun hsame => ⟨hsame, ?_⟩
  exact List.pairwise_iff_getElem.mp h.pairwise target _ htarget hnext (by omega) hsame

/-- The cursor is put behind the start of the target, and keeps where it was snapped from. -/
theorem lands_landOn (h : Maps e.state.lines 0 0 vls) {current target : ℕ} {currentVL targetVL : VisualLine}
    (htarget : targetVL ∈ vls) (hcol : 0 ≤ e.currentVisualCol vls currentVL) (hpreferred : PreferredOk e) :
    Lands e (e.landOn vls current target currentVL targetVL) ∧
      targetVL.startCol ≤ (e.landOn vls current target currentVL targetVL).state.cursorCol ∧
      (e.landOn vls current target currentVL targetVL).state.cursorLine = targetVL.logicalLine ∧
      (e.landOn vls current target currentVL targetVL).snappedFromCursorCol = e.snappedFromCursorCol := by
  obtain ⟨hmove, hpreferred'⟩ := computeVerticalMoveColumn_nonneg hcol hpreferred
    (maxVisualCol vls current currentVL) (maxVisualCol vls target targetVL)
  have hstart : (0 : ℤ) ≤ targetVL.startCol := Int.natCast_nonneg _
  have hlength : (targetVL.startCol : ℤ) ≤ (e.state.lineAt targetVL.logicalLine).length := by
    exact_mod_cast (Nat.le_add_right _ _).trans (h.inside targetVL htarget)
  unfold landOn
  dsimp only
  refine ⟨⟨targetVL.logicalLine, _, _, _, rfl, (h.bounds targetVL htarget).1, ?_, Int.min_le_right _ _, hpreferred'⟩,
    ?_, rfl, rfl⟩
  · exact Int.le_min.mpr ⟨by omega, Int.le_trans hstart hlength⟩
  · exact Int.le_min.mpr ⟨by omega, hlength⟩

/-- **A vertical move ends in the text**, if its visual column is not below zero, and if it does not go on
from a continuation of a segment in a line where the column of the cursor has another start. -/
theorem lands_moveToVisualLine {current : ℕ} {currentVL : VisualLine} (hcurrent : vls[current]? = some currentVL) :
    ∀ (left target : ℕ) {e : Editor} {targetVL : VisualLine}, vls.length - target = left → vls[target]? = some targetVL →
      Maps e.state.lines 0 0 vls → 0 ≤ e.currentVisualCol vls currentVL → PreferredOk e →
      (current < target → e.snappedFromCursorCol = none → Continues u e targetVL → currentVL.startCol ≤ targetVL.startCol) →
      Lands e (moveToVisualLine u vls current e target) := by
  intro left
  induction left using Nat.strongRecOn with
  | ind left ih =>
    intro target e targetVL hleft htarget hmaps hcol hpreferred hcontinues
    have hmem : targetVL ∈ vls := List.mem_of_getElem? htarget
    obtain ⟨hlands, hstart, hrow, hsnapped⟩ := @lands_landOn e vls hmaps current target currentVL targetVL hmem hcol hpreferred
    unfold moveToVisualLine
    rw [hcurrent, htarget]
    dsimp only
    generalize e.landOn vls current target currentVL targetVL = e₁ at hlands hstart hrow hsnapped
    have hlands' := hlands
    obtain ⟨row, col, preferred, snapped, rfl, hrow', hzero, hle, hpreferred'⟩ := hlands'
    dsimp only at hrow hsnapped hstart
    subst hrow hsnapped
    split
    · next seg hseg =>
      obtain ⟨hsegment, hindex, hlong, hend⟩ := snapSegment_eq_some hseg
      dsimp only at hindex hend
      split
      · next hnext =>
        obtain ⟨hcontinuation, hdown, hlt⟩ := hnext
        -- the segment has started before the target: the move goes on behind it
        have hfrom : e.snappedFromCursorCol = none → currentVL.startCol ≤ targetVL.startCol := fun hnone =>
          hcontinues hdown hnone ⟨seg, hsegment, hlong, hcontinuation, by omega⟩
        obtain ⟨nextVL, hnextVL⟩ : ∃ nextVL, vls[_]? = some nextVL := ⟨_, List.getElem?_eq_getElem hlt⟩
        have hskip := skipContinuation_start hmaps htarget hnextVL
        have hbehind : target + 1 ≤ skipContinuation vls targetVL.logicalLine (seg.index + seg.segment.length) (target + 1) :=
          Nat.le_add_right _ _
        refine hlands.trans (ih _ (by omega) _ rfl hnextVL hmaps ?_ hpreferred' ?_)
        · unfold currentVisualCol at hcol ⊢
          dsimp only
          cases hsnap : e.snappedFromCursorCol with
          | some s => rwa [hsnap] at hcol
          | none =>
            have := hfrom hsnap
            dsimp only
            omega
        · rintro - hnone ⟨seg', -, -, hbefore, -⟩
          rcases hskip with ⟨-, hle'⟩ | hzero'
          · exact (hfrom hnone).trans hle'
          · omega
      · exact hlands.trans ⟨_, _, _, _, rfl, hrow', Int.natCast_nonneg _, Int.le_trans hindex hle, hpreferred'⟩
    · exact hlands.trans ⟨_, _, _, _, rfl, hrow', hzero, hle, hpreferred'⟩

/-- The column that the cursor was snapped from does not stand before the visual line that it is looked up in. -/
def Remembers (e : Editor) (vls : List VisualLine) : Prop :=
  ∀ col, e.snappedFromCursorCol = some col →
    ((vls[findVisualLineAt vls e.state.cursorLine col]?.map (·.startCol)).getD 0 : ℕ) ≤ col

theorem exists_findVisualLineAt (h : Maps e.state.lines 0 0 vls) (hrow : e.state.cursorLine < e.state.lines.length) {col : ℤ}
    (hcol : 0 ≤ col) (hle : col ≤ e.state.currentLine.length) :
    ∃ vl, vls[findVisualLineAt vls e.state.cursorLine col]? = some vl ∧ vl.logicalLine = e.state.cursorLine ∧ vl.startCol ≤ col := by
  have hplace : 0 = e.state.cursorLine ∧ ((0 : ℕ) : ℤ) ≤ col ∨ 0 < e.state.cursorLine ∧ 0 ≤ col := by omega
  obtain ⟨k, vl, hfind, hk, hvl⟩ := h.findVisualLineFrom 0 hrow hle hplace
  rw [Nat.zero_add] at hfind
  refine ⟨vl, ?_, hvl⟩
  rw [findVisualLineAt, hfind]
  exact hk

/-- The visual column that a vertical move starts from. -/
theorem currentVisualCol_nonneg (h : Maps e.state.lines 0 0 vls) (hwell : e.state.WellFormed) (hremembers : e.Remembers vls) :
    ∃ vl, vls[e.findCurrentVisualLine vls]? = some vl ∧ vl.startCol ≤ e.state.cursorCol ∧ 0 ≤ e.currentVisualCol vls vl := by
  obtain ⟨vl, hvl, hline, hstart⟩ := exists_findVisualLineAt h hwell.cursorLine hwell.cursorCol.1 hwell.cursorCol.2
  refine ⟨vl, hvl, hstart, ?_⟩
  unfold currentVisualCol
  cases hsnapped : e.snappedFromCursorCol with
  | none => exact Int.sub_nonneg_of_le hstart
  | some col =>
    have hle := hremembers col hsnapped
    dsimp only
    rw [hline]
    exact Int.sub_nonneg_of_le hle

/-- A visual line below in another line is no continuation. -/
theorem not_continues_next (h : Maps e.state.lines 0 0 vls) {i : ℕ} {vl vl' : VisualLine} (hvl : vls[i]? = some vl)
    (hvl' : vls[i + 1]? = some vl') (hcontinues : Continues u e vl') : vl.startCol ≤ vl'.startCol := by
  obtain ⟨seg, -, -, hbefore, -⟩ := hcontinues
  obtain ⟨hi, rfl⟩ := List.getElem?_eq_some_iff.mp hvl
  obtain ⟨hi', rfl⟩ := List.getElem?_eq_some_iff.mp hvl'
  rcases List.isChain_iff_getElem.mp h.isChain i hi' with hsame | hzero
  · exact List.pairwise_iff_getElem.mp h.pairwise i (i + 1) hi hi' (Nat.lt_succ_self i) hsame
  · omega

theorem visualLinesFrom_setLastAction (action : Option LastAction) : ∀ (row : ℕ) (rest : List (List ℕ)),
    visualLinesFrom u calls (e.setLastAction action) width row rest = visualLinesFrom u calls e width row rest
  | _, [] => rfl
  | row, line :: rest => by
    rw [visualLinesFrom, visualLinesFrom, visualLinesFrom_setLastAction action (row + 1) rest]
    rfl

theorem buildVisualLineMap_setLastAction (action : Option LastAction) :
    (e.setLastAction action).buildVisualLineMap u calls width = e.buildVisualLineMap u calls width :=
  visualLinesFrom_setLastAction action 0 e.state.lines

/-- **One visual line up or down.** -/
theorem lands_moveCursorLine {e' : Editor} {down : Bool} (hwell : e.state.WellFormed) (hwidth : 0 < e.lastWidth)
    (hpreferred : PreferredOk e) (hremembers : ∀ vls, e.buildVisualLineMap u calls e.lastWidth = some vls → e.Remembers vls)
    (h : e.moveCursorLine u calls down = some e') : Lands (e.setLastAction none) e' := by
  obtain ⟨vls, hvls, rfl⟩ := Option.map_eq_some_iff.mp h
  rw [buildVisualLineMap_setLastAction] at hvls
  have hmaps : Maps e.state.lines 0 0 vls := maps_buildVisualLineMap hwidth hvls
  replace hmaps : Maps (e.setLastAction none).state.lines 0 0 vls := hmaps
  have hremembers' : (e.setLastAction none).Remembers vls := hremembers vls hvls
  replace hwell : (e.setLastAction none).state.WellFormed := hwell
  replace hpreferred : PreferredOk (e.setLastAction none) := hpreferred
  generalize e.setLastAction none = e at hwell hpreferred hmaps hremembers'
  obtain ⟨vl, hvl, -, hcol⟩ := currentVisualCol_nonneg hmaps hwell hremembers'
  dsimp only
  split
  · split
    · next hlt =>
      have hnext := List.getElem?_eq_getElem hlt
      exact lands_moveToVisualLine hvl _ _ rfl hnext hmaps hcol hpreferred fun _ _ hcontinues =>
        not_continues_next hmaps hvl hnext hcontinues
    · exact lands_refl hwell hpreferred
  · split
    · next hpos =>
      obtain ⟨hlt, -⟩ := List.getElem?_eq_some_iff.mp hvl
      have hprevious := List.getElem?_eq_getElem (Nat.lt_of_le_of_lt (Nat.sub_le _ 1) hlt)
      exact lands_moveToVisualLine hvl _ _ rfl hprevious hmaps hcol hpreferred fun hdown => by omega
    · exact lands_refl hwell hpreferred

/-- What a page down needs: where the page ends in a continuation of a segment, the cursor is not moved from a
visual line that starts behind it. -/
def PageSafe (u : Unicode) (e : Editor) (vls : List VisualLine) (terminalRows : ℕ) : Prop :=
  e.snappedFromCursorCol = none → ∀ currentVL targetVL, vls[e.findCurrentVisualLine vls]? = some currentVL →
    vls[pageTarget vls (e.findCurrentVisualLine vls) true terminalRows]? = some targetVL → Continues u e targetVL →
      currentVL.startCol ≤ targetVL.startCol

/-- **One page up or down.** -/
theorem lands_pageScroll {e' : Editor} {down : Bool} {terminalRows : ℕ} (hwell : e.state.WellFormed) (hwidth : 0 < e.lastWidth)
    (hpreferred : PreferredOk e) (hremembers : ∀ vls, e.buildVisualLineMap u calls e.lastWidth = some vls → e.Remembers vls)
    (hpage : down = true → ∀ vls, e.buildVisualLineMap u calls e.lastWidth = some vls → e.PageSafe u vls terminalRows)
    (h : e.pageScroll u calls down terminalRows = some e') : Lands (e.setLastAction none) e' := by
  obtain ⟨vls, hvls, rfl⟩ := Option.map_eq_some_iff.mp h
  rw [buildVisualLineMap_setLastAction] at hvls
  have hmaps : Maps e.state.lines 0 0 vls := maps_buildVisualLineMap hwidth hvls
  replace hmaps : Maps (e.setLastAction none).state.lines 0 0 vls := hmaps
  have hremembers' : (e.setLastAction none).Remembers vls := hremembers vls hvls
  have hpage' : down = true → (e.setLastAction none).PageSafe u vls terminalRows := fun hdown => hpage hdown vls hvls
  replace hwell : (e.setLastAction none).state.WellFormed := hwell
  replace hpreferred : PreferredOk (e.setLastAction none) := hpreferred
  generalize e.setLastAction none = e at hwell hpreferred hmaps hremembers' hpage'
  obtain ⟨vl, hvl, -, hcol⟩ := currentVisualCol_nonneg hmaps hwell hremembers'
  obtain ⟨hlt, -⟩ := List.getElem?_eq_some_iff.mp hvl
  have htarget : pageTarget vls (e.findCurrentVisualLine vls) down terminalRows < vls.length := by
    unfold pageTarget
    dsimp only
    split <;> omega
  refine lands_moveToVisualLine hvl _ _ rfl (List.getElem?_eq_getElem htarget) hmaps hcol hpreferred fun hdown hnone hcontinues => ?_
  cases down with
  | true => exact hpage' rfl hnone vl _ hvl (List.getElem?_eq_getElem htarget) hcontinues
  | false =>
    unfold pageTarget at hdown
    dsimp only at hdown
    rw [if_neg Bool.false_ne_true] at hdown
    omega

/-! ### Other moves -/

/-- The end of the line before the cursor's. -/
theorem lands_previousLine (h : e.state.WellFormed) :
    Lands e ((e.setCursorLine (e.state.cursorLine - 1)).setCursorCol (e.state.lineAt (e.state.cursorLine - 1)).length) :=
  lands_setCursor (Nat.lt_of_le_of_lt (Nat.sub_le _ 1) h.cursorLine) (Int.natCast_nonneg _) (Int.le_refl _)

/-- The start of the line after the cursor's. -/
theorem lands_nextLine (h : e.state.cursorLine < e.state.lines.length - 1) :
    Lands e ((e.setCursorLine (e.state.cursorLine + 1)).setCursorCol 0) :=
  lands_setCursor (by omega) (Int.le_refl _) (Int.natCast_nonneg _)

theorem lands_moveWordBackwards (h : e.state.WellFormed) (hpreferred : PreferredOk e) (wordSegmenter : Segmenter) :
    Lands (e.setLastAction none) (e.moveWordBackwards wordSegmenter) := by
  obtain ⟨before, after, hat⟩ := h.exists_at
  unfold moveWordBackwards
  dsimp only
  replace h : (e.setLastAction none).state.WellFormed := h
  replace hat : (e.setLastAction none).state.At before after := hat
  replace hpreferred : PreferredOk (e.setLastAction none) := hpreferred
  generalize e.setLastAction none = e at h hat hpreferred
  split
  · split
    · exact lands_previousLine h
    · exact lands_refl h hpreferred
  · next hcol =>
    obtain ⟨n, hn, hword⟩ := @exists_findWordBackward e before after wordSegmenter hat hcol
    have hbounds := h.cursorCol
    rw [hword]
    exact lands_setCursorCol h (by omega) (by omega)

theorem lands_moveWordForwards (h : e.state.WellFormed) (hpreferred : PreferredOk e) (wordSegmenter : Segmenter) :
    Lands (e.setLastAction none) (e.moveWordForwards wordSegmenter) := by
  obtain ⟨before, after, hat⟩ := h.exists_at
  unfold moveWordForwards
  dsimp only
  replace h : (e.setLastAction none).state.WellFormed := h
  replace hat : (e.setLastAction none).state.At before after := hat
  replace hpreferred : PreferredOk (e.setLastAction none) := hpreferred
  generalize e.setLastAction none = e at h hat hpreferred
  split
  · split
    · next hrow => exact lands_nextLine hrow
    · exact lands_refl h hpreferred
  · next hcol =>
    obtain ⟨n, hn, hword⟩ := @exists_findWordForward e before after wordSegmenter hat (Int.not_le.mp hcol)
    have hbounds := h.cursorCol
    rw [hword]
    exact lands_setCursorCol h (by omega) hn

theorem indexOf_le {line char : List ℕ} {start idx : ℕ} (h : indexOf line char start = some idx) : idx ≤ line.length :=
  Nat.le_of_lt_succ (List.mem_range.mp (List.mem_of_find?_eq_some h))

theorem lastIndexOf_le {line char : List ℕ} {start idx : ℕ} (h : lastIndexOf line char start = some idx) : idx ≤ line.length :=
  Nat.le_of_lt_succ (List.mem_range.mp (List.mem_reverse.mp (List.mem_of_find?_eq_some h)))

theorem findChar_bounds {char : List ℕ} {isForward : Bool} {row idx : ℕ} : ∀ {rows : List ℕ},
    findChar lines char isForward rows = some (row, idx) → row ∈ rows ∧ idx ≤ (lines.getD row []).length
  | r :: rows, h => by
    rw [findChar] at h
    split at h
    · next hidx =>
      obtain ⟨rfl, rfl⟩ := Prod.mk.inj (Option.some.inj h)
      refine ⟨List.mem_cons_self, ?_⟩
      split at hidx
      · exact indexOf_le hidx
      · exact lastIndexOf_le hidx
    · obtain ⟨hmem, hle⟩ := findChar_bounds h
      exact ⟨List.mem_cons_of_mem _ hmem, hle⟩

theorem lands_jumpToChar (h : e.state.WellFormed) (hpreferred : PreferredOk e) (char : List ℕ) (isForward : Bool) :
    Lands (e.setLastAction none) (e.jumpToChar char isForward) := by
  unfold jumpToChar
  dsimp only
  replace h : (e.setLastAction none).state.WellFormed := h
  replace hpreferred : PreferredOk (e.setLastAction none) := hpreferred
  generalize e.setLastAction none = e at h hpreferred
  split
  · next row idx hfound =>
    have hplace : row < e.state.lines.length ∧ idx ≤ (e.state.lineAt row).length := by
      split at hfound
      · next hhere =>
        obtain ⟨rfl, rfl⟩ := Prod.mk.inj (Option.some.inj hfound)
        refine ⟨h.cursorLine, ?_⟩
        split at hhere
        · exact indexOf_le hhere
        · exact lastIndexOf_le hhere
      · obtain ⟨hmem, hle⟩ := findChar_bounds hfound
        refine ⟨?_, hle⟩
        split at hmem
        · exact List.mem_range.mp (List.mem_of_mem_drop hmem)
        · exact (List.mem_range.mp (List.mem_reverse.mp hmem)).trans h.cursorLine
    exact lands_setCursor hplace.1 (Int.natCast_nonneg _) (by exact_mod_cast hplace.2)
  · exact lands_refl h hpreferred

theorem lands_moveCursorCol {e' : Editor} {right : Bool} (hwell : e.state.WellFormed) (hwidth : 0 < e.lastWidth)
    (hpreferred : PreferredOk e) (h : e.moveCursorCol u calls right = some e') : Lands (e.setLastAction none) e' := by
  obtain ⟨vls, hvls, rfl⟩ := Option.map_eq_some_iff.mp h
  rw [buildVisualLineMap_setLastAction] at hvls
  have hmaps : Maps e.state.lines 0 0 vls := maps_buildVisualLineMap hwidth hvls
  replace hmaps : Maps (e.setLastAction none).state.lines 0 0 vls := hmaps
  replace hwell : (e.setLastAction none).state.WellFormed := hwell
  replace hpreferred : PreferredOk (e.setLastAction none) := hpreferred
  generalize e.setLastAction none = e at hwell hpreferred hmaps
  obtain ⟨before, after, hat⟩ := hwell.exists_at
  have hbounds := hwell.cursorCol
  dsimp only
  split
  · split
    · next hcol => exact lands_setCursorCol hwell (by omega) (firstGraphemeLength_le_length hat hcol u e)
    · split
      · next hrow => exact lands_nextLine hrow
      · split
        · next vl hvl =>
          obtain ⟨vl', hvl', -, hstart⟩ := exists_findVisualLineAt hmaps hwell.cursorLine hbounds.1 hbounds.2
          obtain rfl := Option.some.inj (hvl.symm.trans hvl')
          exact ⟨_, _, _, _, rfl, hwell.cursorLine, hbounds.1, hbounds.2, fun c hc => Option.some.inj hc ▸ Int.sub_nonneg_of_le hstart⟩
        · exact lands_refl hwell hpreferred
  · split
    · next hcol =>
      have hle := lastGraphemeLength_le_cursorCol hat hcol u e
      exact lands_setCursorCol hwell (by omega) (by omega)
    · split
      · exact lands_previousLine hwell
      · exact lands_refl hwell hpreferred

end Trek.Editor
