/-
# What the terminal shows

The terminal shows what `doRender` writes: texts as cells, and the control sequences as moves
and erasures on a screen. Rows that are written one after the other are rows of the page that
the screen is a window on (`writeRows_window`).
-/
import Trek.Lib.Screen
import Trek.Tui.Render

namespace Trek.Tui

/-- How a terminal shows text: the cells of a line, as many as `visibleWidth` counts columns. -/
structure Display (Cell : Type*) where
  blank : Cell
  paint : List ℕ → List Cell
  visibleWidth : List ℕ → ℕ
  length_paint : ∀ text, (paint text).length = visibleWidth text

namespace Display

variable {Cell : Type*} (d : Display Cell) {height width : ℕ}

/-- One text or control sequence. -/
def write (s : Screen Cell height width) : Output → Screen Cell height width
  | .text line => s.write d.blank (d.paint line)
  | .carriageReturn => s.carriageReturn
  | .lineFeed => s.lineFeed d.blank
  | .cursorUp n => s.cursorUp n
  | .cursorDown n => s.cursorDown n
  | .cursorColumn n => s.cursorColumn n
  | .cursorHome => s.cursorHome
  | .eraseLine => s.eraseLine d.blank
  | .eraseScreen => s.eraseScreen d.blank
  | .eraseScrollback | .synchronized _ | .showCursor _ => s

/-- All of them. -/
def writeAll (s : Screen Cell height width) (output : List Output) : Screen Cell height width := output.foldl d.write s

/-- The cells of a line, none where there is no line. -/
def page (lines : List (List ℕ)) (i : ℕ) : List Cell := (lines[i]?).elim [] d.paint

@[simp] theorem writeAll_nil (s : Screen Cell height width) : d.writeAll s [] = s := rfl

@[simp] theorem writeAll_cons (s : Screen Cell height width) (o : Output) (output : List Output) :
    d.writeAll s (o :: output) = d.writeAll (d.write s o) output := rfl

@[simp] theorem writeAll_append (s : Screen Cell height width) (output more : List Output) :
    d.writeAll s (output ++ more) = d.writeAll (d.writeAll s output) more := List.foldl_append

variable {d} {s : Screen Cell height width} {page : ℕ → List Cell} {top row : ℕ}

theorem moveRows_window (h : s.Window d.blank page top row) (target : ℕ) (htop : top ≤ target)
    (hbottom : target < top + height) :
    (d.writeAll s (moveRows ((target : ℤ) - row))).Window d.blank page top target := by
  have hbounds := h.bounds
  unfold moveRows
  split
  · have hdown := h.cursorDown (n := ((target : ℤ) - row).toNat) (by omega)
    rw [show min (row + ((target : ℤ) - row).toNat) (top + height - 1) = target by omega] at hdown
    exact hdown
  · split
    · have hup := h.cursorUp (n := (-((target : ℤ) - row)).toNat) (by omega)
      rw [show max top (row - (-((target : ℤ) - row)).toNat) = target by omega] at hup
      exact hup
    · rw [show row = target by omega] at h
      exact h

/-! ### Rows -/

/-- The page with rows from `row` on. -/
def setRows (page : ℕ → List Cell) (row : ℕ) (rows : List (List Cell)) (i : ℕ) : List Cell :=
  if row ≤ i then (rows[i - row]?).getD (page i) else page i

theorem setRows_nil (page : ℕ → List Cell) (row : ℕ) : setRows page row [] = page := by
  funext i
  unfold setRows
  split <;> rfl

theorem setRows_cons (page : ℕ → List Cell) (row : ℕ) (cells : List Cell) (rows : List (List Cell)) :
    setRows (Function.update page row cells) (row + 1) rows = setRows page row (cells :: rows) := by
  funext i
  unfold setRows
  rcases Nat.lt_trichotomy i row with hlt | rfl | hgt
  · rw [if_neg (by omega), if_neg (by omega), Function.update_of_ne (by omega)]
  · rw [if_neg (by omega), if_pos (Nat.le_refl i), Function.update_self, Nat.sub_self]
    rfl
  · obtain ⟨k, hk⟩ := Nat.exists_eq_add_of_lt hgt
    rw [if_pos (by omega), if_pos (by omega), Function.update_of_ne (by omega), hk,
      show row + k + 1 - (row + 1) = k by omega, show row + k + 1 - row = k + 1 by omega]
    rfl

variable {β : Type*} (rowOf : β → List Output) (cells : β → List Cell) (P : List Cell → Prop)

/-- Rows on the lines after the one of the cursor. -/
theorem rows_window : ∀ (lines : List β),
    (∀ line ∈ lines, ∀ {s : Screen Cell height width} {page : ℕ → List Cell} {top row : ℕ},
      s.Window d.blank page top row → s.col = 0 → P (page row) →
        (d.writeAll s (rowOf line)).Window d.blank (Function.update page row (cells line)) top row) →
    ∀ {s : Screen Cell height width} {page : ℕ → List Cell} {top row : ℕ},
      s.Window d.blank page top row → (∀ i, row < i → P (page i)) →
        (d.writeAll s (lines.flatMap fun line => [Output.carriageReturn, .lineFeed] ++ rowOf line)).Window d.blank
          (setRows page (row + 1) (lines.map cells)) (max top (row + 1 + lines.length - height)) (row + lines.length)
  | [], _, s, page, top, row, h, _ => by
    have hbounds := h.bounds
    rw [List.map_nil, setRows_nil, List.length_nil, Nat.add_zero, Nat.add_zero, Nat.max_eq_left (by omega)]
    exact h
  | line :: lines, hrow, s, page, top, row, h, hP => by
    have hnext := hrow line List.mem_cons_self h.carriageReturn.lineFeed (Screen.lineFeed_col _ _) (hP _ (Nat.lt_succ_self row))
    have hrest := rows_window lines (fun line hline => hrow line (List.mem_cons_of_mem _ hline)) hnext fun i hi => by
      rw [Function.update_of_ne (by omega)]
      exact hP i (by omega)
    rw [setRows_cons, show max (max top (row + 2 - height)) (row + 1 + 1 + lines.length - height) =
      max top (row + 1 + (line :: lines).length - height) by rw [List.length_cons]; omega,
      show row + 1 + lines.length = row + (line :: lines).length by rw [List.length_cons]; omega] at hrest
    rw [List.flatMap_cons, writeAll_append, writeAll_append]
    exact hrest

/-- **Rows that are written are rows of the page.** -/
theorem writeRows_window {lines : List β} (hne : lines ≠ [])
    (hrow : ∀ line ∈ lines, ∀ {s : Screen Cell height width} {page : ℕ → List Cell} {top row : ℕ},
      s.Window d.blank page top row → s.col = 0 → P (page row) →
        (d.writeAll s (rowOf line)).Window d.blank (Function.update page row (cells line)) top row)
    (h : s.Window d.blank page top row) (hcol : s.col = 0)
    (hP : ∀ i, row ≤ i → P (page i)) :
    (d.writeAll s (writeRows rowOf lines)).Window d.blank (setRows page row (lines.map cells))
      (max top (row + lines.length - height)) (row + lines.length - 1) := by
  cases lines with
  | nil => exact absurd rfl hne
  | cons line lines =>
    have hfirst := hrow line List.mem_cons_self h hcol (hP row (Nat.le_refl row))
    have hrest := rows_window rowOf cells P lines (fun line hline => hrow line (List.mem_cons_of_mem _ hline)) hfirst
        fun i hi => by
      rw [Function.update_of_ne (by omega)]
      exact hP i (by omega)
    rw [setRows_cons, show row + 1 + lines.length - height = row + (line :: lines).length - height by
      rw [List.length_cons]; omega, show row + lines.length = row + (line :: lines).length - 1 by
      rw [List.length_cons]; omega] at hrest
    rw [writeRows, writeAll_append]
    exact hrest

theorem text_window {line : List ℕ} (hfits : d.visibleWidth line ≤ width) (h : s.Window d.blank page top row)
    (hcol : s.col = 0) (hempty : page row = []) :
    (d.writeAll s [.text line]).Window d.blank (Function.update page row (d.paint line)) top row :=
  h.write hcol hempty (by rw [d.length_paint]; exact hfits)

theorem erased_text_window {line : List ℕ} (hfits : d.visibleWidth line ≤ width) (h : s.Window d.blank page top row)
    (hcol : s.col = 0) :
    (d.writeAll s [.eraseLine, .text line]).Window d.blank (Function.update page row (d.paint line)) top row := by
  have hwritten := text_window hfits h.eraseLine hcol (Function.update_self row [] page)
  rw [Function.update_idem] at hwritten
  exact hwritten

end Display

end Trek.Tui
