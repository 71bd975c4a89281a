/-
# A screen that scrolls

A grid of cells of a fixed size with a cursor. Cells are written from the cursor on and wrap
at the right edge, and a line feed on the last row moves all rows up. What the grid shows is
a window on a page of rows that has no end: as long as the cursor stays inside it, moves of
the cursor are moves on the page, and only a line feed moves the window (`Window.lineFeed`).
-/
import Mathlib.Logic.Function.Basic
import Mathlib.Order.Lattice

namespace Trek

/-- A grid of `height` rows and `width` columns and its cursor. In column `width` the cursor is
behind the last cell of its row, and the next cell wraps. -/
structure Screen (Cell : Type*) (height width : ℕ) where
  cell : Fin height → Fin width → Cell
  row : ℕ
  col : ℕ
  row_lt : row < height
  col_le : col ≤ width

namespace Screen

variable {Cell : Type*} {height width : ℕ} (blank : Cell)

/-- A screen without content, the cursor in its first row. -/
def clear (hheight : 0 < height) : Screen Cell height width := ⟨fun _ _ => blank, 0, 0, hheight, Nat.zero_le _⟩

/-- `CR`. -/
def carriageReturn (s : Screen Cell height width) : Screen Cell height width := { s with col := 0, col_le := Nat.zero_le _ }

/-- `LF`: in the last row the screen scrolls. -/
def lineFeed (s : Screen Cell height width) : Screen Cell height width :=
  if h : s.row + 1 < height then { s with row := s.row + 1, row_lt := h }
  else { s with cell := fun r c => if h : r + 1 < height then s.cell ⟨r + 1, h⟩ c else blank }

/-- Behind the last cell of a row the next row is begun. -/
def wrap (s : Screen Cell height width) : Screen Cell height width :=
  if s.col < width then s else s.carriageReturn.lineFeed blank

/-- One cell, in place of the one at the cursor. -/
def overwrite (s : Screen Cell height width) (x : Cell) : Screen Cell height width :=
  { s with
    cell := fun r c => if r.val = s.row ∧ c.val = s.col then x else s.cell r c
    col := min (s.col + 1) width
    col_le := Nat.min_le_right _ _ }

/-- One cell at the cursor. -/
def put (s : Screen Cell height width) (x : Cell) : Screen Cell height width := (s.wrap blank).overwrite x

/-- Cells from the cursor on. -/
def write (s : Screen Cell height width) (cells : List Cell) : Screen Cell height width := cells.foldl (put blank) s

/-- `CSI n A`: up, at most to the first row. -/
def cursorUp (s : Screen Cell height width) (n : ℕ) : Screen Cell height width where
  cell := s.cell
  row := s.row - max 1 n
  col := min s.col (width - 1)
  row_lt := Nat.lt_of_le_of_lt (Nat.sub_le _ _) s.row_lt
  col_le := Nat.le_trans (Nat.min_le_left _ _) s.col_le

/-- `CSI n B`: down, at most to the last row. -/
def cursorDown (s : Screen Cell height width) (n : ℕ) : Screen Cell height width where
  cell := s.cell
  row := min (s.row + max 1 n) (height - 1)
  col := min s.col (width - 1)
  row_lt := Nat.lt_of_le_of_lt (Nat.min_le_right _ _) (Nat.sub_lt (Nat.zero_lt_of_lt s.row_lt) Nat.one_pos)
  col_le := Nat.le_trans (Nat.min_le_left _ _) s.col_le

/-- `CSI n G`: to a column, counted from one. -/
def cursorColumn (s : Screen Cell height width) (n : ℕ) : Screen Cell height width :=
  { s with
    col := min (n - 1) (width - 1)
    col_le := Nat.le_trans (Nat.min_le_right _ _) (Nat.sub_le _ _) }

/-- `CSI H`: to the first column of the first row. -/
def cursorHome (s : Screen Cell height width) : Screen Cell height width :=
  { s with row := 0, col := 0, row_lt := Nat.zero_lt_of_lt s.row_lt, col_le := Nat.zero_le _ }

/-- `CSI 2 K`: the row of the cursor. -/
def eraseLine (s : Screen Cell height width) : Screen Cell height width :=
  { s with cell := fun r c => if r.val = s.row then blank else s.cell r c }

/-- `CSI 2 J`: the whole screen. -/
def eraseScreen (s : Screen Cell height width) : Screen Cell height width := { s with cell := fun _ _ => blank }

@[simp] theorem overwrite_row (s : Screen Cell height width) (x : Cell) : (s.overwrite x).row = s.row := rfl

theorem overwrite_cell (s : Screen Cell height width) (x : Cell) (r : Fin height) (c : Fin width) :
    (s.overwrite x).cell r c = if r.val = s.row ∧ c.val = s.col then x else s.cell r c := rfl

@[simp] theorem lineFeed_col (s : Screen Cell height width) : (s.lineFeed blank).col = s.col := by
  unfold lineFeed
  split <;> rfl

/-- Cells that fit in the rest of the row. -/
theorem write_fits : ∀ (cells : List Cell) (s : Screen Cell height width), s.col + cells.length ≤ width →
    (s.write blank cells).row = s.row ∧ ∀ (r : Fin height) (c : Fin width), (s.write blank cells).cell r c =
      if r.val = s.row ∧ s.col ≤ c ∧ c < s.col + cells.length then cells.getD (c - s.col) blank else s.cell r c
  | [], s, _ => by
    refine ⟨rfl, fun r c => (if_neg ?_).symm⟩
    rintro ⟨-, hle, hlt⟩
    simp only [List.length_nil] at hlt
    omega
  | x :: cells, s, hfits => by
    rw [List.length_cons] at hfits
    have hcol : s.col < width := by omega
    have hcol' : (s.overwrite x).col = s.col + 1 := Nat.min_eq_left (by omega)
    have hwrite : s.write blank (x :: cells) = (s.overwrite x).write blank cells := by
      show (s.put blank x).write blank cells = _
      rw [put, wrap, if_pos hcol]
    obtain ⟨hrow, hcell⟩ := write_fits cells (s.overwrite x) (by omega)
    rw [hwrite]
    refine ⟨hrow, fun r c => ?_⟩
    rw [hcell, overwrite_cell, hcol', overwrite_row]
    by_cases hr : r.val = s.row
    · rcases Nat.lt_trichotomy c s.col with hlt | heq | hgt
      · rw [if_neg (by omega), if_neg (by omega), if_neg (by omega)]
      · rw [if_neg (by omega), if_pos ⟨hr, heq⟩, if_pos ⟨hr, by omega, by rw [List.length_cons]; omega⟩, heq,
          Nat.sub_self]
        rfl
      · by_cases hin : c < s.col + 1 + cells.length
        · rw [if_pos ⟨hr, hgt, hin⟩, if_pos ⟨hr, by omega, by rw [List.length_cons]; omega⟩]
          obtain ⟨d, hd⟩ := Nat.exists_eq_add_of_lt hgt
          rw [hd, show s.col + d + 1 - (s.col + 1) = d by omega, show s.col + d + 1 - s.col = d + 1 by omega]
          rfl
        · rw [if_neg (by omega), if_neg (by omega), if_neg (by rw [List.length_cons]; omega)]
    · rw [if_neg (by omega), if_neg (by omega), if_neg (by omega)]

/-! ### The window on a page -/

/-- The screen shows the rows of a page from `top` on, its cursor is in a row of the page, and
the page has nothing below the screen. -/
structure Window (s : Screen Cell height width) (page : ℕ → List Cell) (top row : ℕ) : Prop where
  cells : ∀ (r : Fin height) (c : Fin width), s.cell r c = (page (top + r)).getD c blank
  below : ∀ i, top + height ≤ i → page i = []
  cursor : top + s.row = row

variable {blank} {s : Screen Cell height width} {page page' : ℕ → List Cell} {top row : ℕ}

theorem Window.bounds (h : s.Window blank page top row) : top ≤ row ∧ row < top + height := by
  have := h.cursor
  have := s.row_lt
  omega

theorem window_clear (hheight : 0 < height) : (clear blank hheight : Screen Cell height width).Window blank (fun _ => []) 0 0 :=
  ⟨fun _ _ => rfl, fun _ _ => rfl, rfl⟩

/-- Another page that shows the same from `top` on. -/
theorem Window.congr (h : s.Window blank page top row)
    (heq : ∀ i c, top ≤ i → (page i).getD c blank = (page' i).getD c blank)
    (hbelow : ∀ i, top + height ≤ i → page' i = []) : s.Window blank page' top row := by
  refine ⟨fun r c => ?_, hbelow, h.cursor⟩
  rw [← heq _ c (Nat.le_add_right top r)]
  exact h.cells r c

/-- What is above the screen does not matter. -/
theorem Window.congr_from (h : s.Window blank page top row) (heq : ∀ i, top ≤ i → page i = page' i) :
    s.Window blank page' top row := by
  refine h.congr (fun i c hi => by rw [heq i hi]) fun i hi => ?_
  rw [← heq i (by omega)]
  exact h.below i hi

theorem Window.carriageReturn (h : s.Window blank page top row) : s.carriageReturn.Window blank page top row :=
  ⟨h.cells, h.below, h.cursor⟩

theorem Window.cursorColumn (h : s.Window blank page top row) (n : ℕ) : (s.cursorColumn n).Window blank page top row :=
  ⟨h.cells, h.below, h.cursor⟩

/-- A line feed goes to the next row of the page, and takes the window along. -/
theorem Window.lineFeed (h : s.Window blank page top row) :
    (s.lineFeed blank).Window blank page (max top (row + 2 - height)) (row + 1) := by
  have hrow := h.cursor
  have hlt := s.row_lt
  unfold Screen.lineFeed
  split
  · rename_i hin
    rw [Nat.max_eq_left (by omega)]
    refine ⟨h.cells, h.below, ?_⟩
    show top + (s.row + 1) = row + 1
    omega
  · rename_i hlast
    rw [show max top (row + 2 - height) = top + 1 by omega]
    refine ⟨fun r c => ?_, fun i hi => h.below i (by omega), ?_⟩
    · show (if h : r + 1 < height then s.cell ⟨r + 1, h⟩ c else blank) = _
      rw [show top + 1 + r.val = top + (r + 1) by omega]
      split
      · rename_i hr
        exact h.cells ⟨r + 1, hr⟩ c
      · rw [h.below _ (by omega)]
        rfl
    · show top + 1 + s.row = row + 1
      omega

theorem Window.cursorUp (h : s.Window blank page top row) {n : ℕ} (hn : 0 < n) :
    (s.cursorUp n).Window blank page top (max top (row - n)) := by
  refine ⟨h.cells, h.below, ?_⟩
  have := h.cursor
  show top + (s.row - max 1 n) = max top (row - n)
  omega

theorem Window.cursorDown (h : s.Window blank page top row) {n : ℕ} (hn : 0 < n) :
    (s.cursorDown n).Window blank page top (min (row + n) (top + height - 1)) := by
  refine ⟨h.cells, h.below, ?_⟩
  have := h.cursor
  have := s.row_lt
  show top + min (s.row + max 1 n) (height - 1) = min (row + n) (top + height - 1)
  omega

/-- The row of the cursor is replaced by cells. -/
theorem Window.update (h : s.Window blank page top row) {s' : Screen Cell height width} {cells : List Cell}
    (hrow : s'.row = s.row) (hcell : ∀ (r : Fin height) (c : Fin width), s'.cell r c =
      if r.val = s.row then cells.getD c blank else s.cell r c) :
    s'.Window blank (Function.update page row cells) top row := by
  have hbounds := h.bounds
  have hcursor := h.cursor
  refine ⟨fun r c => ?_, fun i hi => ?_, by rw [hrow, hcursor]⟩
  · rw [hcell]
    by_cases hr : r.val = s.row
    · rw [if_pos hr, show top + r.val = row by omega, Function.update_self]
    · rw [if_neg hr, Function.update_of_ne (by omega)]
      exact h.cells r c
  · rw [Function.update_of_ne (by omega)]
    exact h.below i hi

theorem Window.eraseLine (h : s.Window blank page top row) :
    (s.eraseLine blank).Window blank (Function.update page row []) top row :=
  h.update rfl fun _ _ => rfl

/-- Cells that fit in the row, in a row that has none. -/
theorem Window.write (h : s.Window blank page top row) (hcol : s.col = 0) (hempty : page row = []) {cells : List Cell}
    (hfits : cells.length ≤ width) : (s.write blank cells).Window blank (Function.update page row cells) top row := by
  obtain ⟨hrow, hcell⟩ := write_fits blank cells s (by omega)
  refine h.update hrow fun r c => ?_
  rw [hcell, hcol, Nat.zero_add, Nat.sub_zero]
  by_cases hr : r.val = s.row
  · rw [if_pos hr]
    by_cases hc : c.val < cells.length
    · rw [if_pos ⟨hr, Nat.zero_le _, hc⟩]
    · have hold := h.cells r c
      rw [show top + r.val = row by rw [hr]; exact h.cursor, hempty] at hold
      rw [if_neg (by omega), hold, List.getD_eq_getElem?_getD, List.getD_eq_getElem?_getD,
        List.getElem?_eq_none (Nat.le_of_not_lt hc)]
      rfl
  · rw [if_neg hr, if_neg (by omega)]

/-- A cleared screen shows a page without content from its first row on. -/
theorem window_erased (s : Screen Cell height width) : (s.eraseScreen blank).cursorHome.Window blank (fun _ => []) 0 0 :=
  ⟨fun _ _ => rfl, fun _ _ => rfl, rfl⟩

end Screen

end Trek
