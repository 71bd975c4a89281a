/-
# Texts and their lines

A text is split into lines at a separator. A place in the lines, a row and a column, is a place in the
text: `LinesAt` says which text stands before it and which after it. Two texts put together have the
lines of both, where the last line of the first and the first line of the second are one
(`splitOn_append`).
-/
import Mathlib.Data.List.Basic

namespace Trek

variable {α : Type*} [DecidableEq α] {sep : α}

/-- The parts of a list have no separator. -/
theorem notMem_of_mem_splitOn {α : Type*} [BEq α] [LawfulBEq α] {a : α} : ∀ {xs part : List α}, part ∈ xs.splitOn a → a ∉ part
  | [], part, h => by
    obtain rfl : part = [] := by simpa using h
    exact List.not_mem_nil
  | x :: xs, part, h => by
    rw [List.splitOn_cons_eq_if_modifyHead] at h
    by_cases hx : (x == a) = true
    · rw [if_pos hx] at h
      rcases List.mem_cons.mp h with rfl | h
      · exact List.not_mem_nil
      · exact notMem_of_mem_splitOn h
    · rw [if_neg hx] at h
      obtain ⟨first, rest, hsplit⟩ := List.exists_cons_of_ne_nil (List.splitOn_ne_nil a xs)
      have hparts : ∀ part ∈ first :: rest, a ∉ part := fun part hp => notMem_of_mem_splitOn (hsplit ▸ hp)
      rw [hsplit, List.modifyHead_cons] at h
      rcases List.mem_cons.mp h with rfl | h
      · rw [List.mem_cons, not_or]
        exact ⟨fun he => hx (beq_iff_eq.mpr he.symm), hparts first List.mem_cons_self⟩
      · exact hparts part (List.mem_cons_of_mem _ h)

/-- The last line of a text and the first line of the text behind it become one. -/
theorem splitOn_append : ∀ {front back l₁ l₂ : List α} {pre post : List (List α)}, front.splitOn sep = pre ++ [l₁] →
    back.splitOn sep = l₂ :: post → (front ++ back).splitOn sep = pre ++ (l₁ ++ l₂) :: post
  | [], back, l₁, l₂, pre, post, hfront, hback => by
    rw [List.splitOn_nil] at hfront
    obtain ⟨rfl, hl⟩ := List.append_inj' (hfront.symm.trans (List.nil_append _).symm) rfl
    obtain rfl := List.singleton_inj.mp hl
    exact hback
  | c :: front, back, l₁, l₂, pre, post, hfront, hback => by
    rw [List.splitOn_cons_eq_if_modifyHead] at hfront
    rw [List.cons_append, List.splitOn_cons_eq_if_modifyHead]
    obtain ⟨pre', l', hsplit⟩ := List.eq_nil_or_concat' (front.splitOn sep) |>.resolve_left (List.splitOn_ne_nil sep front)
    have ih := splitOn_append hsplit hback
    rw [hsplit] at hfront
    by_cases hc : (c == sep) = true
    · rw [if_pos hc, ← List.cons_append] at hfront
      obtain ⟨rfl, hl⟩ := List.append_inj' hfront rfl
      obtain rfl := List.singleton_inj.mp hl
      rw [if_pos hc, ih, List.cons_append]
    · rw [if_neg hc] at hfront
      rw [if_neg hc, ih]
      cases pre' with
      | nil =>
        have hsingle : [] ++ [c :: l'] = pre ++ [l₁] := hfront
        obtain ⟨rfl, hl⟩ := List.append_inj' hsingle rfl
        obtain rfl := List.singleton_inj.mp hl
        rfl
      | cons p pre' =>
        rw [List.cons_append, List.modifyHead_cons, ← List.cons_append] at hfront
        obtain ⟨rfl, hl⟩ := List.append_inj' hfront rfl
        obtain rfl := List.singleton_inj.mp hl
        rfl

theorem eq_of_splitOn_eq (sep : α) {text text' : List α} (h : text.splitOn sep = text'.splitOn sep) : text = text' := by
  have hjoin := congrArg [sep].intercalate h
  rwa [List.intercalate_splitOn, List.intercalate_splitOn] at hjoin

/-- Lines without the separator are those of a text. -/
theorem exists_splitOn_eq {lines : List (List α)} (hsep : ∀ line ∈ lines, sep ∉ line) (hne : lines ≠ []) :
    ∃ text : List α, text.splitOn sep = lines :=
  ⟨[sep].intercalate lines, List.splitOn_intercalate sep hsep hne⟩

/-- A text is taken apart in its last line. -/
theorem exists_front_of_splitOn {text x y : List α} {pre : List (List α)} (h : text.splitOn sep = pre ++ [x ++ y]) :
    ∃ front, text = front ++ y ∧ front.splitOn sep = pre ++ [x] := by
  have hsep : ∀ line ∈ pre ++ [x ++ y], sep ∉ line := fun _ hline => notMem_of_mem_splitOn (h ▸ hline)
  have hlast := hsep (x ++ y) (by simp)
  rw [List.mem_append, not_or] at hlast
  obtain ⟨front, hfront⟩ : ∃ front : List α, front.splitOn sep = pre ++ [x] := by
    refine exists_splitOn_eq (fun line hline => ?_) (by simp)
    rcases List.mem_append.mp hline with hline | hline
    · exact hsep line (List.mem_append_left _ hline)
    · rw [List.mem_singleton.mp hline]
      exact hlast.1
  refine ⟨front, eq_of_splitOn_eq sep ?_, hfront⟩
  rw [h, splitOn_append hfront (List.splitOn_eq_singleton hlast.2)]

/-- A text is taken apart in its first line. -/
theorem exists_back_of_splitOn {text x y : List α} {post : List (List α)} (h : text.splitOn sep = (x ++ y) :: post) :
    ∃ back, text = x ++ back ∧ back.splitOn sep = y :: post := by
  have hsep : ∀ line ∈ (x ++ y) :: post, sep ∉ line := fun _ hline => notMem_of_mem_splitOn (h ▸ hline)
  have hfirst := hsep (x ++ y) List.mem_cons_self
  rw [List.mem_append, not_or] at hfirst
  obtain ⟨back, hback⟩ : ∃ back : List α, back.splitOn sep = y :: post := by
    refine exists_splitOn_eq (fun line hline => ?_) (by simp)
    rcases List.mem_cons.mp hline with rfl | hline
    · exact hfirst.2
    · exact hsep line (List.mem_cons_of_mem _ hline)
  refine ⟨back, eq_of_splitOn_eq sep ?_, hback⟩
  have hsingle : x.splitOn sep = [] ++ [x] := List.splitOn_eq_singleton hfirst.1
  rw [h, splitOn_append hsingle hback]
  rfl

/-- A text is taken apart before its last line. -/
theorem exists_front_of_splitOn_concat {text x y : List α} {pre : List (List α)} (h : text.splitOn sep = pre ++ [x, y]) :
    ∃ front, text = front ++ sep :: y ∧ front.splitOn sep = pre ++ [x] := by
  have hsep : ∀ line ∈ pre ++ [x, y], sep ∉ line := fun _ hline => notMem_of_mem_splitOn (h ▸ hline)
  obtain ⟨front, hfront⟩ : ∃ front : List α, front.splitOn sep = pre ++ [x] := by
    refine exists_splitOn_eq (fun line hline => hsep line ?_) (by simp)
    rcases List.mem_append.mp hline with hline | hline
    · exact List.mem_append_left _ hline
    · exact List.mem_append_right _ (List.mem_cons.mpr (Or.inl (List.mem_singleton.mp hline)))
  have hline : y.splitOn sep = [y] := List.splitOn_eq_singleton (hsep y (by simp))
  have hback : (sep :: y).splitOn sep = [] :: [y] := by
    rw [List.splitOn_cons_eq_if_modifyHead, if_pos (beq_self_eq_true sep), hline]
  refine ⟨front, eq_of_splitOn_eq sep ?_, hfront⟩
  rw [h, splitOn_append hfront hback, List.append_nil]

/-- A text is taken apart behind its first line. -/
theorem exists_back_of_splitOn_cons {text x y : List α} {post : List (List α)} (h : text.splitOn sep = x :: y :: post) :
    ∃ back, text = x ++ sep :: back ∧ back.splitOn sep = y :: post := by
  have hsep : ∀ line ∈ x :: y :: post, sep ∉ line := fun _ hline => notMem_of_mem_splitOn (h ▸ hline)
  obtain ⟨back, hback⟩ : ∃ back : List α, back.splitOn sep = y :: post :=
    exists_splitOn_eq (fun line hline => hsep line (List.mem_cons_of_mem _ hline)) (by simp)
  refine ⟨back, eq_of_splitOn_eq sep ?_, hback⟩
  rw [h, List.splitOn_append_cons_self, hback, List.splitOn_eq_singleton (hsep x List.mem_cons_self)]
  rfl

/-- A row and a column in lines, with the text before them and the text after them. -/
def LinesAt (sep : α) (lines : List (List α)) (row col : ℕ) (before after : List α) : Prop :=
  ∃ pre l₁ l₂ post, before.splitOn sep = pre ++ [l₁] ∧ after.splitOn sep = l₂ :: post ∧
    lines = pre ++ (l₁ ++ l₂) :: post ∧ row = pre.length ∧ col = l₁.length

variable {lines : List (List α)} {row col : ℕ} {before after : List α}

/-- Every place in lines is a place in a text. -/
theorem exists_linesAt (hsep : ∀ line ∈ lines, sep ∉ line) (hrow : row < lines.length) (hcol : col ≤ lines[row].length) :
    ∃ before after, LinesAt sep lines row col before after := by
  have hsplit : lines = lines.take row ++ lines[row] :: lines.drop (row + 1) := by
    rw [← List.drop_eq_getElem_cons hrow, List.take_append_drop]
  have hline := hsep _ (List.getElem_mem hrow)
  have htake : sep ∉ lines[row].take col := fun h => hline (List.take_subset _ _ h)
  have hdrop : sep ∉ lines[row].drop col := fun h => hline (List.drop_subset _ _ h)
  refine ⟨[sep].intercalate (lines.take row ++ [lines[row].take col]),
    [sep].intercalate (lines[row].drop col :: lines.drop (row + 1)), lines.take row, lines[row].take col,
    lines[row].drop col, lines.drop (row + 1), ?_, ?_, ?_, ?_, ?_⟩
  · refine List.splitOn_intercalate sep (fun l hl => ?_) (by simp)
    rcases List.mem_append.mp hl with hl | hl
    · exact hsep l (List.take_subset _ _ hl)
    · rwa [List.mem_singleton.mp hl]
  · refine List.splitOn_intercalate sep (fun l hl => ?_) (by simp)
    rcases List.mem_cons.mp hl with rfl | hl
    · exact hdrop
    · exact hsep l (List.drop_subset _ _ hl)
  · rwa [List.take_append_drop]
  · rw [List.length_take_of_le (Nat.le_of_lt hrow)]
  · rw [List.length_take_of_le hcol]

namespace LinesAt

/-- The lines are those of the text. -/
theorem lines_eq (h : LinesAt sep lines row col before after) : lines = (before ++ after).splitOn sep := by
  obtain ⟨pre, l₁, l₂, post, hbefore, hafter, rfl, -, -⟩ := h
  exact (splitOn_append hbefore hafter).symm

/-- The text is determined by its lines. -/
theorem append_eq (h : LinesAt sep lines row col before after) : before ++ after = [sep].intercalate lines := by
  rw [h.lines_eq, List.intercalate_splitOn]

theorem unique {lines' : List (List α)} {row' col' : ℕ} (h : LinesAt sep lines row col before after)
    (h' : LinesAt sep lines' row' col' before after) : lines = lines' ∧ row = row' ∧ col = col' := by
  obtain ⟨pre, l₁, l₂, post, hbefore, hafter, rfl, rfl, rfl⟩ := h
  obtain ⟨pre', l₁', l₂', post', hbefore', hafter', rfl, rfl, rfl⟩ := h'
  obtain ⟨rfl, hl⟩ := List.append_inj' (hbefore.symm.trans hbefore') rfl
  obtain rfl := List.singleton_inj.mp hl
  obtain ⟨rfl, rfl⟩ := List.cons.inj (hafter.symm.trans hafter')
  exact ⟨rfl, rfl, rfl⟩

theorem notMem (h : LinesAt sep lines row col before after) : ∀ line ∈ lines, sep ∉ line := fun _ hline =>
  notMem_of_mem_splitOn (h.lines_eq ▸ hline)

theorem row_lt (h : LinesAt sep lines row col before after) : row < lines.length := by
  obtain ⟨pre, l₁, l₂, post, -, -, rfl, rfl, -⟩ := h
  simp

theorem col_le (h : LinesAt sep lines row col before after) : col ≤ (lines.getD row []).length := by
  obtain ⟨pre, l₁, l₂, post, -, -, rfl, rfl, rfl⟩ := h
  simp

end LinesAt

end Trek
