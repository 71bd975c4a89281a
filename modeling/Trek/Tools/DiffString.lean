/-
# The line numbers of a displayed diff

`generateDiffString` of `core/tools/edit-diff.ts` shows the parts of a line diff: every line that is added or
removed, and a few unchanged lines around them. Two counters go through the old and the new text. They keep in
step over every branch, so each row carries the line of its number (`generateDiffString_rows`).
-/
import Trek.Lib.Separated
import Trek.Tools.Truncate

namespace Trek.Tools

/-! ### The code -/

/-- What a part of a diff is: `added`, `removed`, or neither. -/
inductive Change
  | added | removed | unchanged
  deriving DecidableEq

/-- A part of what `Diff.diffLines` returns. -/
structure Part where
  value : List Char
  change : Change
  deriving DecidableEq

/-- `part.added || part.removed`. -/
def Part.isChange (part : Part) : Bool := part.change ≠ .unchanged

/-- `raw`: the lines of a part, without the empty text after the last line end. -/
def Part.raw (part : Part) : List (List Char) :=
  let raw := part.value.splitOn '\n'
  if raw.getLast? = some [] then raw.dropLast else raw

/-- A row of the output. -/
inductive Row
  | added (lineNum : ℕ) (line : List Char)
  | removed (lineNum : ℕ) (line : List Char)
  | context (lineNum : ℕ) (line : List Char)
  | skipped
  deriving DecidableEq

/-- `String(n).padStart(width, " ")`. -/
def paddedNumber (width n : ℕ) : List Char := (toString n).toList.leftpad width ' '

/-- A row as it is printed. -/
def Row.render (lineNumWidth : ℕ) : Row → List Char
  | .added lineNum line => '+' :: (paddedNumber lineNumWidth lineNum ++ ' ' :: line)
  | .removed lineNum line => '-' :: (paddedNumber lineNumWidth lineNum ++ ' ' :: line)
  | .context lineNum line => ' ' :: (paddedNumber lineNumWidth lineNum ++ ' ' :: line)
  | .skipped => ' ' :: (List.replicate lineNumWidth ' ' ++ [' ', '.', '.', '.'])

/-- The variables of the loop of `generateDiffString`. -/
structure DiffState where
  output : List Row
  oldLineNum : ℕ
  newLineNum : ℕ
  lastWasChange : Bool
  firstChangedLine : Option ℕ

namespace DiffState

def pushAdded (s : DiffState) (line : List Char) : DiffState :=
  { s with output := s.output ++ [.added s.newLineNum line], newLineNum := s.newLineNum + 1 }

def pushRemoved (s : DiffState) (line : List Char) : DiffState :=
  { s with output := s.output ++ [.removed s.oldLineNum line], oldLineNum := s.oldLineNum + 1 }

def pushContext (s : DiffState) (line : List Char) : DiffState :=
  { s with
    output := s.output ++ [.context s.oldLineNum line]
    oldLineNum := s.oldLineNum + 1
    newLineNum := s.newLineNum + 1 }

/-- Lines that are not shown. -/
def pass (s : DiffState) (lines : ℕ) : DiffState :=
  { s with oldLineNum := s.oldLineNum + lines, newLineNum := s.newLineNum + lines }

/-- Lines that three dots stand for. -/
def skip (s : DiffState) (skippedLines : ℕ) : DiffState :=
  pass { s with output := s.output ++ [.skipped] } skippedLines

def showContext (s : DiffState) (lines : List (List Char)) : DiffState := lines.foldl pushContext s

/-- A part that is added or removed. -/
def showChange (s : DiffState) (part : Part) : DiffState :=
  let s := { s with firstChangedLine := s.firstChangedLine.or (some s.newLineNum) }
  let s := part.raw.foldl (if part.change = .added then pushAdded else pushRemoved) s
  { s with lastWasChange := true }

/-- A part that is unchanged: only its lines next to a change are shown. -/
def showUnchanged (contextLines : ℕ) (s : DiffState) (raw : List (List Char)) (nextPartIsChange : Bool) : DiffState :=
  let s :=
    if s.lastWasChange && nextPartIsChange then
      if raw.length ≤ contextLines * 2 then s.showContext raw
      else
        let leadingLines := raw.take contextLines
        let trailingLines := raw.drop (raw.length - contextLines)
        let skippedLines := raw.length - leadingLines.length - trailingLines.length
        ((s.showContext leadingLines).skip skippedLines).showContext trailingLines
    else if s.lastWasChange then
      let shownLines := raw.take contextLines
      let skippedLines := raw.length - shownLines.length
      if 0 < skippedLines then (s.showContext shownLines).skip skippedLines else s.showContext shownLines
    else if nextPartIsChange then
      let skippedLines := raw.length - contextLines
      (if 0 < skippedLines then s.skip skippedLines else s).showContext (raw.drop skippedLines)
    else s.pass raw.length
  { s with lastWasChange := false }

/-- The loop over the parts. -/
def showParts (contextLines : ℕ) : List Part → DiffState → DiffState
  | [], s => s
  | part :: parts, s =>
    showParts contextLines parts
      (if part.isChange then s.showChange part
        else s.showUnchanged contextLines part.raw (parts.head?.any Part.isChange))

end DiffState

/-- What `generateDiffString` returns. -/
structure DiffString where
  diff : List Char
  firstChangedLine : Option ℕ
  deriving DecidableEq

/-- `lineNumWidth`. -/
def lineNumWidth (oldContent newContent : List Char) : ℕ :=
  (toString (max (oldContent.splitOn '\n').length (newContent.splitOn '\n').length)).length

/-- `generateDiffString`, for the package's `diffLines`. -/
def generateDiffString (diffLines : List Char → List Char → List Part) (oldContent newContent : List Char)
    (contextLines : ℕ) : DiffString :=
  let s := DiffState.showParts contextLines (diffLines oldContent newContent) ⟨[], 1, 1, false, none⟩
  ⟨joinLines (s.output.map (Row.render (lineNumWidth oldContent newContent))), s.firstChangedLine⟩

/-! ### What the numbers mean -/

/-- What the parts have of the old text, and of the new one. -/
def oldText (parts : List Part) : List Char := (parts.filter (·.change ≠ .added)).flatMap Part.value

def newText (parts : List Part) : List Char := (parts.filter (·.change ≠ .removed)).flatMap Part.value

/-- The lines a part has of the old text, and of the new one. -/
def Part.oldLines (part : Part) : List (List Char) := if part.change = .added then [] else part.raw

def Part.newLines (part : Part) : List (List Char) := if part.change = .removed then [] else part.raw

/-- What `diffLines` returns for two texts: parts that make up both of them, cut after line ends only. -/
structure LineDiff (parts : List Part) (oldContent newContent : List Char) : Prop where
  old : oldText parts = oldContent
  new : newText parts = newContent
  oldCut : ∀ before part after, parts = before ++ part :: after → part.change ≠ .added →
    EndsLine part.value ∨ oldText after = []
  newCut : ∀ before part after, parts = before ++ part :: after → part.change ≠ .removed →
    EndsLine part.value ∨ newText after = []

/-- The line of a number, from 1 on. -/
def LineAt (lines : List (List Char)) (n : ℕ) (line : List Char) : Prop :=
  ∃ before after, lines = before ++ line :: after ∧ n = before.length + 1

/-- How many rows show an added line, and how many a removed one. -/
def addedRows (rows : List Row) : ℕ := rows.countP fun | .added _ _ => true | _ => false

def removedRows (rows : List Row) : ℕ := rows.countP fun | .removed _ _ => true | _ => false

/-- A row carries the line of its number. The new line a context row corresponds to is as much further on as
lines have been added before it, and less far as lines have been removed. -/
def Row.Carries (oldLines newLines : List (List Char)) (before : List Row) : Row → Prop
  | .added n line => LineAt newLines n line
  | .removed n line => LineAt oldLines n line
  | .context n line =>
    LineAt oldLines n line ∧ ∃ m, n + addedRows before = m + removedRows before ∧ LineAt newLines m line
  | .skipped => True

/-- The rows that show the changes of the parts: each line of a part is shown with its number. -/
def ShowsChanges (parts : List Part) (rows : List Row) : Prop :=
  ∀ (before : List Part) (part : Part) after, parts = before ++ part :: after → ∀ n line, LineAt part.raw n line →
    (part.change = Change.added → .added ((before.flatMap Part.newLines).length + n) line ∈ rows) ∧
    (part.change = Change.removed → .removed ((before.flatMap Part.oldLines).length + n) line ∈ rows)

/-- The line where the new text has the first change of the parts, if there is one. -/
def IsFirstChange (parts : List Part) (line : Option ℕ) : Prop :=
  (∀ (before : List Part) (part : Part) after, parts = before ++ part :: after → part.isChange = true →
    (∀ p ∈ before, p.isChange = false) → line = some ((before.flatMap Part.newLines).length + 1)) ∧
  ((∀ part ∈ parts, part.isChange = false) → line = none)

/-! ### The lines of the parts -/

theorem Part.raw_eq (part : Part) : part.raw = splitLinesForCounting part.value := by
  unfold Part.raw splitLinesForCounting
  by_cases hne : part.value = []
  · rw [hne]
    rfl
  · have hlast := getLast?_splitOn_eq_nil part.value
    simp only [hne, false_or] at hlast
    simp only [hlast, if_neg hne]

theorem oldText_cons (part : Part) (parts : List Part) :
    oldText (part :: parts) = (if part.change = .added then [] else part.value) ++ oldText parts := by
  unfold oldText
  by_cases h : part.change = .added
  · rw [List.filter_cons_of_neg (by simp [h]), if_pos h, List.nil_append]
  · rw [List.filter_cons_of_pos (by simp [h]), if_neg h, List.flatMap_cons]

theorem newText_cons (part : Part) (parts : List Part) :
    newText (part :: parts) = (if part.change = .removed then [] else part.value) ++ newText parts := by
  unfold newText
  by_cases h : part.change = .removed
  · rw [List.filter_cons_of_neg (by simp [h]), if_pos h, List.nil_append]
  · rw [List.filter_cons_of_pos (by simp [h]), if_neg h, List.flatMap_cons]

/-- The lines of two texts, read part by part. -/
theorem LineDiff.lines {parts : List Part} {oldContent newContent : List Char} (h : LineDiff parts oldContent newContent) :
    splitLinesForCounting oldContent = parts.flatMap Part.oldLines ∧
      splitLinesForCounting newContent = parts.flatMap Part.newLines := by
  obtain ⟨rfl, rfl, hold, hnew⟩ := h
  have hcons : ∀ value text : List Char, EndsLine value ∨ text = [] →
      splitLinesForCounting (value ++ text) = splitLinesForCounting value ++ splitLinesForCounting text := by
    rintro value text (hends | rfl)
    · exact splitLines_append value hends
    · rw [List.append_nil]
      exact (List.append_nil _).symm
  have hafter : ∀ {P : List Part → Prop} {part : Part} {parts : List Part} {c : Change} {Q : Part → Prop},
      (∀ before p after, part :: parts = before ++ p :: after → p.change ≠ c → Q p ∨ P after) →
      ∀ before p after, parts = before ++ p :: after → p.change ≠ c → Q p ∨ P after := by
    intro P part parts c Q h before p after heq
    exact h (part :: before) p after (by rw [heq, List.cons_append])
  constructor
  · clear hnew
    induction parts with
    | nil => rfl
    | cons part parts ih =>
      rw [oldText_cons, List.flatMap_cons, Part.oldLines, ← ih (hafter hold)]
      split
      · rfl
      · rename_i hchange
        rw [Part.raw_eq]
        exact hcons _ _ (hold [] part parts rfl hchange)
  · clear hold
    induction parts with
    | nil => rfl
    | cons part parts ih =>
      rw [newText_cons, List.flatMap_cons, Part.newLines, ← ih (hafter hnew)]
      split
      · rfl
      · rename_i hchange
        rw [Part.raw_eq]
        exact hcons _ _ (hnew [] part parts rfl hchange)

theorem splitLines_prefix (content : List Char) : splitLinesForCounting content <+: content.splitOn '\n' := by
  unfold splitLinesForCounting
  split
  · exact List.nil_prefix
  · split
    · exact List.dropLast_prefix _
    · exact List.prefix_refl _

/-! ### The counters -/

/-- A counter that stands before the rest of some lines. -/
def Reading (lines rest : List (List Char)) (n : ℕ) : Prop :=
  ∃ done : List (List Char), done ++ rest <+: lines ∧ n = done.length + 1

namespace Reading

variable {lines raw rest : List (List Char)} {line : List Char} {n : ℕ}

theorem lineAt (h : Reading lines (line :: rest) n) : LineAt lines n line := by
  obtain ⟨done, ⟨after, rfl⟩, rfl⟩ := h
  exact ⟨done, rest ++ after, by simp, rfl⟩

theorem pass (h : Reading lines (raw ++ rest) n) : Reading lines rest (n + raw.length) := by
  obtain ⟨done, hprefix, rfl⟩ := h
  refine ⟨done ++ raw, by rwa [List.append_assoc], ?_⟩
  rw [List.length_append]
  omega

theorem succ (h : Reading lines ([line] ++ rest) n) : Reading lines rest (n + 1) := h.pass

end Reading

/-- The invariant of the loop: the counters stand before the lines still to come, the rows account for the
distance between them, and each row so far carries its line. -/
structure DiffInv (oldLines newLines restOld restNew : List (List Char)) (s : DiffState) : Prop where
  old : Reading oldLines restOld s.oldLineNum
  new : Reading newLines restNew s.newLineNum
  balance : s.oldLineNum + addedRows s.output = s.newLineNum + removedRows s.output
  carried : Justified (Row.Carries oldLines newLines) s.output

theorem addedRows_concat (rows : List Row) (row : Row) :
    addedRows (rows ++ [row]) = addedRows rows + addedRows [row] := List.countP_append

theorem removedRows_concat (rows : List Row) (row : Row) :
    removedRows (rows ++ [row]) = removedRows rows + removedRows [row] := List.countP_append

namespace DiffInv

variable {oldLines newLines restOld restNew raw : List (List Char)} {line : List Char} {s : DiffState}

theorem pushAdded (h : DiffInv oldLines newLines restOld (line :: restNew) s) :
    DiffInv oldLines newLines restOld restNew (s.pushAdded line) where
  old := h.old
  new := h.new.succ
  balance := by
    have hadded : addedRows [Row.added s.newLineNum line] = 1 := rfl
    have hremoved : removedRows [Row.added s.newLineNum line] = 0 := rfl
    have := h.balance
    simp only [DiffState.pushAdded, addedRows_concat, removedRows_concat, hadded, hremoved]
    omega
  carried := h.carried.concat h.new.lineAt

theorem pushRemoved (h : DiffInv oldLines newLines (line :: restOld) restNew s) :
    DiffInv oldLines newLines restOld restNew (s.pushRemoved line) where
  old := h.old.succ
  new := h.new
  balance := by
    have hadded : addedRows [Row.removed s.oldLineNum line] = 0 := rfl
    have hremoved : removedRows [Row.removed s.oldLineNum line] = 1 := rfl
    have := h.balance
    simp only [DiffState.pushRemoved, addedRows_concat, removedRows_concat, hadded, hremoved]
    omega
  carried := h.carried.concat h.old.lineAt

theorem pushContext (h : DiffInv oldLines newLines (line :: restOld) (line :: restNew) s) :
    DiffInv oldLines newLines restOld restNew (s.pushContext line) where
  old := h.old.succ
  new := h.new.succ
  balance := by
    have hadded : addedRows [Row.context s.oldLineNum line] = 0 := rfl
    have hremoved : removedRows [Row.context s.oldLineNum line] = 0 := rfl
    have := h.balance
    simp only [DiffState.pushContext, addedRows_concat, removedRows_concat, hadded, hremoved]
    omega
  carried := h.carried.concat ⟨h.old.lineAt, s.newLineNum, h.balance, h.new.lineAt⟩

theorem pass (h : DiffInv oldLines newLines (raw ++ restOld) (raw ++ restNew) s) :
    DiffInv oldLines newLines restOld restNew (s.pass raw.length) where
  old := h.old.pass
  new := h.new.pass
  balance := by
    have := h.balance
    simp only [DiffState.pass]
    omega
  carried := h.carried

theorem skip (h : DiffInv oldLines newLines (raw ++ restOld) (raw ++ restNew) s) :
    DiffInv oldLines newLines restOld restNew (s.skip raw.length) := by
  have hdots : DiffInv oldLines newLines (raw ++ restOld) (raw ++ restNew) { s with output := s.output ++ [.skipped] } := by
    refine ⟨h.old, h.new, ?_, h.carried.concat trivial⟩
    have hadded : addedRows [Row.skipped] = 0 := rfl
    have hremoved : removedRows [Row.skipped] = 0 := rfl
    simp only [addedRows_concat, removedRows_concat, hadded, hremoved]
    exact h.balance
  exact hdots.pass

theorem showContext (h : DiffInv oldLines newLines (raw ++ restOld) (raw ++ restNew) s) :
    DiffInv oldLines newLines restOld restNew (s.showContext raw) := by
  induction raw generalizing s with
  | nil => exact h
  | cons line raw ih => exact ih h.pushContext

theorem flags (h : DiffInv oldLines newLines restOld restNew s) (lastWasChange : Bool) (firstChangedLine : Option ℕ) :
    DiffInv oldLines newLines restOld restNew
      { s with lastWasChange := lastWasChange, firstChangedLine := firstChangedLine } :=
  ⟨h.old, h.new, h.balance, h.carried⟩

/-- A change moves the counter of its text only. -/
theorem showChange {part : Part} (hpart : part.isChange = true)
    (h : DiffInv oldLines newLines (part.oldLines ++ restOld) (part.newLines ++ restNew) s) :
    DiffInv oldLines newLines restOld restNew (s.showChange part) := by
  have hadded : ∀ (raw : List (List Char)) (s : DiffState), DiffInv oldLines newLines restOld (raw ++ restNew) s →
      DiffInv oldLines newLines restOld restNew (raw.foldl DiffState.pushAdded s) := by
    intro raw
    induction raw with
    | nil => exact fun s h => h
    | cons line raw ih => exact fun s h => ih _ h.pushAdded
  have hremoved : ∀ (raw : List (List Char)) (s : DiffState), DiffInv oldLines newLines (raw ++ restOld) restNew s →
      DiffInv oldLines newLines restOld restNew (raw.foldl DiffState.pushRemoved s) := by
    intro raw
    induction raw with
    | nil => exact fun s h => h
    | cons line raw ih => exact fun s h => ih _ h.pushRemoved
  unfold DiffState.showChange
  cases hchange : part.change with
  | added =>
    simp only [Part.oldLines, Part.newLines, hchange, if_true, reduceCtorEq, if_false, List.nil_append] at h
    rw [if_pos rfl]
    exact (hadded _ _ (h.flags s.lastWasChange _)).flags true _
  | removed =>
    simp only [Part.oldLines, Part.newLines, hchange, if_true, reduceCtorEq, if_false, List.nil_append] at h
    rw [if_neg (by decide)]
    exact (hremoved _ _ (h.flags s.lastWasChange _)).flags true _
  | unchanged => simp [Part.isChange, hchange] at hpart

/-- The first lines are shown. -/
theorem showTake (k : ℕ) (h : DiffInv oldLines newLines (raw ++ restOld) (raw ++ restNew) s) :
    DiffInv oldLines newLines (raw.drop k ++ restOld) (raw.drop k ++ restNew) (s.showContext (raw.take k)) := by
  refine showContext ?_
  rwa [← List.append_assoc, ← List.append_assoc, List.take_append_drop]

/-- The first lines are skipped. -/
theorem skipTake {k : ℕ} (hk : k ≤ raw.length) (h : DiffInv oldLines newLines (raw ++ restOld) (raw ++ restNew) s) :
    DiffInv oldLines newLines (raw.drop k ++ restOld) (raw.drop k ++ restNew) (s.skip k) := by
  rw [← List.take_append_drop k raw, List.append_assoc, List.append_assoc] at h
  have hskip := h.skip
  rwa [List.length_take_of_le hk] at hskip

/-- Unchanged lines move both counters, shown or not. -/
theorem showUnchanged (contextLines : ℕ) (nextPartIsChange : Bool)
    (h : DiffInv oldLines newLines (raw ++ restOld) (raw ++ restNew) s) :
    DiffInv oldLines newLines restOld restNew (s.showUnchanged contextLines raw nextPartIsChange) := by
  unfold DiffState.showUnchanged
  refine flags ?_ false _
  split
  · split
    · exact h.showContext
    · rename_i hlong
      -- what is skipped goes from after the leading lines to the trailing ones
      have hskipped : raw.length - (raw.take contextLines).length - (raw.drop (raw.length - contextLines)).length =
          raw.length - contextLines - contextLines := by
        rw [List.length_take, List.length_drop]
        omega
      have htrailing : (raw.drop contextLines).drop (raw.length - contextLines - contextLines) =
          raw.drop (raw.length - contextLines) := by
        rw [List.drop_drop]
        congr 1
        omega
      have hskip := (h.showTake contextLines).skipTake (k := raw.length - contextLines - contextLines)
        (by rw [List.length_drop]; omega)
      rw [htrailing] at hskip
      simp only [hskipped]
      exact hskip.showContext
  · split
    · have hshown := h.showTake contextLines
      have hskipped : raw.length - (raw.take contextLines).length = (raw.drop contextLines).length := by
        rw [List.length_take, List.length_drop]
        omega
      simp only [hskipped]
      split
      · exact hshown.skip
      · rename_i hnone
        rwa [List.eq_nil_of_length_eq_zero (Nat.eq_zero_of_not_pos hnone)] at hshown
    · split
      · simp only
        split
        · exact (h.skipTake (Nat.sub_le _ _)).showContext
        · rename_i hnone
          rw [Nat.eq_zero_of_not_pos hnone]
          exact h.showContext
      · exact h.pass

/-- **The loop keeps the counters in step.** -/
theorem showParts (contextLines : ℕ) : ∀ {parts : List Part} {s : DiffState},
    DiffInv oldLines newLines (parts.flatMap Part.oldLines) (parts.flatMap Part.newLines) s →
      DiffInv oldLines newLines [] [] (DiffState.showParts contextLines parts s)
  | [], _, h => h
  | part :: parts, s, h => by
    rw [List.flatMap_cons, List.flatMap_cons] at h
    rw [DiffState.showParts]
    refine showParts contextLines ?_
    split
    · exact h.showChange ‹_›
    · rename_i hchange
      have hunchanged : part.change = .unchanged := by simpa [Part.isChange] using hchange
      have hold : part.oldLines = part.raw := by simp [Part.oldLines, hunchanged]
      have hnew : part.newLines = part.raw := by simp [Part.newLines, hunchanged]
      rw [hold, hnew] at h
      exact h.showUnchanged contextLines _

end DiffInv

/-! ### The changes -/

namespace DiffState

/-- Both counters have gone on by the same number of lines; no change is among them. -/
structure Moves (lines : ℕ) (s s' : DiffState) : Prop where
  old : s'.oldLineNum = s.oldLineNum + lines
  new : s'.newLineNum = s.newLineNum + lines
  output : s.output <+: s'.output
  first : s'.firstChangedLine = s.firstChangedLine

variable {s s' s'' : DiffState} {a b : ℕ}

theorem Moves.trans (h : Moves a s s') (h' : Moves b s' s'') : Moves (a + b) s s'' where
  old := by rw [h'.old, h.old, Nat.add_assoc]
  new := by rw [h'.new, h.new, Nat.add_assoc]
  output := h.output.trans h'.output
  first := h'.first.trans h.first

theorem Moves.of_eq (h : Moves a s s') (hab : a = b) : Moves b s s' := hab ▸ h

theorem moves_skip (s : DiffState) (lines : ℕ) : Moves lines s (s.skip lines) := ⟨rfl, rfl, List.prefix_append _ _, rfl⟩

theorem moves_showContext (s : DiffState) (lines : List (List Char)) : Moves lines.length s (s.showContext lines) := by
  induction lines generalizing s with
  | nil => exact ⟨rfl, rfl, List.prefix_refl _, rfl⟩
  | cons line lines ih =>
    have hpush : Moves 1 s (s.pushContext line) := ⟨rfl, rfl, List.prefix_append _ _, rfl⟩
    rw [List.length_cons, Nat.add_comm]
    exact hpush.trans (ih _)

theorem moves_showUnchanged (contextLines : ℕ) (s : DiffState) (raw : List (List Char)) (nextPartIsChange : Bool) :
    Moves raw.length s (s.showUnchanged contextLines raw nextPartIsChange) := by
  have hflag : ∀ {s'}, Moves raw.length s s' → Moves raw.length s { s' with lastWasChange := false } :=
    fun h => ⟨h.old, h.new, h.output, h.first⟩
  unfold showUnchanged
  refine hflag ?_
  split
  · split
    · exact moves_showContext s raw
    · refine (((moves_showContext s _).trans (moves_skip _ _)).trans (moves_showContext _ _)).of_eq ?_
      rw [List.length_take, List.length_drop]
      omega
  · split
    · simp only
      split
      · refine ((moves_showContext s _).trans (moves_skip _ _)).of_eq ?_
        rw [List.length_take]
        omega
      · refine (moves_showContext s _).of_eq ?_
        rw [List.length_take] at *
        omega
    · split
      · simp only
        split
        · refine ((moves_skip s _).trans (moves_showContext _ _)).of_eq ?_
          rw [List.length_drop]
          omega
        · refine (moves_showContext s _).of_eq ?_
          rw [List.length_drop]
          omega
      · exact ⟨rfl, rfl, List.prefix_refl _, rfl⟩

theorem foldl_pushAdded (s : DiffState) (raw : List (List Char)) : raw.foldl pushAdded s =
    { s with
      output := s.output ++ raw.mapIdx fun i line => .added (s.newLineNum + i) line
      newLineNum := s.newLineNum + raw.length } := by
  induction raw generalizing s with
  | nil => simp
  | cons line raw ih =>
    rw [List.foldl_cons, ih]
    simp only [pushAdded, List.mapIdx_cons, List.length_cons, List.append_assoc, List.singleton_append, Nat.add_zero,
      Nat.add_assoc, Nat.add_comm 1]

theorem foldl_pushRemoved (s : DiffState) (raw : List (List Char)) : raw.foldl pushRemoved s =
    { s with
      output := s.output ++ raw.mapIdx fun i line => .removed (s.oldLineNum + i) line
      oldLineNum := s.oldLineNum + raw.length } := by
  induction raw generalizing s with
  | nil => simp
  | cons line raw ih =>
    rw [List.foldl_cons, ih]
    simp only [pushRemoved, List.mapIdx_cons, List.length_cons, List.append_assoc, List.singleton_append, Nat.add_zero,
      Nat.add_assoc, Nat.add_comm 1]

end DiffState

/-- The invariant of the loop over the parts it has shown. -/
structure Shown (parts : List Part) (s : DiffState) : Prop where
  old : s.oldLineNum = (parts.flatMap Part.oldLines).length + 1
  new : s.newLineNum = (parts.flatMap Part.newLines).length + 1
  shows : ShowsChanges parts s.output
  first : IsFirstChange parts s.firstChangedLine

theorem ShowsChanges.concat {parts : List Part} {part : Part} {rows rows' : List Row} (h : ShowsChanges parts rows)
    (hsub : rows <+: rows') (hlast : ∀ n line, LineAt part.raw n line →
      (part.change = .added → .added ((parts.flatMap Part.newLines).length + n) line ∈ rows') ∧
      (part.change = .removed → .removed ((parts.flatMap Part.oldLines).length + n) line ∈ rows')) :
    ShowsChanges (parts ++ [part]) rows' := by
  intro before x after heq n line hline
  rcases append_cons_eq_concat heq with ⟨-, rfl, rfl⟩ | ⟨after', -, hparts⟩
  · exact hlast n line hline
  · obtain ⟨hadded, hremoved⟩ := h before x after' hparts n line hline
    exact ⟨fun hx => hsub.subset (hadded hx), fun hx => hsub.subset (hremoved hx)⟩

namespace Shown

variable {parts : List Part} {part : Part} {s : DiffState}

/-- Lines of an unchanged part change nothing of what is shown as a change. -/
theorem showUnchanged (contextLines : ℕ) (nextPartIsChange : Bool) (hpart : part.isChange = false) (h : Shown parts s) :
    Shown (parts ++ [part]) (s.showUnchanged contextLines part.raw nextPartIsChange) := by
  have hunchanged : part.change = .unchanged := by simpa [Part.isChange] using hpart
  have hmoves := DiffState.moves_showUnchanged contextLines s part.raw nextPartIsChange
  have hold : part.oldLines = part.raw := by simp [Part.oldLines, hunchanged]
  have hnew : part.newLines = part.raw := by simp [Part.newLines, hunchanged]
  refine ⟨?_, ?_, h.shows.concat hmoves.output ?_, ?_, ?_⟩
  · rw [hmoves.old, h.old, List.flatMap_append, List.flatMap_singleton, List.length_append, hold]
    omega
  · rw [hmoves.new, h.new, List.flatMap_append, List.flatMap_singleton, List.length_append, hnew]
    omega
  · intro n line _
    rw [hunchanged]
    exact ⟨fun hne => (by cases hne), fun hne => (by cases hne)⟩
  · intro before x after heq hx hbefore
    rw [hmoves.first]
    rcases append_cons_eq_concat heq with ⟨-, rfl, -⟩ | ⟨after', -, hparts⟩
    · rw [hpart] at hx
      cases hx
    · exact h.first.1 before x after' hparts hx hbefore
  · intro hall
    rw [hmoves.first]
    exact h.first.2 fun p hp => hall p (List.mem_append_left _ hp)

/-- The lines of a changed part are shown with their numbers. -/
theorem showChange (hpart : part.isChange = true) (h : Shown parts s) : Shown (parts ++ [part]) (s.showChange part) := by
  have hfirst : IsFirstChange (parts ++ [part]) (s.firstChangedLine.or (some s.newLineNum)) := by
    refine ⟨fun before x after heq hx hbefore => ?_, fun hall => ?_⟩
    · rcases append_cons_eq_concat heq with ⟨-, rfl, rfl⟩ | ⟨after', -, hparts⟩
      · rw [h.first.2 hbefore, h.new]
        rfl
      · rw [h.first.1 before x after' hparts hx hbefore]
        rfl
    · have hno := hall part (List.mem_append_right _ (List.mem_singleton_self part))
      rw [hpart] at hno
      cases hno
  have hmem : ∀ {lineAt : ℕ → List Char → Row} {raw : List (List Char)} {n : ℕ} {line : List Char}, LineAt raw n line →
      ∀ {k m : ℕ}, m = k + 1 → lineAt (k + n) line ∈ s.output ++ raw.mapIdx fun i line => lineAt (m + i) line := by
    rintro lineAt raw n line ⟨before, after, rfl, rfl⟩ k m rfl
    refine List.mem_append_right _ ?_
    rw [List.mem_mapIdx]
    refine ⟨before.length, by simp, ?_⟩
    rw [List.getElem_append_right (Nat.le_refl _)]
    simp only [Nat.sub_self, List.getElem_cons_zero]
    congr 1
    omega
  unfold DiffState.showChange
  cases hchange : part.change with
  | added =>
    have hold : part.oldLines = [] := by simp [Part.oldLines, hchange]
    have hnew : part.newLines = part.raw := by simp [Part.newLines, hchange]
    simp only [if_true, DiffState.foldl_pushAdded]
    refine ⟨?_, ?_, h.shows.concat (List.prefix_append _ _) fun n line hline => ⟨fun _ => hmem hline h.new, fun hne => ?_⟩, hfirst⟩
    · rw [List.flatMap_append, List.flatMap_singleton, hold, List.append_nil]
      exact h.old
    · rw [List.flatMap_append, List.flatMap_singleton, hnew, List.length_append]
      simp only [h.new]
      omega
    · rw [hchange] at hne
      cases hne
  | removed =>
    have hold : part.oldLines = part.raw := by simp [Part.oldLines, hchange]
    have hnew : part.newLines = [] := by simp [Part.newLines, hchange]
    simp only [reduceCtorEq, if_false, DiffState.foldl_pushRemoved]
    refine ⟨?_, ?_, h.shows.concat (List.prefix_append _ _) fun n line hline => ⟨fun hne => ?_, fun _ => hmem hline h.old⟩, hfirst⟩
    · rw [List.flatMap_append, List.flatMap_singleton, hold, List.length_append]
      simp only [h.old]
      omega
    · rw [List.flatMap_append, List.flatMap_singleton, hnew, List.append_nil]
      exact h.new
    · rw [hchange] at hne
      cases hne
  | unchanged => simp [Part.isChange, hchange] at hpart

theorem showParts (contextLines : ℕ) : ∀ {rest done : List Part} {s : DiffState}, Shown done s →
    Shown (done ++ rest) (DiffState.showParts contextLines rest s)
  | [], _, _, h => (List.append_nil _).symm ▸ h
  | part :: rest, done, s, h => by
    rw [DiffState.showParts, ← List.singleton_append, ← List.append_assoc]
    refine showParts contextLines ?_
    split
    · exact h.showChange ‹_›
    · exact h.showUnchanged contextLines _ (Bool.eq_false_iff.mpr ‹_›)

end Shown

/-! ### The claim -/

/-- **Line numbers of a displayed diff are right.** The rows carry the lines of their numbers, they show every
change, and the first changed line is that of the first change. -/
theorem generateDiffString_rows (diffLines : List Char → List Char → List Part) (oldContent newContent : List Char)
    (contextLines : ℕ) (h : LineDiff (diffLines oldContent newContent) oldContent newContent) :
    ∃ rows, (generateDiffString diffLines oldContent newContent contextLines).diff =
        joinLines (rows.map (Row.render (lineNumWidth oldContent newContent))) ∧
      Justified (Row.Carries (oldContent.splitOn '\n') (newContent.splitOn '\n')) rows ∧
      ShowsChanges (diffLines oldContent newContent) rows ∧
      IsFirstChange (diffLines oldContent newContent)
        (generateDiffString diffLines oldContent newContent contextLines).firstChangedLine := by
  obtain ⟨hold, hnew⟩ := h.lines
  have hstart : DiffInv (oldContent.splitOn '\n') (newContent.splitOn '\n')
      ((diffLines oldContent newContent).flatMap Part.oldLines) ((diffLines oldContent newContent).flatMap Part.newLines)
      ⟨[], 1, 1, false, none⟩ :=
    ⟨⟨[], hold ▸ splitLines_prefix oldContent, rfl⟩, ⟨[], hnew ▸ splitLines_prefix newContent, rfl⟩, rfl, justified_nil⟩
  have hnone : Shown [] ⟨[], 1, 1, false, none⟩ :=
    ⟨rfl, rfl, fun before part after heq => by simp at heq, fun before part after heq => by simp at heq, fun _ => rfl⟩
  have hshown : Shown (diffLines oldContent newContent)
      (DiffState.showParts contextLines (diffLines oldContent newContent) ⟨[], 1, 1, false, none⟩) :=
    hnone.showParts contextLines
  exact ⟨_, rfl, (hstart.showParts contextLines).carried, hshown.shows, hshown.first⟩

/-- A diff where one line is replaced. -/
def replacedLine : List Part := [⟨['a', '\n'], .unchanged⟩, ⟨['b', '\n'], .removed⟩, ⟨['c', '\n'], .added⟩]

example : generateDiffString (fun _ _ => replacedLine) ['a', '\n', 'b', '\n'] ['a', '\n', 'c', '\n'] 4 =
    ⟨" 1 a\n-2 b\n+2 c".toList, some 2⟩ := by decide

theorem replacedLine_rows : ∃ rows,
    (generateDiffString (fun _ _ => replacedLine) ['a', '\n', 'b', '\n'] ['a', '\n', 'c', '\n'] 4).diff =
      joinLines (rows.map (Row.render (lineNumWidth ['a', '\n', 'b', '\n'] ['a', '\n', 'c', '\n']))) ∧
    Justified (Row.Carries (['a', '\n', 'b', '\n'].splitOn '\n') (['a', '\n', 'c', '\n'].splitOn '\n')) rows ∧
    ShowsChanges replacedLine rows ∧ IsFirstChange replacedLine (some 2) := by
  have hends : ∀ before (part : Part) after, replacedLine = before ++ part :: after → EndsLine part.value := by
    intro before part after heq
    have hmem : part ∈ replacedLine := heq ▸ List.mem_append_right _ List.mem_cons_self
    simp only [replacedLine, List.mem_cons, List.not_mem_nil, or_false] at hmem
    rcases hmem with rfl | rfl | rfl <;> exact fun c hc => (Option.some.inj hc).symm
  exact generateDiffString_rows (fun _ _ => replacedLine) ['a', '\n', 'b', '\n'] ['a', '\n', 'c', '\n'] 4
    ⟨rfl, rfl, fun before part after heq _ => Or.inl (hends before part after heq),
      fun before part after heq _ => Or.inl (hends before part after heq)⟩

end Trek.Tools
