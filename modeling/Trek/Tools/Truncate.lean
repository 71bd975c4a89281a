/-
# Truncating an output

`truncateHead` keeps the first lines of a text and `truncateTail` the last ones, as many
as two limits allow. The loop of the tail collects lines from the end; whether it goes on past a stretch of lines depends on
this stretch alone (`collect_fits`, `collect_stops`).
-/
import Trek.Lib.Utf8

namespace Trek.Tools

/-! ### The code -/

/-- `DEFAULT_MAX_LINES`. -/
def DEFAULT_MAX_LINES : ℕ := 2000

/-- `DEFAULT_MAX_BYTES`. -/
def DEFAULT_MAX_BYTES : ℕ := 50 * 1024

/-- `"lines" | "bytes"`. -/
inductive TruncatedBy
  | lines | bytes
  deriving DecidableEq

/-- `TruncationResult`. -/
structure TruncationResult where
  content : List Char
  truncated : Bool
  truncatedBy : Option TruncatedBy
  totalLines : ℕ
  totalBytes : ℕ
  outputLines : ℕ
  outputBytes : ℕ
  lastLinePartial : Bool
  firstLineExceedsLimit : Bool
  maxLines : ℕ
  maxBytes : ℕ
  deriving DecidableEq

/-- `splitLinesForCounting`. -/
def splitLinesForCounting (content : List Char) : List (List Char) :=
  if content = [] then []
  else if content.getLast? = some '\n' then (content.splitOn '\n').dropLast
  else content.splitOn '\n'

/-- `truncateStringToBytesFromEnd`. -/
def truncateStringToBytesFromEnd (str : List Char) (maxBytes : ℕ) : List Char :=
  let buf := utf8 str
  if buf.length ≤ maxBytes then str else bufferToString (buf.drop (alignedStart buf (buf.length - maxBytes)))

/-- The variables of the loop of `truncateTail`. -/
structure Collected where
  outputLinesArr : List (List Char)
  outputBytesCount : ℕ
  truncatedBy : TruncatedBy
  lastLinePartial : Bool

/-- The loop of `truncateTail`, over the lines from the last one on. -/
def collect (maxLines maxBytes : ℕ) : List (List Char) → List (List Char) → ℕ → Collected
  | [], out, bytes => ⟨out, bytes, .lines, false⟩
  | line :: lines, out, bytes =>
    if out.length < maxLines then
      let lineBytes := byteLength line + if 0 < out.length then 1 else 0
      if maxBytes < bytes + lineBytes then
        if out.length = 0 then
          let truncatedLine := truncateStringToBytesFromEnd line maxBytes
          ⟨[truncatedLine], byteLength truncatedLine, .bytes, true⟩
        else ⟨out, bytes, .bytes, false⟩
      else collect maxLines maxBytes lines (line :: out) (bytes + lineBytes)
    else ⟨out, bytes, .lines, false⟩

/-- `lines.join("\n")`. -/
def joinLines (lines : List (List Char)) : List Char := ['\n'].intercalate lines

/-- The limit that stopped the loop, checked once more after it. -/
def Collected.limit (c : Collected) (maxLines maxBytes : ℕ) : TruncatedBy :=
  if maxLines ≤ c.outputLinesArr.length ∧ c.outputBytesCount ≤ maxBytes then .lines else c.truncatedBy

/-- `truncateTail`. -/
def truncateTail (content : List Char) (maxLines maxBytes : ℕ) : TruncationResult :=
  let totalBytes := byteLength content
  let lines := splitLinesForCounting content
  let totalLines := lines.length
  if totalLines ≤ maxLines ∧ totalBytes ≤ maxBytes then
    ⟨content, false, none, totalLines, totalBytes, totalLines, totalBytes, false, false, maxLines, maxBytes⟩
  else
    let c := collect maxLines maxBytes lines.reverse [] 0
    let outputContent := joinLines c.outputLinesArr
    ⟨outputContent, true, some (c.limit maxLines maxBytes), totalLines, totalBytes, c.outputLinesArr.length,
      byteLength outputContent, c.lastLinePartial, false, maxLines, maxBytes⟩

/-- The loop of `truncateHead`: the lines that fit, their bytes and the limit that stopped it. `bytes`
is how the bytes of a line are counted. -/
def collectHead (bytes : List Char → ℕ) (maxLines maxBytes : ℕ) : List (List Char) → List (List Char) → ℕ →
    List (List Char) × ℕ × TruncatedBy
  | [], out, count => (out, count, .lines)
  | line :: lines, out, count =>
    if out.length < maxLines then
      let lineBytes := bytes line + if 0 < out.length then 1 else 0
      if maxBytes < count + lineBytes then (out, count, .bytes)
      else collectHead bytes maxLines maxBytes lines (out ++ [line]) (count + lineBytes)
    else (out, count, .lines)

/-- `truncateHead`, for a way to count bytes and the lines of the content. -/
def truncateHeadOf (bytes : List Char → ℕ) (content : List Char) (lines : List (List Char)) (maxLines maxBytes : ℕ) :
    TruncationResult :=
  let totalBytes := bytes content
  let totalLines := lines.length
  if totalLines ≤ maxLines ∧ totalBytes ≤ maxBytes then
    ⟨content, false, none, totalLines, totalBytes, totalLines, totalBytes, false, false, maxLines, maxBytes⟩
  else if maxBytes < bytes (lines.headD []) then
    ⟨[], true, some .bytes, totalLines, totalBytes, 0, 0, false, true, maxLines, maxBytes⟩
  else
    let (out, count, stoppedBy) := collectHead bytes maxLines maxBytes lines [] 0
    let truncatedBy := if maxLines ≤ out.length ∧ count ≤ maxBytes then .lines else stoppedBy
    let outputContent := joinLines out
    ⟨outputContent, true, some truncatedBy, totalLines, totalBytes, out.length, bytes outputContent, false, false,
      maxLines, maxBytes⟩

/-- `truncateHead`. -/
def truncateHead (content : List Char) (maxLines maxBytes : ℕ) : TruncationResult :=
  truncateHeadOf byteLength content (splitLinesForCounting content) maxLines maxBytes

/-! ### Lines -/

theorem truncateStringToBytesFromEnd_eq (str : List Char) (maxBytes : ℕ) :
    truncateStringToBytesFromEnd str maxBytes = lastBytes maxBytes str := by
  unfold truncateStringToBytesFromEnd
  by_cases h : byteLength str ≤ maxBytes
  · rw [lastBytes_of_le h]
    exact if_pos h
  · refine (if_neg h).trans ?_
    show bufferToString ((utf8 str).drop (alignedStart (utf8 str) (byteLength str - maxBytes))) = _
    rw [drop_alignedStart, bufferToString_utf8]

/-- A text has no line end, or a first one. -/
theorem line_cases (text : List Char) : '\n' ∉ text ∨ ∃ line rest, '\n' ∉ line ∧ text = line ++ '\n' :: rest := by
  by_cases h : '\n' ∈ text
  · obtain ⟨line, rest, heq, hnot⟩ := List.eq_append_cons_of_mem h
    exact Or.inr ⟨line, rest, hnot, heq⟩
  · exact Or.inl h

/-- A text is read line by line. -/
theorem lines_induction {motive : List Char → Prop} (single : ∀ line, '\n' ∉ line → motive line)
    (cons : ∀ line rest, '\n' ∉ line → motive rest → motive (line ++ '\n' :: rest)) (text : List Char) : motive text := by
  induction hlen : text.length using Nat.strong_induction_on generalizing text with
  | _ n ih =>
    rcases line_cases text with h | ⟨line, rest, hline, rfl⟩
    · exact single text h
    · refine cons line rest hline (ih rest.length ?_ rest rfl)
      rw [← hlen, List.length_append, List.length_cons]
      omega

theorem splitLines_single {line : List Char} (h : '\n' ∉ line) (hne : line ≠ []) :
    splitLinesForCounting line = [line] := by
  unfold splitLinesForCounting
  rw [if_neg hne, if_neg fun hlast => h (List.mem_of_getLast? hlast), List.splitOn_eq_singleton h]

theorem splitLines_cons {line rest : List Char} (h : '\n' ∉ line) :
    splitLinesForCounting (line ++ '\n' :: rest) = line :: splitLinesForCounting rest := by
  unfold splitLinesForCounting
  rw [if_neg (by simp), List.splitOn_append_cons_self_of_not_mem h]
  by_cases hrest : rest = []
  · subst hrest
    simp
  · have hlast : (line ++ '\n' :: rest).getLast? = rest.getLast? := by
      rw [List.getLast?_append_of_ne_nil _ (List.cons_ne_nil _ _)]
      obtain ⟨c, rest', rfl⟩ := List.exists_cons_of_ne_nil hrest
      rw [List.getLast?_cons_cons]
    have hdrop : (line :: rest.splitOn '\n').dropLast = line :: (rest.splitOn '\n').dropLast :=
      List.dropLast_cons_of_ne_nil (List.splitOn_ne_nil _ _)
    rw [if_neg hrest, hlast, hdrop]
    split <;> rfl

/-- Nothing, or a text that ends with a line end. -/
def EndsLine (text : List Char) : Prop := ∀ c, text.getLast? = some c → c = '\n'

theorem endsLine_append_newline {line rest : List Char} (h : EndsLine (line ++ '\n' :: rest)) : EndsLine rest := by
  intro c hc
  refine h c ?_
  rw [List.getLast?_append_of_ne_nil _ (List.cons_ne_nil _ _)]
  cases rest with
  | nil => cases hc
  | cons d rest => rw [List.getLast?_cons_cons, hc]

theorem eq_nil_of_endsLine {line : List Char} (h : EndsLine line) (hline : '\n' ∉ line) : line = [] := by
  by_contra hne
  obtain ⟨c, hc⟩ := List.getLast?_isSome.mpr hne |> Option.isSome_iff_exists.mp
  exact hline (h c hc ▸ List.mem_of_getLast? hc)

/-- The lines of a text that goes on after a line end. -/
theorem splitLines_append {rest : List Char} (text : List Char) (h : EndsLine text) :
    splitLinesForCounting (text ++ rest) = splitLinesForCounting text ++ splitLinesForCounting rest := by
  induction text using lines_induction with
  | single line hline =>
    rw [eq_nil_of_endsLine h hline]
    rfl
  | cons line more hline ih =>
    rw [List.append_assoc, List.cons_append, splitLines_cons hline, splitLines_cons hline,
      ih (endsLine_append_newline h), List.cons_append]

/-- A text is its complete lines and what it has of the last one. -/
theorem exists_endsLine (text : List Char) : ∃ front line, text = front ++ line ∧ EndsLine front ∧ '\n' ∉ line := by
  induction text using lines_induction with
  | single line hline =>
    refine ⟨[], line, rfl, ?_, hline⟩
    intro c hc
    cases hc
  | cons line rest hline ih =>
    obtain ⟨front, last, rfl, hfront, hlast⟩ := ih
    refine ⟨line ++ '\n' :: front, last, by simp, fun c hc => ?_, hlast⟩
    rw [List.getLast?_append_of_ne_nil _ (List.cons_ne_nil _ _)] at hc
    cases front with
    | nil => exact (Option.some.inj hc).symm
    | cons d front => exact hfront c (by rwa [List.getLast?_cons_cons] at hc)

/-- Whether a text ends with a line end is seen after its first line. -/
theorem ends_append_newline {line rest : List Char} : (line ++ '\n' :: rest = [] ∨ (line ++ '\n' :: rest).getLast? = some '\n') ↔
    (rest = [] ∨ rest.getLast? = some '\n') := by
  rw [List.getLast?_append_of_ne_nil _ (List.cons_ne_nil _ _)]
  cases rest with
  | nil => simp
  | cons d rest => simp [List.getLast?_cons_cons]

/-- The last of the pieces between line ends is empty where a line is complete. -/
theorem getLast?_splitOn_eq_nil (text : List Char) :
    (text.splitOn '\n').getLast? = some [] ↔ text = [] ∨ text.getLast? = some '\n' := by
  induction text using lines_induction with
  | single line hline =>
    have hlast : line.getLast? ≠ some '\n' := fun h => hline (List.mem_of_getLast? h)
    rw [List.splitOn_eq_singleton hline]
    simp [hlast]
  | cons line rest hline ih =>
    obtain ⟨next, lines, hlines⟩ := List.exists_cons_of_ne_nil (List.splitOn_ne_nil '\n' rest)
    rw [List.splitOn_append_cons_self_of_not_mem hline, ends_append_newline, ← ih, hlines, List.getLast?_cons_cons]

/-- The number of lines: one for each line end, and one for an open line. -/
theorem length_splitLines (text : List Char) : (splitLinesForCounting text).length =
    text.count '\n' + if text = [] ∨ text.getLast? = some '\n' then 0 else 1 := by
  induction text using lines_induction with
  | single line hline =>
    by_cases hne : line = []
    · subst hne
      rfl
    · rw [splitLines_single hline hne, List.count_eq_zero_of_not_mem hline, if_neg]
      · rfl
      · rintro (h | h)
        · exact hne h
        · exact hline (List.mem_of_getLast? h)
  | cons line rest hline ih =>
    have hcount : (line ++ '\n' :: rest).count '\n' = rest.count '\n' + 1 := by
      rw [List.count_append, List.count_eq_zero_of_not_mem hline, List.count_cons_self, Nat.zero_add]
    rw [splitLines_cons hline, List.length_cons, ih, hcount]
    simp only [ends_append_newline]
    omega

/-- The bytes of lines that are joined. -/
def joinBytes : List (List Char) → ℕ
  | [] => 0
  | line :: lines => byteLength line + (if 0 < lines.length then 1 else 0) + joinBytes lines

theorem byteLength_newline (text : List Char) : byteLength ('\n' :: text) = 1 + byteLength text := by
  rw [byteLength_cons]
  rfl

theorem joinLines_cons {line : List Char} {lines : List (List Char)} (h : lines ≠ []) :
    joinLines (line :: lines) = line ++ '\n' :: joinLines lines := by
  obtain ⟨next, lines, rfl⟩ := List.exists_cons_of_ne_nil h
  simp [joinLines, List.intercalate]

theorem joinBytes_cons_cons (line next : List Char) (lines : List (List Char)) :
    joinBytes (line :: next :: lines) = byteLength line + 1 + joinBytes (next :: lines) := rfl

theorem byteLength_joinLines : ∀ lines : List (List Char), byteLength (joinLines lines) = joinBytes lines
  | [] => rfl
  | [line] => by simp [joinLines, joinBytes]
  | line :: next :: lines => by
    rw [joinLines_cons (List.cons_ne_nil _ _), byteLength_append, byteLength_newline, byteLength_joinLines (next :: lines),
      joinBytes_cons_cons, Nat.add_assoc]

theorem joinBytes_concat {out : List (List Char)} (line : List Char) : joinBytes (out ++ [line]) =
    joinBytes out + (byteLength line + if 0 < out.length then 1 else 0) := by
  induction out with
  | nil => simp [joinBytes]
  | cons first out ih =>
    rw [List.cons_append, joinBytes, ih, joinBytes, List.length_append, List.length_cons]
    cases out with
    | nil => simp [joinBytes]; omega
    | cons second out => simp; omega

theorem splitLines_ne_nil {text : List Char} (h : text ≠ []) : splitLinesForCounting text ≠ [] := by
  rcases line_cases text with hline | ⟨line, rest, hline, rfl⟩
  · rw [splitLines_single hline h]
    exact List.cons_ne_nil _ _
  · rw [splitLines_cons hline]
    exact List.cons_ne_nil _ _

/-- The lines of a text, joined, are the text up to the line end it may end with. -/
theorem joinLines_splitLines (text : List Char) : joinLines (splitLinesForCounting text) ++
    (if text.getLast? = some '\n' then ['\n'] else []) = text := by
  induction text using lines_induction with
  | single line hline =>
    rw [if_neg fun h => hline (List.mem_of_getLast? h), List.append_nil]
    by_cases hne : line = []
    · subst hne
      rfl
    · rw [splitLines_single hline hne]
      simp [joinLines]
  | cons line rest hline ih =>
    rw [splitLines_cons hline, List.getLast?_append_of_ne_nil _ (List.cons_ne_nil _ _)]
    by_cases hrest : rest = []
    · subst hrest
      simp [joinLines, splitLinesForCounting]
    · have hlast : ('\n' :: rest).getLast? = rest.getLast? := by
        obtain ⟨c, rest', rfl⟩ := List.exists_cons_of_ne_nil hrest
        rw [List.getLast?_cons_cons]
      rw [joinLines_cons (splitLines_ne_nil hrest), hlast, List.append_assoc, List.cons_append, ih]

/-- The bytes of a text: its lines, joined, and a line end at its end. -/
theorem byteLength_eq (text : List Char) : byteLength text = joinBytes (splitLinesForCounting text) +
    if text.getLast? = some '\n' then 1 else 0 := by
  have h := congrArg byteLength (joinLines_splitLines text)
  rw [byteLength_append, byteLength_joinLines] at h
  rw [← h]
  split <;> rfl

/-! ### The loop -/

section

variable {maxLines maxBytes : ℕ}

theorem le_joinBytes_append : ∀ (lines out : List (List Char)), joinBytes out ≤ joinBytes (lines ++ out)
  | [], _ => le_refl _
  | line :: lines, out => by
    have := le_joinBytes_append lines out
    rw [List.cons_append, joinBytes]
    omega

/-- A stretch of lines within the limits is collected whole. -/
theorem collect_fits (more : List (List Char)) : ∀ (lines out : List (List Char)),
    lines.length + out.length ≤ maxLines → joinBytes (lines.reverse ++ out) ≤ maxBytes →
    collect maxLines maxBytes (lines ++ more) out (joinBytes out) =
      collect maxLines maxBytes more (lines.reverse ++ out) (joinBytes (lines.reverse ++ out))
  | [], _, _, _ => rfl
  | line :: lines, out, hl, hb => by
    rw [List.length_cons] at hl
    rw [List.reverse_cons, List.append_assoc, List.singleton_append] at hb ⊢
    have hle := le_joinBytes_append lines.reverse (line :: out)
    have hbytes : joinBytes out + (byteLength line + if 0 < out.length then 1 else 0) = joinBytes (line :: out) := by
      rw [joinBytes]
      omega
    rw [List.cons_append, collect, if_pos (by omega)]
    simp only [hbytes]
    rw [if_neg (by omega)]
    refine collect_fits more lines (line :: out) ?_ hb
    rw [List.length_cons]
    omega

/-- A stretch of lines beyond the limits stops the loop, whatever comes after it. -/
theorem collect_stops (more : List (List Char)) : ∀ (lines out : List (List Char)),
    out.length ≤ maxLines → joinBytes out ≤ maxBytes →
    ¬(lines.length + out.length ≤ maxLines ∧ joinBytes (lines.reverse ++ out) ≤ maxBytes) →
    collect maxLines maxBytes (lines ++ more) out (joinBytes out) = collect maxLines maxBytes lines out (joinBytes out)
  | [], out, hl, hb, h => by
    rw [List.length_nil, Nat.zero_add] at h
    exact absurd ⟨hl, hb⟩ h
  | line :: lines, out, _, _, h => by
    rw [List.reverse_cons, List.append_assoc, List.singleton_append, List.length_cons] at h
    have hbytes : joinBytes out + (byteLength line + if 0 < out.length then 1 else 0) = joinBytes (line :: out) := by
      rw [joinBytes]
      omega
    rw [List.cons_append, collect, collect]
    simp only [hbytes]
    split
    · split
      · rfl
      · refine collect_stops more lines (line :: out) ?_ (by omega) ?_
        · rw [List.length_cons]
          omega
        · rw [List.length_cons]
          intro hfit
          exact h ⟨by omega, hfit.2⟩
    · rfl

end

end Trek.Tools
