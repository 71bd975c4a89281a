/-
# The two copies of truncation

The agent harness has its own `truncateHead` and `truncateTail` (`agent/src/harness/utils/truncate.ts`).
They count bytes and cut a line by its code units and split the lines in their own way; for a text
that is well formed this comes to the same (`truncateTail_agrees`), but for a line end at the end of
the text: the head of the harness counts one more line there (`truncate_agrees_iff`).
-/
import Mathlib.Data.List.Induction
import Mathlib.Data.List.TakeWhile
import Trek.Lib.Utf16
import Trek.Tools.Truncate

namespace Trek.HarnessTools

open Trek.Tools

/-! ### The code -/

/-- The loop of `utf8ByteLength` over the code units. -/
def countBytes : List ℕ → ℕ
  | [] => 0
  | [code] => if code ≤ 0x7F then 1 else if code ≤ 0x7FF then 2 else 3
  | code :: next :: rest =>
    if code ≤ 0x7F then 1 + countBytes (next :: rest)
    else if code ≤ 0x7FF then 2 + countBytes (next :: rest)
    else if isHighSurrogate code && isLowSurrogate next then 4 + countBytes rest
    else 3 + countBytes (next :: rest)

/-- `utf8ByteLength`; `buffer` says whether the runtime has `Buffer`. -/
def utf8ByteLength (buffer : Bool) (content : List Char) : ℕ :=
  if buffer then byteLength content
  else
    let codes := utf16 content
    let firstNonAscii := (codes.takeWhile (· ≤ 0x7F)).length
    if firstNonAscii = codes.length then codes.length else firstNonAscii + countBytes (codes.drop firstNonAscii)

/-- `replaceUnpairedSurrogates`. -/
def replaceUnpairedSurrogates : List ℕ → List ℕ
  | [] => []
  | [code] => if isHighSurrogate code || isLowSurrogate code then [0xFFFD] else [code]
  | code :: next :: rest =>
    if isHighSurrogate code && isLowSurrogate next then code :: next :: replaceUnpairedSurrogates rest
    else (if isHighSurrogate code || isLowSurrogate code then 0xFFFD else code) :: replaceUnpairedSurrogates (next :: rest)

/-- The bytes of a code unit by itself. -/
def unitBytes (code : ℕ) : ℕ :=
  if isHighSurrogate code || isLowSurrogate code then 3 else if code ≤ 0x7F then 1 else if code ≤ 0x7FF then 2 else 3

/-- The loop of `truncateStringToBytesFromEnd`, over the code units from the last one on: the units
kept, and whether one of them is a surrogate by itself. -/
def keepUnits (maxBytes : ℕ) : List ℕ → ℕ → List ℕ → Bool → List ℕ × Bool
  | [], _, output, needsReplacement => (output, needsReplacement)
  | [code], outputBytes, output, needsReplacement =>
    if maxBytes < outputBytes + unitBytes code then (output, needsReplacement)
    else (code :: output, needsReplacement || isHighSurrogate code || isLowSurrogate code)
  | code :: previous :: before, outputBytes, output, needsReplacement =>
    if isLowSurrogate code && isHighSurrogate previous then
      if maxBytes < outputBytes + 4 then (output, needsReplacement)
      else keepUnits maxBytes before (outputBytes + 4) (previous :: code :: output) needsReplacement
    else
      if maxBytes < outputBytes + unitBytes code then (output, needsReplacement)
      else
        keepUnits maxBytes (previous :: before) (outputBytes + unitBytes code) (code :: output)
          (needsReplacement || isHighSurrogate code || isLowSurrogate code)

/-- `truncateStringToBytesFromEnd`. -/
def truncateStringToBytesFromEnd (str : List Char) (maxBytes : ℕ) : List Char :=
  if maxBytes = 0 then []
  else
    let (output, needsReplacement) := keepUnits maxBytes (utf16 str).reverse 0 [] false
    utf16ToString (if needsReplacement then replaceUnpairedSurrogates output else output)

section

variable (buffer : Bool)

/-- `truncateHead`. -/
def truncateHead (content : List Char) (maxLines maxBytes : ℕ) : TruncationResult :=
  truncateHeadOf (utf8ByteLength buffer) content (content.splitOn '\n') maxLines maxBytes

/-- The lines of `truncateTail`. -/
def tailLines (content : List Char) : List (List Char) :=
  let lines := content.splitOn '\n'
  if 1 < lines.length ∧ lines.getLast? = some [] then lines.dropLast else lines

/-- The loop of `truncateTail`, over the lines from the last one on. -/
def collect (maxLines maxBytes : ℕ) : List (List Char) → List (List Char) → ℕ → Collected
  | [], out, count => ⟨out, count, .lines, false⟩
  | line :: lines, out, count =>
    if out.length < maxLines then
      let lineBytes := utf8ByteLength buffer line + if 0 < out.length then 1 else 0
      if maxBytes < count + lineBytes then
        if out.length = 0 then
          let truncatedLine := truncateStringToBytesFromEnd line maxBytes
          ⟨[truncatedLine], utf8ByteLength buffer truncatedLine, .bytes, true⟩
        else ⟨out, count, .bytes, false⟩
      else collect maxLines maxBytes lines (line :: out) (count + lineBytes)
    else ⟨out, count, .lines, false⟩

/-- `truncateTail`. -/
def truncateTail (content : List Char) (maxLines maxBytes : ℕ) : TruncationResult :=
  let totalBytes := utf8ByteLength buffer content
  let lines := tailLines content
  let totalLines := lines.length
  if totalLines ≤ maxLines ∧ totalBytes ≤ maxBytes then
    ⟨content, false, none, totalLines, totalBytes, totalLines, totalBytes, false, false, maxLines, maxBytes⟩
  else
    let c := collect buffer maxLines maxBytes lines.reverse [] 0
    let outputContent := joinLines c.outputLinesArr
    ⟨outputContent, true, some (c.limit maxLines maxBytes), totalLines, totalBytes, c.outputLinesArr.length,
      utf8ByteLength buffer outputContent, c.lastLinePartial, false, maxLines, maxBytes⟩

end

/-! ### Bytes -/

/-- A unit that is no high surrogate is counted by itself. -/
theorem countBytes_cons {code : ℕ} (h : isHighSurrogate code = false) (rest : List ℕ) : countBytes (code :: rest) =
    (if code ≤ 0x7F then 1 else if code ≤ 0x7FF then 2 else 3) + countBytes rest := by
  cases rest with
  | nil => rfl
  | cons next rest =>
    rw [countBytes, h, Bool.false_and]
    simp only [Bool.false_eq_true, if_false]
    split_ifs <;> rfl

theorem countBytes_utf16 : ∀ text : List Char, countBytes (utf16 text) = byteLength text
  | [] => rfl
  | c :: text => by
    have ih := countBytes_utf16 text
    rw [byteLength_cons, length_utf8Char, utf16_cons]
    rcases utf16Char_cases c with ⟨hlt, hc, hhigh, -⟩ | ⟨high, low, hle, hc, hhigh, hlow, -⟩
    · rw [hc, List.singleton_append, countBytes_cons hhigh, ih, if_pos hlt]
    · have hbig : ¬ high ≤ 0x7F ∧ ¬ high ≤ 0x7FF := by
        simp only [isHighSurrogate, Bool.and_eq_true, decide_eq_true_eq] at hhigh
        omega
      rw [hc, List.cons_append, List.singleton_append, countBytes, if_neg hbig.1, if_neg hbig.2, hhigh, hlow,
        Bool.and_self, if_pos rfl, ih, if_neg (by omega), if_neg (by omega), if_neg (by omega)]

/-- Units of one byte at the start. -/
theorem countBytes_ascii : ∀ (ascii rest : List ℕ), (∀ code ∈ ascii, code ≤ 0x7F) →
    countBytes (ascii ++ rest) = ascii.length + countBytes rest
  | [], rest, _ => by simp
  | code :: ascii, rest, h => by
    have hcode := h code List.mem_cons_self
    have hhigh : isHighSurrogate code = false := by
      simp only [isHighSurrogate, Bool.and_eq_false_iff, decide_eq_false_iff_not]
      omega
    rw [List.cons_append, countBytes_cons hhigh, if_pos hcode,
      countBytes_ascii ascii rest fun c hc => h c (List.mem_cons_of_mem _ hc), List.length_cons]
    omega

/-- **The two ways to count the bytes of a text agree.** -/
theorem utf8ByteLength_eq (buffer : Bool) (content : List Char) : utf8ByteLength buffer content = byteLength content := by
  unfold utf8ByteLength
  cases buffer with
  | true => rfl
  | false =>
    dsimp only
    rw [if_neg Bool.false_ne_true, ← countBytes_utf16]
    generalize utf16 content = codes
    have hsplit := List.takeWhile_append_dropWhile (p := fun code => decide (code ≤ 0x7F)) (l := codes)
    have hascii : ∀ code ∈ codes.takeWhile (· ≤ 0x7F), code ≤ 0x7F := fun code hcode =>
      of_decide_eq_true (List.mem_takeWhile_imp (p := fun code => decide (code ≤ 0x7F)) hcode)
    have hdrop : codes.drop (codes.takeWhile (· ≤ 0x7F)).length = codes.dropWhile (· ≤ 0x7F) := by
      conv_lhs => rw [← hsplit]
      rw [List.drop_left' (by simp)]
    have hcount := countBytes_ascii _ (codes.dropWhile (· ≤ 0x7F)) hascii
    rw [hsplit] at hcount
    split
    · rename_i hall
      have hnil : codes.dropWhile (· ≤ 0x7F) = [] := by
        rw [← hdrop, hall, List.drop_length]
      rw [hcount, hnil, hall]
      rfl
    · rw [hdrop, hcount]

/-! ### The end of a line -/

/-- The bytes of the unit of a character that has only one. -/
theorem unitBytes_eq {c : Char} (hlt : c.toNat < 0x10000) (hhigh : isHighSurrogate c.toNat = false)
    (hlow : isLowSurrogate c.toNat = false) : unitBytes c.toNat = (utf8Char c).length := by
  rw [unitBytes, hhigh, hlow, length_utf8Char, if_pos hlt]
  rfl

/-- One character of the loop. -/
theorem keepUnits_utf16Char (maxBytes : ℕ) (c : Char) (before : List ℕ) (outputBytes : ℕ) (output : List ℕ) :
    keepUnits maxBytes ((utf16Char c).reverse ++ before) outputBytes output false =
      if maxBytes < outputBytes + (utf8Char c).length then (output, false)
      else keepUnits maxBytes before (outputBytes + (utf8Char c).length) (utf16Char c ++ output) false := by
  rcases utf16Char_cases c with ⟨hlt, hc, hhigh, hlow⟩ | ⟨high, low, hle, hc, hhigh, hlow, -⟩
  · rw [hc, List.reverse_singleton, List.singleton_append, ← unitBytes_eq hlt hhigh hlow]
    cases before with
    | nil =>
      simp only [keepUnits, hhigh, hlow, Bool.or_false, List.singleton_append]
    | cons previous before =>
      rw [keepUnits, hhigh, hlow]
      rfl
  · have hbytes : (utf8Char c).length = 4 := by
      rw [length_utf8Char, if_neg (by omega), if_neg (by omega), if_neg (by omega)]
    rw [hc, hbytes]
    show keepUnits maxBytes (low :: high :: before) outputBytes output false = _
    rw [keepUnits, hhigh, hlow]
    rfl

/-- The units that are kept are those of the longest end of the text that fits. The induction is on the
text that is still to be looked at. -/
theorem keepUnits_utf16 (maxBytes : ℕ) (text : List Char) : ∀ kept, byteLength kept ≤ maxBytes →
    keepUnits maxBytes (utf16 text).reverse (byteLength kept) (utf16 kept) false =
      (utf16 (lastBytes maxBytes (text ++ kept)), false) := by
  induction text using List.reverseRecOn with
  | nil =>
    intro kept hkept
    rw [List.nil_append, lastBytes_of_le hkept]
    rfl
  | append_singleton text c ih =>
    intro kept hkept
    have hunits : (utf16 (text ++ [c])).reverse = (utf16Char c).reverse ++ (utf16 text).reverse := by
      rw [utf16_append, List.reverse_append, utf16_cons]
      simp [utf16]
    rw [hunits, keepUnits_utf16Char, List.append_assoc, List.singleton_append]
    split
    · rename_i hbig
      rw [lastBytes_append (by omega), lastBytes_of_le hkept]
    · rename_i hfits
      have hbytes : byteLength kept + (utf8Char c).length = byteLength (c :: kept) := by
        rw [byteLength_cons]
        omega
      rw [hbytes, ← utf16_cons]
      exact ih (c :: kept) (by omega)

/-- **The two ways to cut a line agree.** -/
theorem truncateStringToBytesFromEnd_eq (str : List Char) {maxBytes : ℕ} (h : 1 ≤ maxBytes) :
    truncateStringToBytesFromEnd str maxBytes = Tools.truncateStringToBytesFromEnd str maxBytes := by
  have hkeep := keepUnits_utf16 maxBytes str [] (Nat.zero_le _)
  rw [List.append_nil] at hkeep
  have hzero : byteLength [] = 0 ∧ utf16 [] = [] := ⟨rfl, rfl⟩
  rw [hzero.1, hzero.2] at hkeep
  rw [Tools.truncateStringToBytesFromEnd_eq, truncateStringToBytesFromEnd, if_neg (by omega), hkeep]
  exact utf16ToString_utf16 _

/-! ### Lines -/

/-- The lines of a text that is not empty, and an empty one after a line end at its end. -/
theorem splitOn_eq (content : List Char) : content ≠ [] → content.splitOn '\n' =
    splitLinesForCounting content ++ if content.getLast? = some '\n' then [[]] else [] := by
  induction content using lines_induction with
  | single line hline =>
    intro hne
    rw [splitLines_single hline hne, if_neg fun h => hline (List.mem_of_getLast? h), List.splitOn_eq_singleton hline]
    rfl
  | cons line rest hline ih =>
    intro _
    rw [splitLines_cons hline, List.splitOn_append_cons_self_of_not_mem hline,
      List.getLast?_append_of_ne_nil _ (List.cons_ne_nil _ _)]
    by_cases hrest : rest = []
    · subst hrest
      rfl
    · obtain ⟨c, rest', rfl⟩ := List.exists_cons_of_ne_nil hrest
      rw [ih hrest, List.getLast?_cons_cons, List.cons_append]

/-- The last line of a text that does not end with a line end is not empty. -/
theorem getLast?_splitLines (content : List Char) : content.getLast? ≠ some '\n' →
    (splitLinesForCounting content).getLast? ≠ some [] := by
  induction content using lines_induction with
  | single line hline =>
    intro _
    by_cases hne : line = []
    · subst hne
      exact fun h => by cases h
    · rw [splitLines_single hline hne]
      exact fun h => hne (Option.some.inj h)
  | cons line rest hline ih =>
    intro hlast
    rw [List.getLast?_append_of_ne_nil _ (List.cons_ne_nil _ _)] at hlast
    by_cases hrest : rest = []
    · subst hrest
      exact absurd rfl hlast
    · have hlines := splitLines_ne_nil hrest
      obtain ⟨c, rest', rfl⟩ := List.exists_cons_of_ne_nil hrest
      rw [List.getLast?_cons_cons] at hlast
      obtain ⟨first, lines, heq⟩ := List.exists_cons_of_ne_nil hlines
      have ih := ih hlast
      rw [splitLines_cons hline, heq, List.getLast?_cons_cons, ← heq]
      exact ih

/-- Both copies of `truncateTail` look at the same lines of a text that is not empty. -/
theorem tailLines_eq {content : List Char} (h : content ≠ []) : tailLines content = splitLinesForCounting content := by
  unfold tailLines
  rw [splitOn_eq content h]
  by_cases hlast : content.getLast? = some '\n'
  · have hpos := List.length_pos_iff.mpr (splitLines_ne_nil h)
    simp only [if_pos hlast]
    rw [if_pos ⟨by rw [List.length_append, List.length_singleton]; omega, List.getLast?_concat⟩, List.dropLast_concat]
  · simp only [if_neg hlast, List.append_nil]
    exact if_neg fun hpop => getLast?_splitLines content hlast hpop.2

/-! ### Tails -/

/-- Two results are the same for who reads the content and whether it is all there. -/
def Agree (r s : TruncationResult) : Prop := r.content = s.content ∧ r.truncated = s.truncated

theorem collect_eq (buffer : Bool) (maxLines : ℕ) {maxBytes : ℕ} (h : 1 ≤ maxBytes) :
    ∀ (lines out : List (List Char)) (count : ℕ),
      collect buffer maxLines maxBytes lines out count = Tools.collect maxLines maxBytes lines out count
  | [], _, _ => rfl
  | line :: lines, out, count => by
    rw [collect, Tools.collect]
    simp only [utf8ByteLength_eq, truncateStringToBytesFromEnd_eq line h, collect_eq buffer maxLines h lines]

/-- **The tails agree.** -/
theorem truncateTail_agrees (buffer : Bool) (content : List Char) {maxLines maxBytes : ℕ} (hlines : 1 ≤ maxLines)
    (hbytes : 1 ≤ maxBytes) :
    Agree (truncateTail buffer content maxLines maxBytes) (Tools.truncateTail content maxLines maxBytes) := by
  by_cases hne : content = []
  · subst hne
    have hharness : truncateTail buffer [] maxLines maxBytes = ⟨[], false, none, 1, 0, 1, 0, false, false, maxLines, maxBytes⟩ := by
      unfold truncateTail
      simp only [utf8ByteLength_eq]
      exact if_pos ⟨hlines, Nat.zero_le _⟩
    have hagent : Tools.truncateTail [] maxLines maxBytes = ⟨[], false, none, 0, 0, 0, 0, false, false, maxLines, maxBytes⟩ := by
      unfold Tools.truncateTail
      exact if_pos ⟨Nat.zero_le _, Nat.zero_le _⟩
    rw [hharness, hagent]
    exact ⟨rfl, rfl⟩
  · have heq : truncateTail buffer content maxLines maxBytes = Tools.truncateTail content maxLines maxBytes := by
      unfold truncateTail Tools.truncateTail
      simp only [utf8ByteLength_eq, tailLines_eq hne, collect_eq buffer maxLines hbytes]
    rw [heq]
    exact ⟨rfl, rfl⟩

/-! ### Heads -/

/-- An empty line more is not seen, unless all lines are collected and there is room for one more line end. -/
theorem collectHead_concat {maxLines maxBytes : ℕ} : ∀ (lines out : List (List Char)), out ++ lines ≠ [] →
    ¬ (out.length + lines.length < maxLines ∧ joinBytes (out ++ lines) + 1 ≤ maxBytes) →
    (collectHead byteLength maxLines maxBytes (lines ++ [[]]) out (joinBytes out)).1 =
      (collectHead byteLength maxLines maxBytes lines out (joinBytes out)).1
  | [], out, hne, hroom => by
    rw [List.append_nil] at hne hroom
    have hpos := List.length_pos_iff.mpr hne
    have hbytes : byteLength [] + (if 0 < out.length then 1 else 0) = 1 := by
      rw [if_pos hpos]
      rfl
    rw [List.nil_append, collectHead, collectHead]
    simp only [hbytes]
    split
    · rw [if_pos]
      rw [List.length_nil, Nat.add_zero] at hroom
      omega
    · rfl
  | line :: lines, out, hne, hroom => by
    rw [List.cons_append, collectHead, collectHead]
    simp only [← joinBytes_concat]
    split
    · split
      · rfl
      · refine collectHead_concat lines (out ++ [line]) ?_ ?_
        · simp
        · rw [List.length_append, List.length_singleton, List.append_assoc, List.singleton_append]
          rw [List.length_cons] at hroom
          omega
    · rfl

/-- The head of the harness agrees with that of the agent on a text that ends with a line end, but
where the line after it is the one too many. -/
theorem truncateHeadOf_agrees_iff {content : List Char} {maxLines maxBytes : ℕ}
    (hlast : content.getLast? = some '\n') :
    Agree (truncateHeadOf byteLength content (splitLinesForCounting content ++ [[]]) maxLines maxBytes)
        (Tools.truncateHead content maxLines maxBytes) ↔
      ¬ (content.count '\n' = maxLines ∧ byteLength content ≤ maxBytes) := by
  have hne : content ≠ [] := by
    rintro rfl
    cases hlast
  have hcount : (splitLinesForCounting content).length = content.count '\n' := by
    rw [length_splitLines, if_pos (Or.inr hlast), Nat.add_zero]
  have hbytes : byteLength content = joinBytes (splitLinesForCounting content) + 1 := by
    rw [byteLength_eq, if_pos hlast]
  have hlines := splitLines_ne_nil hne
  obtain ⟨first, lines, heq⟩ := List.exists_cons_of_ne_nil hlines
  have hhead : (splitLinesForCounting content ++ [[]]).headD [] = (splitLinesForCounting content).headD [] := by
    rw [heq]
    rfl
  unfold Tools.truncateHead truncateHeadOf
  simp only [List.length_append, List.length_singleton, hhead, hcount]
  by_cases hfit : content.count '\n' ≤ maxLines ∧ byteLength content ≤ maxBytes
  · rw [if_pos hfit]
    by_cases hroom : content.count '\n' + 1 ≤ maxLines
    · rw [if_pos ⟨hroom, hfit.2⟩]
      exact iff_of_true ⟨rfl, rfl⟩ (by omega)
    · rw [if_neg fun h => hroom h.1]
      refine iff_of_false (fun h => ?_) (by omega)
      have htruncated := h.2
      split at htruncated <;> cases htruncated
  · rw [if_neg hfit, if_neg fun h => hfit ⟨by omega, h.2⟩]
    refine iff_of_true ?_ (by omega)
    split
    · exact ⟨rfl, rfl⟩
    · have hcollect : (collectHead byteLength maxLines maxBytes (splitLinesForCounting content ++ [[]]) [] 0).1 =
          (collectHead byteLength maxLines maxBytes (splitLinesForCounting content) [] 0).1 :=
        collectHead_concat _ [] hlines (by rw [List.nil_append, List.length_nil, hcount]; omega)
      exact ⟨congrArg joinLines hcollect, rfl⟩

/-- **The two copies of truncation agree, but for the head of a text that ends with a line end, is not
too large and has as many lines as are allowed.** -/
theorem truncate_agrees_iff (buffer : Bool) (content : List Char) (maxLines maxBytes : ℕ) (hlines : 1 ≤ maxLines)
    (hbytes : 1 ≤ maxBytes) :
    Agree (truncateHead buffer content maxLines maxBytes) (Tools.truncateHead content maxLines maxBytes) ∧
        Agree (truncateTail buffer content maxLines maxBytes) (Tools.truncateTail content maxLines maxBytes) ↔
      ¬ (content.getLast? = some '\n' ∧ content.count '\n' = maxLines ∧ byteLength content ≤ maxBytes) := by
  rw [and_iff_left (truncateTail_agrees buffer content hlines hbytes)]
  have hcount : utf8ByteLength buffer = byteLength := funext (utf8ByteLength_eq buffer)
  rw [truncateHead, hcount]
  by_cases hne : content = []
  · subst hne
    refine iff_of_true ?_ fun h => by cases h.1
    have hharness : truncateHeadOf byteLength [] [[]] maxLines maxBytes =
        ⟨[], false, none, 1, 0, 1, 0, false, false, maxLines, maxBytes⟩ := by
      unfold truncateHeadOf
      exact if_pos ⟨hlines, Nat.zero_le _⟩
    have hagent : Tools.truncateHead [] maxLines maxBytes = ⟨[], false, none, 0, 0, 0, 0, false, false, maxLines, maxBytes⟩ := by
      unfold Tools.truncateHead truncateHeadOf
      exact if_pos ⟨Nat.zero_le _, Nat.zero_le _⟩
    rw [show ([] : List Char).splitOn '\n' = [[]] from rfl, hharness, hagent]
    exact ⟨rfl, rfl⟩
  · rw [splitOn_eq content hne]
    by_cases hlast : content.getLast? = some '\n'
    · rw [if_pos hlast, truncateHeadOf_agrees_iff hlast]
      simp only [hlast, true_and]
    · rw [if_neg hlast, List.append_nil]
      exact iff_of_true ⟨rfl, rfl⟩ fun h => hlast h.1

/-- One line with its line end, and room for one line: the harness drops the line end. -/
theorem truncateHead_disagree :
    ¬ Agree (truncateHead true ['a', '\n'] 1 10) (Tools.truncateHead ['a', '\n'] 1 10) := by
  intro h
  have htruncated := h.2
  revert htruncated
  decide

theorem truncate_agrees_twoLines :
    Agree (truncateHead true ['a', '\n'] 2 10) (Tools.truncateHead ['a', '\n'] 2 10) ∧
      Agree (truncateTail true ['a', '\n'] 2 10) (Tools.truncateTail ['a', '\n'] 2 10) :=
  (truncate_agrees_iff true ['a', '\n'] 2 10 (by decide) (by decide)).mpr (by decide)

end Trek.HarnessTools
