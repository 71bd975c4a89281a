/-
# Reading a file page by page

The tool `read` returns a part of a text file and, where there is more, a notice with the line to go on
from. A page ends at the limit of the caller, at the line limit or at the byte limit, and the notice counts
the pieces between line ends, whereas the truncation leaves the empty one after a last line end out. Every
page shows whole lines from its offset on and announces the line after them (`read_spec`), so the pages
together are the file (`pages_complete`).
-/
import Trek.Tools.Longest
import Trek.Lib.Lines

namespace Trek.Tools

/-- `(bytes / unit).toFixed(1)`, for a power of two: tenths are rounded to the nearest, a half up. -/
def toFixed1 (bytes unit : ℕ) : String :=
  let tenths := (10 * bytes + unit / 2) / unit
  s!"{tenths / 10}.{tenths % 10}"

/-- `formatSize`. -/
def formatSize (bytes : ℕ) : String :=
  if bytes < 1024 then s!"{bytes}B"
  else if bytes < 1024 * 1024 then s!"{toFixed1 bytes 1024}KB"
  else s!"{toFixed1 bytes (1024 * 1024)}MB"

/-- What is written behind the lines of a page. -/
inductive Notice
  /-- The first line exceeds the byte limit. -/
  | longLine (line bytes : ℕ)
  /-- The truncation ended the page. -/
  | showing (first last total : ℕ) (truncatedBy : TruncatedBy) (next : ℕ)
  /-- The limit of the caller ended the page. -/
  | more (remaining next : ℕ)
  deriving DecidableEq

/-- The text of a notice. -/
def Notice.text (path : String) : Notice → String
  | longLine line bytes =>
    s!"[Line {line} is {formatSize bytes}, exceeds {formatSize DEFAULT_MAX_BYTES} limit. Use bash: sed -n '{line}p' {path} | head -c {DEFAULT_MAX_BYTES}]"
  | showing first last total .lines next => s!"[Showing lines {first}-{last} of {total}. Use offset={next} to continue.]"
  | showing first last total .bytes next =>
    s!"[Showing lines {first}-{last} of {total} ({formatSize DEFAULT_MAX_BYTES} limit). Use offset={next} to continue.]"
  | more remaining next => s!"[{remaining} more lines in file. Use offset={next} to continue.]"

/-- The offset that a notice announces. -/
def Notice.next? : Notice → Option ℕ
  | longLine _ _ => none
  | showing _ _ _ _ next => some next
  | more _ next => some next

/-- A result of the tool: the lines, the notice behind them, and the details. -/
structure Page where
  content : List Char
  notice : Option Notice
  truncation : Option TruncationResult
  deriving DecidableEq

/-- The text that the tool returns. -/
def Page.outputText (path : String) (page : Page) : List Char :=
  match page.notice with
  | none => page.content
  | some (.longLine line bytes) => (Notice.text path (.longLine line bytes)).toList
  | some notice => page.content ++ "\n\n".toList ++ (notice.text path).toList

/-- `execute` of the tool, of the text of a file. -/
def read (textContent : List Char) (offset limit : Option ℕ) : Except String Page :=
  let allLines := textContent.splitOn '\n'
  let totalFileLines := allLines.length
  let startLine := offset.getD 0 - 1
  let startLineDisplay := startLine + 1
  if allLines.length ≤ startLine then
    .error s!"Offset {offset.getD 0} is beyond end of file ({allLines.length} lines total)"
  else
    let endLine := match limit with
      | some limit => min (startLine + limit) allLines.length
      | none => allLines.length
    let selectedContent := joinLines ((allLines.take endLine).drop startLine)
    let truncation := truncateHead selectedContent DEFAULT_MAX_LINES DEFAULT_MAX_BYTES
    if truncation.firstLineExceedsLimit then
      .ok ⟨[], some (.longLine startLineDisplay (byteLength (allLines.getD startLine []))), some truncation⟩
    else if truncation.truncated then
      let endLineDisplay := startLineDisplay + truncation.outputLines - 1
      let truncatedBy := truncation.truncatedBy.getD .bytes
      .ok ⟨truncation.content, some (.showing startLineDisplay endLineDisplay totalFileLines truncatedBy (endLineDisplay + 1)),
        some truncation⟩
    else if limit.isSome ∧ endLine < allLines.length then
      .ok ⟨truncation.content, some (.more (allLines.length - endLine) (endLine + 1)), none⟩
    else .ok ⟨truncation.content, none, none⟩

/-- A file is read on from an offset, at the offset that each notice announces: the offsets and their pages. -/
inductive Reads (text : List Char) (limit : Option ℕ) : ℕ → List (ℕ × Page) → Prop
  | last {offset : ℕ} {page : Page} : read text (some offset) limit = .ok page → page.notice.bind Notice.next? = none →
      Reads text limit offset [(offset, page)]
  | next {offset next : ℕ} {page : Page} {pages : List (ℕ × Page)} : read text (some offset) limit = .ok page →
      page.notice.bind Notice.next? = some next → Reads text limit next pages → Reads text limit offset ((offset, page) :: pages)

/-- The lines from one line to another, both counted from one. -/
def linesFromTo (lines : List (List Char)) (first last : ℕ) : List (List Char) := (lines.take last).drop (first - 1)

/-- What a notice states of a page is so: the page is the lines it names, or those up to the one it announces, and the
numbers of lines are those of the file. -/
def Notice.Right (lines : List (List Char)) (offset : ℕ) (content : List Char) : Notice → Prop
  | longLine _ _ => False
  | showing first last total _ next =>
    first = offset ∧ first ≤ last ∧ last < lines.length ∧ total = lines.length ∧ next = last + 1 ∧
      content = joinLines (linesFromTo lines first last)
  | more remaining next =>
    offset < next ∧ next ≤ lines.length ∧ remaining = lines.length - (next - 1) ∧
      content = joinLines (linesFromTo lines offset (next - 1))

variable {text : List Char} {limit : Option ℕ} {lines : List (List Char)}

/-! ### Lines that are joined -/

theorem splitOn_joinLines (hne : lines ≠ []) (hlines : ∀ line ∈ lines, '\n' ∉ line) : (joinLines lines).splitOn '\n' = lines :=
  List.splitOn_intercalate '\n' hlines hne

/-- The lines that the truncation counts: all of them, or all but an empty last one. -/
theorem splitLines_joinLines (hne : lines ≠ []) (hlines : ∀ line ∈ lines, '\n' ∉ line) :
    splitLinesForCounting (joinLines lines) = lines ∨
      lines = splitLinesForCounting (joinLines lines) ++ [[]] := by
  have hsplit := splitOn_joinLines hne hlines
  have hlast := getLast?_splitOn_eq_nil (joinLines lines)
  rw [hsplit] at hlast
  unfold splitLinesForCounting
  rw [hsplit]
  by_cases hempty : joinLines lines = []
  · rw [if_pos hempty]
    rw [hempty, List.splitOn_nil] at hsplit
    exact Or.inr hsplit.symm
  · rw [if_neg hempty]
    split
    · next hends =>
      obtain ⟨front, hfront⟩ := List.getLast?_eq_some_iff.mp (hlast.mpr (Or.inr hends))
      rw [hfront, List.dropLast_concat]
      exact Or.inr rfl
    · exact Or.inl rfl

theorem joinLines_append {front back : List (List Char)} (hfront : front ≠ []) (hback : back ≠ []) :
    joinLines (front ++ back) = joinLines front ++ '\n' :: joinLines back := by
  induction front with
  | nil => exact absurd rfl hfront
  | cons line front ih =>
    by_cases hnil : front = []
    · subst hnil
      rw [List.singleton_append, joinLines_cons hback]
      simp [joinLines]
    · rw [List.cons_append, joinLines_cons (by simp [hnil]), ih hnil, joinLines_cons hnil, List.append_assoc, List.cons_append]

/-! ### One page -/

/-- Lines none of which exceeds the byte limit are cut behind one of them, but not behind the last one, or not at all. -/
theorem truncateHead_lines (hne : lines ≠ []) (hlines : ∀ line ∈ lines, '\n' ∉ line)
    (hbytes : ∀ line ∈ lines, byteLength line ≤ DEFAULT_MAX_BYTES) {r : TruncationResult}
    (hr : truncateHead (joinLines lines) DEFAULT_MAX_LINES DEFAULT_MAX_BYTES = r) :
    r.firstLineExceedsLimit = false ∧
      (r.truncated = false → r.content = joinLines lines) ∧
        (r.truncated = true → 0 < r.outputLines ∧ r.outputLines < lines.length ∧ r.content = joinLines (lines.take r.outputLines)) := by
  have hcounted := splitLines_joinLines hne hlines
  have hstart : splitLinesForCounting (joinLines lines) <+: lines := by
    rcases hcounted with heq | heq
    · exact ⟨[], by rw [List.append_nil, heq]⟩
    · exact ⟨[[]], heq.symm⟩
  unfold truncateHead truncateHeadOf at hr
  dsimp only at hr
  generalize hcount : splitLinesForCounting (joinLines lines) = counted at hr hcounted hstart
  split at hr
  · subst hr
    exact ⟨rfl, fun _ => rfl, fun h => by cases h⟩
  · next hover =>
    split at hr
    · next hfirst =>
      -- the first line is a line of the file
      cases counted with
      | nil => exact absurd hfirst (Nat.not_lt_zero _)
      | cons line counted =>
        have hle := hbytes line (hstart.subset List.mem_cons_self)
        exact absurd hfirst (Nat.not_lt.mpr hle)
    · obtain ⟨kept, dropped, hsplit, hout, hfits, hmax⟩ := collectHead_spec counted []
        (⟨Nat.zero_le _, Nat.zero_le _⟩ : Fits DEFAULT_MAX_LINES DEFAULT_MAX_BYTES [])
      rw [List.nil_append] at hout hfits hmax
      generalize hresult : collectHead byteLength DEFAULT_MAX_LINES DEFAULT_MAX_BYTES counted [] 0 = result at hr
      obtain ⟨out, count, stoppedBy⟩ := result
      obtain rfl : out = kept := by
        have hfst := hout
        rw [joinBytes, hresult] at hfst
        exact hfst
      have hkept : out <+: lines := (hsplit ▸ List.prefix_append out dropped).trans hstart
      subst hr
      refine ⟨rfl, fun h => (by cases h), fun _ => ⟨?_, ?_, congrArg joinLines (List.prefix_iff_eq_take.mp hkept)⟩⟩
      · -- the first line fits
        refine Nat.pos_of_ne_zero fun hzero => ?_
        obtain rfl := List.length_eq_zero_iff.mp hzero
        rw [List.nil_append] at hsplit
        subst hsplit
        cases counted with
        | nil =>
          refine hover ⟨Nat.zero_le _, ?_⟩
          have hnil : joinLines lines = [] := by
            by_contra hcontent
            exact splitLines_ne_nil hcontent hcount
          rw [hnil]
          exact Nat.zero_le _
        | cons line counted =>
          refine hmax line counted rfl ⟨Nat.one_le_iff_ne_zero.mpr (by decide), ?_⟩
          have hle := hbytes line (hstart.subset List.mem_cons_self)
          rw [List.nil_append, joinBytes, joinBytes]
          exact hle
      · -- all of the lines do not
        refine lt_of_le_of_ne hkept.length_le fun hall => hover ?_
        obtain rfl := hkept.eq_of_length hall
        have heq : counted = out := hstart.eq_of_length_le (hsplit ▸ (List.prefix_append out dropped).length_le)
        rw [heq, byteLength_joinLines]
        exact ⟨hfits.length, hfits.bytes⟩

/-- A page shows some lines from its offset on: its notice is right, and announces the line after them if there is one. -/
structure Page.Shows (lines : List (List Char)) (offset count : ℕ) (page : Page) : Prop where
  pos : 0 < count
  inside : offset - 1 + count ≤ lines.length
  content : page.content = joinLines ((lines.drop (offset - 1)).take count)
  right : ∀ notice ∈ page.notice, notice.Right lines offset page.content
  next : page.notice.bind Notice.next? = if offset - 1 + count < lines.length then some (offset + count) else none

/-- A line of the file from which to read shows at least one line. -/
theorem read_spec {offset : ℕ} (hbytes : ∀ line ∈ text.splitOn '\n', byteLength line ≤ DEFAULT_MAX_BYTES)
    (hlimit : ∀ n ∈ limit, 1 ≤ n) (hpos : 1 ≤ offset) (hoffset : offset ≤ (text.splitOn '\n').length) :
    ∃ page count, read text (some offset) limit = .ok page ∧ page.Shows (text.splitOn '\n') offset count := by
  have hnewline : ∀ line ∈ text.splitOn '\n', '\n' ∉ line := fun line hline => Trek.notMem_of_mem_splitOn hline
  unfold read
  dsimp only
  rw [Option.getD_some]
  generalize text.splitOn '\n' = lines at hbytes hoffset hnewline ⊢
  generalize hend : (match limit with | some limit => min (offset - 1 + limit) lines.length | none => lines.length) = endLine
  have hbetween : offset - 1 < endLine ∧ endLine ≤ lines.length := by
    rw [← hend]
    cases limit with
    | none =>
      dsimp only
      omega
    | some n =>
      have := hlimit n rfl
      dsimp only
      omega
  have hselected : (lines.take endLine).drop (offset - 1) = (lines.drop (offset - 1)).take (endLine - (offset - 1)) := List.drop_take
  have hlength : ((lines.take endLine).drop (offset - 1)).length = endLine - (offset - 1) := by
    rw [List.length_drop, List.length_take]
    omega
  have hsub : ∀ line ∈ (lines.take endLine).drop (offset - 1), line ∈ lines :=
    fun line hline => List.mem_of_mem_take (List.mem_of_mem_drop hline)
  generalize hr : truncateHead (joinLines ((lines.take endLine).drop (offset - 1))) DEFAULT_MAX_LINES DEFAULT_MAX_BYTES = r
  obtain ⟨hfirst, hwhole, hcut⟩ := truncateHead_lines (List.ne_nil_of_length_pos (by omega)) (fun line hline => hnewline line (hsub line hline))
    (fun line hline => hbytes line (hsub line hline)) hr
  rw [if_neg (by omega), hfirst, if_neg Bool.false_ne_true]
  by_cases htruncated : r.truncated = true
  · -- the truncation ends the page
    obtain ⟨hsome, hfewer, hcontent⟩ := hcut htruncated
    rw [hlength] at hfewer
    have hlines : r.content = joinLines ((lines.drop (offset - 1)).take r.outputLines) := by
      rw [hcontent, hselected, List.take_take, Nat.min_eq_left (by omega)]
    rw [if_pos htruncated]
    refine ⟨_, r.outputLines, rfl, hsome, by omega, hlines, ?_, ?_⟩
    · rintro _ ⟨⟩
      refine ⟨by omega, by omega, by omega, rfl, rfl, ?_⟩
      have hcount : offset - 1 + 1 + r.outputLines - 1 - (offset - 1 + 1 - 1) = r.outputLines := by omega
      rw [hlines, linesFromTo, List.drop_take, hcount, Nat.add_sub_cancel]
    · rw [if_pos (by omega)]
      exact congrArg some (by omega)
  · have hcontent := hwhole (Bool.not_eq_true _ ▸ htruncated)
    rw [hselected] at hcontent
    rw [if_neg htruncated]
    by_cases hmore : limit.isSome ∧ endLine < lines.length
    · -- the limit of the caller ends the page
      rw [if_pos hmore]
      refine ⟨_, endLine - (offset - 1), rfl, by omega, by omega, hcontent, ?_, ?_⟩
      · rintro _ ⟨⟩
        refine ⟨by omega, by omega, by omega, ?_⟩
        rw [hcontent, linesFromTo, List.drop_take, Nat.add_sub_cancel]
      · rw [if_pos (by omega)]
        exact congrArg some (by omega)
    · -- the file ends
      have hall : endLine = lines.length := by
        cases limit with
        | none => exact hend.symm
        | some n => exact (Nat.lt_or_eq_of_le hbetween.2).resolve_left fun hlt => hmore ⟨rfl, hlt⟩
      rw [if_neg hmore]
      refine ⟨_, endLine - (offset - 1), rfl, by omega, by omega, hcontent, (fun _ hnone => by cases hnone), ?_⟩
      rw [if_neg (by omega)]
      rfl

/-! ### All pages -/

/-- A file is read in one way. -/
theorem Reads.unique {offset : ℕ} {pages : List (ℕ × Page)} (h : Reads text limit offset pages) :
    ∀ {pages' : List (ℕ × Page)}, Reads text limit offset pages' → pages' = pages := by
  induction h with
  | last hread hnone =>
    intro pages' h'
    cases h' with
    | last hread' hnone' =>
      obtain rfl := Except.ok.inj (hread.symm.trans hread')
      rfl
    | next hread' hsome' _ =>
      obtain rfl := Except.ok.inj (hread.symm.trans hread')
      rw [hnone] at hsome'
      cases hsome'
  | next hread hsome _ ih =>
    intro pages' h'
    cases h' with
    | last hread' hnone' =>
      obtain rfl := Except.ok.inj (hread.symm.trans hread')
      rw [hsome] at hnone'
      cases hnone'
    | next hread' hsome' hrest' =>
      obtain rfl := Except.ok.inj (hread.symm.trans hread')
      obtain rfl := Option.some.inj (hsome.symm.trans hsome')
      rw [ih hrest']

/-- Reading on from a line ends, with the lines from there on. -/
theorem reads_from (hbytes : ∀ line ∈ text.splitOn '\n', byteLength line ≤ DEFAULT_MAX_BYTES) (hlimit : ∀ n ∈ limit, 1 ≤ n) :
    ∀ (left offset : ℕ), 1 ≤ offset → offset - 1 + (left + 1) = (text.splitOn '\n').length → ∃ pages, Reads text limit offset pages ∧
      joinLines (pages.map (·.2.content)) = joinLines ((text.splitOn '\n').drop (offset - 1)) ∧
        ∀ read ∈ pages, ∀ notice ∈ read.2.notice, notice.Right (text.splitOn '\n') read.1 read.2.content := by
  intro left
  induction left using Nat.strong_induction_on with
  | _ left ih =>
    intro offset hpos hleft
    obtain ⟨page, count, hread, hshows⟩ := read_spec hbytes hlimit hpos (by omega)
    have hinside := hshows.inside
    have hcount := hshows.pos
    by_cases hlast : offset - 1 + count < (text.splitOn '\n').length
    · have hnext := hshows.next
      rw [if_pos hlast] at hnext
      obtain ⟨pages, hreads, hjoin, hright⟩ := ih (left - count) (by omega) (offset + count) (by omega) (by omega)
      refine ⟨(offset, page) :: pages, .next hread hnext hreads, ?_, List.forall_mem_cons.mpr ⟨hshows.right, hright⟩⟩
      have hpages : pages.map (·.2.content) ≠ [] := by
        cases hreads <;> exact List.cons_ne_nil _ _
      have hdrop : (text.splitOn '\n').drop (offset + count - 1) = ((text.splitOn '\n').drop (offset - 1)).drop count := by
        rw [List.drop_drop]
        congr 1
        omega
      have htail : ((text.splitOn '\n').drop (offset - 1)).drop count ≠ [] := by
        refine List.ne_nil_of_length_pos ?_
        rw [List.length_drop, List.length_drop]
        omega
      have hhead : ((text.splitOn '\n').drop (offset - 1)).take count ≠ [] := by
        refine List.ne_nil_of_length_pos ?_
        rw [List.length_take, List.length_drop]
        omega
      calc joinLines (((offset, page) :: pages).map (·.2.content))
        _ = page.content ++ '\n' :: joinLines (pages.map (·.2.content)) := joinLines_cons hpages
        _ = joinLines (((text.splitOn '\n').drop (offset - 1)).take count) ++
              '\n' :: joinLines (((text.splitOn '\n').drop (offset - 1)).drop count) := by rw [hshows.content, hjoin, hdrop]
        _ = joinLines ((text.splitOn '\n').drop (offset - 1)) := by
          rw [← joinLines_append hhead htail, List.take_append_drop]
    · have hnone := hshows.next
      rw [if_neg hlast] at hnone
      refine ⟨[(offset, page)], .last hread hnone, ?_, List.forall_mem_singleton.mpr hshows.right⟩
      rw [List.map_singleton, hshows.content, List.take_of_length_le (by rw [List.length_drop]; omega)]
      simp [joinLines]

/-- **Paging reads everything.** From the first line on, following the notices, a file is read in finitely many reads,
in one way; the pages, joined, are the file, and what a notice states is so. -/
theorem pages_complete (text : List Char) (limit : Option ℕ) (hbytes : ∀ line ∈ text.splitOn '\n', byteLength line ≤ DEFAULT_MAX_BYTES)
    (hlimit : ∀ n ∈ limit, 1 ≤ n) : ∃ pages, (∀ pages', Reads text limit 1 pages' ↔ pages' = pages) ∧
      joinLines (pages.map (·.2.content)) = text ∧
        ∀ read ∈ pages, ∀ notice ∈ read.2.notice, notice.Right (text.splitOn '\n') read.1 read.2.content := by
  have hpos := List.length_pos_iff.mpr (List.splitOn_ne_nil '\n' text)
  obtain ⟨pages, hreads, hjoin, hright⟩ := reads_from hbytes hlimit ((text.splitOn '\n').length - 1) 1 le_rfl (by omega)
  refine ⟨pages, fun pages' => ⟨hreads.unique, fun heq => heq ▸ hreads⟩, hjoin.trans ?_, hright⟩
  rw [Nat.sub_self, List.drop_zero]
  exact List.intercalate_splitOn '\n'

/-- Two lines and an empty one, read with a limit of two lines. -/
theorem pages_complete_two : ∃ pages, (∀ pages', Reads "a\nb\n".toList (some 2) 1 pages' ↔ pages' = pages) ∧
    joinLines (pages.map (·.2.content)) = "a\nb\n".toList ∧
      ∀ read ∈ pages, ∀ notice ∈ read.2.notice, notice.Right ("a\nb\n".toList.splitOn '\n') read.1 read.2.content :=
  pages_complete "a\nb\n".toList (some 2) (by decide) (by decide)

end Trek.Tools
