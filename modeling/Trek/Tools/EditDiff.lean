/-
# Finding and applying edits

`core/tools/edit-diff.ts`: an edit names the text it replaces. The text is looked for as it is, then in a normalised
copy of the content, then by the keys of its lines, and last by its first and last line. All edits are matched against
the same content, put in the order of their places and applied from the back.
-/
import Trek.Lib.Occurrences
import Trek.Lib.Splice
import Trek.Lib.Text
import Trek.Lib.Utf16
import Trek.Tools.Truncate

namespace Trek.Tools

/-! ### Line endings -/

/-- The line endings of a file. -/
inductive LineEnding
  | lf | crlf
  deriving DecidableEq

/-- `text.replace(/\r\n/g, "\n").replace(/\r/g, "\n")`. -/
def normalizeToLF : List Char → List Char
  | [] => []
  | '\r' :: '\n' :: text => '\n' :: normalizeToLF text
  | '\r' :: text => '\n' :: normalizeToLF text
  | c :: text => c :: normalizeToLF text

/-- `detectLineEnding`: that of the first line. -/
def detectLineEnding (content : List Char) : LineEnding :=
  match indexOf ['\n'] content, indexOf ['\r', '\n'] content with
  | none, _ => .lf
  | _, none => .lf
  | some lfIdx, some crlfIdx => if crlfIdx < lfIdx then .crlf else .lf

/-- `restoreLineEndings`. -/
def restoreLineEndings (text : List Char) : LineEnding → List Char
  | .lf => text
  | .crlf => text.flatMap fun c => if c = '\n' then ['\r', '\n'] else [c]

/-- What `stripBom` returns. -/
structure StrippedBom where
  bom : List Char
  text : List Char
  deriving DecidableEq

/-- `stripBom`. -/
def stripBom : List Char → StrippedBom
  | '\uFEFF' :: text => ⟨['\uFEFF'], text⟩
  | content => ⟨[], content⟩

/-! ### The normalised copy -/

/-- A line without the white space at its end. -/
def trimEnd (line : List Char) : List Char := (line.reverse.dropWhile isJsSpace).reverse

/-- Quotes, dashes and spaces in their plain form. -/
def fuzzyChar (c : Char) : Char :=
  if c.toNat ∈ [0x2018, 0x2019, 0x201A, 0x201B] then '\''
  else if c.toNat ∈ [0x201C, 0x201D, 0x201E, 0x201F] then '"'
  else if c.toNat ∈ [0x2010, 0x2011, 0x2012, 0x2013, 0x2014, 0x2015, 0x2212] then '-'
  else if c.toNat ∈ [0xA0, 0x202F, 0x205F, 0x3000] ∨ (0x2002 ≤ c.toNat ∧ c.toNat ≤ 0x200A) then ' '
  else c

/-- Space or tab. -/
def isBlank (c : Char) : Bool := c = ' ' || c = '\t'

/-- `replace(/[ \t]+/g, " ")`, after a character that is one of them or not. -/
def squeezeBlanks : Bool → List Char → List Char
  | _, [] => []
  | afterBlank, c :: text =>
    if isBlank c then (if afterBlank then squeezeBlanks true text else ' ' :: squeezeBlanks true text)
    else c :: squeezeBlanks false text

/-- How a match was found. -/
inductive MatchKind
  | exact | fuzzy | lineSpan | anchor
  deriving DecidableEq

/-- A `FuzzyMatchResult` that was found. -/
structure FuzzyMatchResult where
  index : ℕ
  matchLength : ℕ
  usedFuzzyMatch : Bool
  contentForReplacement : List Char
  kind : MatchKind
  deriving DecidableEq

/-- A span of a content. -/
structure Span where
  index : ℕ
  matchLength : ℕ
  deriving DecidableEq

/-- `Edit`. -/
structure Edit where
  oldText : List Char
  newText : List Char
  replaceAll : Bool
  deriving DecidableEq

/-- `MatchedEdit`. -/
structure MatchedEdit where
  editIndex : ℕ
  matchIndex : ℕ
  matchLength : ℕ
  newText : List Char
  deriving DecidableEq

/-- `AppliedEditsResult`. -/
structure AppliedEditsResult where
  baseContent : List Char
  newContent : List Char
  unchanged : Bool
  deriving DecidableEq

/-- Why edits cannot be applied: the edit, and what its error reports. -/
inductive EditError
  | emptyOldText (editIndex : ℕ)
  | notFound (editIndex : ℕ)
  | duplicate (editIndex : ℕ) (occurrences : ℤ)
  | overlap (previous current : ℕ)
  deriving DecidableEq

/-! ### Numbered listings -/

/-- What `COPIED_LINE_NUMBER` leaves of a line it matches. -/
def dropCopiedLineNumber (line : List Char) : Option (List Char) :=
  let rest := line.dropWhile isBlank
  let digits := rest.takeWhile Char.isDigit
  if 1 ≤ digits.length ∧ digits.length ≤ 6 then
    match (rest.drop digits.length).dropWhile isBlank with
    | '|' :: text | ':' :: text => some (if text.head?.any isBlank then text.tail else text)
    | _ => none
  else none

/-- `stripCopiedLineNumbers`. -/
def stripCopiedLineNumbers (oldText : List Char) : List Char :=
  let lines := oldText.splitOn '\n'
  let nonempty := lines.filter fun line => !line.all isJsSpace
  if nonempty.isEmpty then oldText
  else if (nonempty.filter fun line => (dropCopiedLineNumber line).isSome).length * 2 < nonempty.length then oldText
  else joinLines (lines.map fun line => (dropCopiedLineNumber line).getD line)

section

/-! `nfkc` is the normalisation of Unicode that `text.normalize("NFKC")` does. -/

variable (nfkc : List Char → List Char)

/-- `normalizeForFuzzyMatch`. -/
def normalizeForFuzzyMatch (text : List Char) : List Char :=
  (joinLines (((nfkc text).splitOn '\n').map trimEnd)).map fuzzyChar

/-- `lineMatchKey`. -/
def lineMatchKey (line : List Char) : List Char :=
  squeezeBlanks false ((normalizeForFuzzyMatch nfkc line).dropWhile isJsSpace)

/-- `needleLineKeys`. -/
def needleLineKeys (oldText : List Char) : List (List Char) :=
  let lines := (oldText.splitOn '\n').map (lineMatchKey nfkc)
  if 1 < lines.length ∧ lines.getLast? = some [] then lines.dropLast else lines

/-- `starts` of `lineStartOffsets`. -/
def lineStart (lines : List (List Char)) (i : ℕ) : ℕ := ((lines.take i).map fun line => line.length + 1).sum

/-- The span of whole lines from `first` to `last`, with the line end after them. -/
def linesSpan (lines : List (List Char)) (first last : ℕ) : Span :=
  let stop := lineStart lines last + (lines[last]?.getD []).length + (if last < lines.length - 1 then 1 else 0)
  ⟨lineStart lines first, stop - lineStart lines first⟩

/-- `collectLineSpans`. -/
def collectLineSpans (content oldText : List Char) : List Span :=
  let needle := needleLineKeys nfkc oldText
  if needle.all List.isEmpty then []
  else
    let lines := content.splitOn '\n'
    let keys := lines.map (lineMatchKey nfkc)
    ((List.range (keys.length + 1 - needle.length)).filter fun i => needle.isPrefixOf (keys.drop i)).map fun i =>
      linesSpan lines i (i + needle.length - 1)

/-- `findUniqueLineSpan`. -/
def findUniqueLineSpan (content oldText : List Char) : Option Span :=
  match collectLineSpans nfkc content oldText with
  | [span] => some span
  | _ => none

/-- The loop of `orderedLineOverlap`, over the lines between the first and the last one. -/
def lineOverlap : List (List Char) → List (List Char) → ℕ
  | [], _ => 0
  | key :: needle, keys =>
    match keys.dropWhile (· ≠ key) with
    | [] => 0
    | _ :: keys => 1 + lineOverlap needle keys

/-- `orderedLineOverlap`. -/
def orderedLineOverlap (needle keys : List (List Char)) (start stop : ℕ) : ℕ :=
  2 + lineOverlap needle.tail.dropLast ((keys.drop (start + 1)).take (stop - start - 1))

/-- A candidate for the end of an anchored block. -/
structure AnchorEnd where
  stop : ℕ
  score : ℕ
  distance : ℕ
  deriving DecidableEq

/-- The order of `candidates.sort`. -/
def AnchorEnd.NotWorse (left right : AnchorEnd) : Prop :=
  right.score < left.score ∨ (left.score = right.score ∧ left.distance ≤ right.distance)

instance : DecidableRel AnchorEnd.NotWorse := fun left right =>
  inferInstanceAs (Decidable (right.score < left.score ∨ (left.score = right.score ∧ left.distance ≤ right.distance)))

/-- `candidates` of `findAnchoredBlock`. -/
def anchorEnds (needle keys : List (List Char)) (start : ℕ) : List AnchorEnd :=
  let minSpan := max 4 (needle.length / 2)
  let maxSpan := needle.length * 2
  let lastAllowed := min (keys.length - 1) (start + maxSpan - 1)
  ((List.range (lastAllowed + 1)).filter fun stop =>
      start + minSpan - 1 ≤ stop ∧ keys[stop]? = some (needle.getLastD [])).map fun stop =>
    ⟨stop, orderedLineOverlap needle keys start stop, ((stop : ℤ) - start + 1 - needle.length).natAbs⟩

/-- `findAnchoredBlock`. -/
def findAnchoredBlock (content oldText : List Char) : Option Span :=
  let needle := (needleLineKeys nfkc oldText).filter fun line => !line.isEmpty
  if needle.length < 4 then none
  else
    let startKey := needle.headD []
    let endKey := needle.getLastD []
    if (utf16 startKey).length < 12 ∨ endKey.isEmpty then none
    else
      let lines := content.splitOn '\n'
      let keys := lines.map (lineMatchKey nfkc)
      match (List.range keys.length).filter fun i => keys[i]? = some startKey with
      | [start] =>
        match (anchorEnds needle keys start).insertionSort AnchorEnd.NotWorse with
        | [] => none
        | [best] => some (linesSpan lines start best.stop)
        | best :: rival :: _ =>
          if rival.score = best.score ∧ rival.distance = best.distance then none
          else some (linesSpan lines start best.stop)
      | _ => none

/-! ### Matching -/

/-- `fuzzyFindText`: `none` where `found` is false. -/
def fuzzyFindText (content oldText : List Char) : Option FuzzyMatchResult :=
  match indexOf oldText content with
  | some index => some ⟨index, oldText.length, false, content, .exact⟩
  | none =>
    let fuzzyContent := normalizeForFuzzyMatch nfkc content
    let fuzzyOldText := normalizeForFuzzyMatch nfkc oldText
    match indexOf fuzzyOldText fuzzyContent with
    | some index => some ⟨index, fuzzyOldText.length, true, fuzzyContent, .fuzzy⟩
    | none =>
      (findUniqueLineSpan nfkc content oldText).map fun span => ⟨span.index, span.matchLength, false, content, .lineSpan⟩

/-- The text is found, or a block it bounds. -/
def isFound (content oldText : List Char) : Bool :=
  (fuzzyFindText nfkc content oldText).isSome || (findAnchoredBlock nfkc content oldText).isSome

/-- `oldTextForMatch`. -/
def oldTextForMatch (content oldText : List Char) : List Char :=
  if isFound nfkc content oldText then oldText
  else
    let stripped := stripCopiedLineNumbers oldText
    if stripped ≠ oldText ∧ isFound nfkc content stripped then stripped else oldText

/-- `collectAllMatches`. -/
def collectAllMatches (content oldText : List Char) : MatchKind → List Span
  | .lineSpan => collectLineSpans nfkc content oldText
  | .anchor => (findAnchoredBlock nfkc content oldText).toList
  | .fuzzy =>
    let needle := normalizeForFuzzyMatch nfkc oldText
    if needle.isEmpty then [] else (occurrences needle (normalizeForFuzzyMatch nfkc content)).map (⟨·, needle.length⟩)
  | .exact => if oldText.isEmpty then [] else (occurrences oldText content).map (⟨·, oldText.length⟩)

/-- `countOccurrences`: one less than `split` returns. An empty separator cuts between any two code units. -/
def countOccurrences (content oldText : List Char) : ℤ :=
  let fuzzyContent := normalizeForFuzzyMatch nfkc content
  let fuzzyOldText := normalizeForFuzzyMatch nfkc oldText
  if fuzzyOldText.isEmpty then (utf16 fuzzyContent).length - 1 else (occurrences fuzzyOldText fuzzyContent).length

/-! ### Applying -/

/-- `matchResult`. -/
def matchResult (baseContent oldText : List Char) : Option FuzzyMatchResult :=
  match fuzzyFindText nfkc baseContent oldText with
  | some direct => some direct
  | none =>
    (findAnchoredBlock nfkc baseContent oldText).map fun anchored =>
      ⟨anchored.index, anchored.matchLength, false, baseContent, .anchor⟩

/-- The occurrences of an edit that was matched. -/
def matchOccurrences (baseContent oldText : List Char) : MatchKind → ℤ
  | .lineSpan => (collectLineSpans nfkc baseContent oldText).length
  | .anchor => 1
  | .exact | .fuzzy => countOccurrences nfkc baseContent oldText

/-- One round of the loop that matches the edits. -/
def matchEdit (baseContent : List Char) (i : ℕ) (edit : Edit) : Except EditError (List MatchedEdit) :=
  match matchResult nfkc baseContent edit.oldText with
  | none => .error (.notFound i)
  | some result =>
    let spans := if edit.replaceAll then collectAllMatches nfkc baseContent edit.oldText result.kind
      else [⟨result.index, result.matchLength⟩]
    let occurrences := matchOccurrences nfkc baseContent edit.oldText result.kind
    if !edit.replaceAll && 1 < occurrences then .error (.duplicate i occurrences)
    else .ok (spans.map fun span => ⟨i, span.index, span.matchLength, edit.newText⟩)

/-- The loop that matches the edits. -/
def matchEdits (baseContent : List Char) : ℕ → List Edit → Except EditError (List MatchedEdit)
  | _, [] => .ok []
  | i, edit :: edits => do
    let matched ← matchEdit nfkc baseContent i edit
    let rest ← matchEdits baseContent (i + 1) edits
    return matched ++ rest

/-- `matchedEdits.sort`, which is stable. -/
def sortMatched (matched : List MatchedEdit) : List MatchedEdit :=
  matched.insertionSort fun a b => a.matchIndex ≤ b.matchIndex

/-- The check for two edits that overlap, one the next of the other. -/
def findOverlap : List MatchedEdit → Option (MatchedEdit × MatchedEdit)
  | previous :: current :: matched =>
    if current.matchIndex < previous.matchIndex + previous.matchLength then some (previous, current)
    else findOverlap (current :: matched)
  | _ => none

/-- What an edit does to the content. -/
def MatchedEdit.splice (edit : MatchedEdit) : Splice Char := ⟨edit.matchIndex, edit.matchLength, edit.newText⟩

/-- `normalizedEdits`. -/
def normalizeEdit (normalizedContent : List Char) (edit : Edit) : Edit :=
  ⟨oldTextForMatch nfkc normalizedContent (normalizeToLF edit.oldText), normalizeToLF edit.newText, edit.replaceAll⟩

/-- `baseContent`. -/
def baseContentFor (normalizedContent : List Char) (normalizedEdits : List Edit) : List Char :=
  if normalizedEdits.any fun edit => (fuzzyFindText nfkc normalizedContent edit.oldText).any (·.usedFuzzyMatch) then
    normalizeForFuzzyMatch nfkc normalizedContent
  else normalizedContent

/-- `applyEditsToNormalizedContent`. -/
def applyEditsToNormalizedContent (normalizedContent : List Char) (edits : List Edit) :
    Except EditError AppliedEditsResult :=
  let normalizedEdits := edits.map (normalizeEdit nfkc normalizedContent)
  match normalizedEdits.findIdx? (·.oldText.isEmpty) with
  | some i => .error (.emptyOldText i)
  | none => do
    let baseContent := baseContentFor nfkc normalizedContent normalizedEdits
    let matched := sortMatched (← matchEdits nfkc baseContent 0 normalizedEdits)
    match findOverlap matched with
    | some (previous, current) => .error (.overlap previous.editIndex current.editIndex)
    | none =>
      let newContent := spliceFromBack baseContent (matched.map MatchedEdit.splice)
      return ⟨baseContent, newContent, baseContent = newContent⟩

/-! ### The tool -/

/-- What an `edit` call does to the file. -/
inductive EditOutcome
  | failed (error : EditError)
  | unchanged
  | dryRun
  | written (content : List Char)
  deriving DecidableEq

/-- `execute` of the edit tool, on the text of its file. -/
def executeEdit (isDryRun : Bool) (rawContent : List Char) (edits : List Edit) : EditOutcome :=
  let stripped := stripBom rawContent
  let originalEnding := detectLineEnding stripped.text
  match applyEditsToNormalizedContent nfkc (normalizeToLF stripped.text) edits with
  | .error error => .failed error
  | .ok result =>
    if result.unchanged then .unchanged
    else if isDryRun then .dryRun
    else .written (stripped.bom ++ restoreLineEndings result.newContent originalEnding)

/-- The text of the file afterwards. -/
def EditOutcome.fileAfter (rawContent : List Char) : EditOutcome → List Char
  | .written content => content
  | .failed _ | .unchanged | .dryRun => rawContent

/-! ### Calls that succeed -/

/-- The edits that are matched come one after the other where none is found to overlap the next. -/
theorem findOverlap_eq_none : ∀ {matched : List MatchedEdit},
    findOverlap matched = none ↔ (matched.map MatchedEdit.splice).Pairwise Splice.Before
  | [] => by simp [findOverlap]
  | [edit] => by simp [findOverlap]
  | previous :: current :: matched => by
    rw [findOverlap, List.map_cons, List.pairwise_cons]
    split
    · rename_i hlt
      refine ⟨fun h => (by cases h), fun h => ?_⟩
      have hbefore : previous.matchIndex + previous.matchLength ≤ current.matchIndex :=
        h.1 current.splice (List.mem_map_of_mem List.mem_cons_self)
      omega
    · rename_i hle
      rw [findOverlap_eq_none]
      refine ⟨fun h => ⟨fun s hs => ?_, h⟩, And.right⟩
      have hnext : previous.splice.Before current.splice := Nat.le_of_not_lt hle
      rcases List.mem_cons.mp hs with rfl | hs
      · exact hnext
      · exact hnext.trans ((List.pairwise_cons.mp h).1 s hs)

/-- How a text is found: as it is, or else in the normalised copy, or else by the keys of its lines or by the block it
bounds. -/
theorem matchResult_cases {base oldText : List Char} {result : FuzzyMatchResult}
    (h : matchResult nfkc base oldText = some result) :
    (∃ p, indexOf oldText base = some p ∧ result = ⟨p, oldText.length, false, base, .exact⟩) ∨
    indexOf oldText base = none ∧
      ((∃ p, indexOf (normalizeForFuzzyMatch nfkc oldText) (normalizeForFuzzyMatch nfkc base) = some p ∧
          fuzzyFindText nfkc base oldText = some result ∧
          result = ⟨p, (normalizeForFuzzyMatch nfkc oldText).length, true, normalizeForFuzzyMatch nfkc base, .fuzzy⟩) ∨
        indexOf (normalizeForFuzzyMatch nfkc oldText) (normalizeForFuzzyMatch nfkc base) = none ∧
          ((∃ span, findUniqueLineSpan nfkc base oldText = some span ∧
              result = ⟨span.index, span.matchLength, false, base, .lineSpan⟩) ∨
            ∃ span, findAnchoredBlock nfkc base oldText = some span ∧
              result = ⟨span.index, span.matchLength, false, base, .anchor⟩)) := by
  unfold matchResult at h
  cases hexact : indexOf oldText base with
  | some p =>
    have hfind : fuzzyFindText nfkc base oldText = some ⟨p, oldText.length, false, base, .exact⟩ := by
      unfold fuzzyFindText
      rw [hexact]
    rw [hfind] at h
    exact Or.inl ⟨p, rfl, (Option.some.inj h).symm⟩
  | none =>
    refine Or.inr ⟨rfl, ?_⟩
    cases hfuzzy : indexOf (normalizeForFuzzyMatch nfkc oldText) (normalizeForFuzzyMatch nfkc base) with
    | some p =>
      have hfind : fuzzyFindText nfkc base oldText = some
          ⟨p, (normalizeForFuzzyMatch nfkc oldText).length, true, normalizeForFuzzyMatch nfkc base, .fuzzy⟩ := by
        unfold fuzzyFindText
        simp only [hexact, hfuzzy]
      rw [hfind] at h
      obtain rfl := Option.some.inj h
      exact Or.inl ⟨p, rfl, hfind, rfl⟩
    | none =>
      refine Or.inr ⟨rfl, ?_⟩
      have hfind : fuzzyFindText nfkc base oldText =
          (findUniqueLineSpan nfkc base oldText).map fun span => ⟨span.index, span.matchLength, false, base, .lineSpan⟩ := by
        unfold fuzzyFindText
        simp only [hexact, hfuzzy]
      rw [hfind] at h
      cases hspan : findUniqueLineSpan nfkc base oldText with
      | some span =>
        rw [hspan] at h
        exact Or.inl ⟨span, rfl, (Option.some.inj h).symm⟩
      | none =>
        rw [hspan] at h
        obtain ⟨span, hblock, rfl⟩ := Option.map_eq_some_iff.mp h
        exact Or.inr ⟨span, hblock, rfl⟩

/-- Every edit has been matched, and what is matched comes of an edit. -/
theorem matchEdits_ok {base : List Char} : ∀ {edits : List Edit} {i : ℕ} {matched : List MatchedEdit},
    matchEdits nfkc base i edits = .ok matched →
      (∀ edit ∈ edits, ∃ k spans, matchEdit nfkc base k edit = .ok spans ∧ spans ⊆ matched) ∧
      ∀ m ∈ matched, ∃ edit ∈ edits, ∃ k spans, matchEdit nfkc base k edit = .ok spans ∧ m ∈ spans
  | [], i, matched, h => by
    obtain rfl := Except.ok.inj h
    exact ⟨fun edit hedit => (by cases hedit), fun m hm => (by cases hm)⟩
  | edit :: edits, i, matched, h => by
    unfold matchEdits at h
    cases hfirst : matchEdit nfkc base i edit with
    | error e =>
      rw [hfirst] at h
      cases h
    | ok spans =>
      cases hrest : matchEdits nfkc base (i + 1) edits with
      | error e =>
        rw [hfirst, hrest] at h
        cases h
      | ok rest =>
        rw [hfirst, hrest] at h
        obtain rfl := Except.ok.inj h
        obtain ⟨hall, hmem⟩ := matchEdits_ok hrest
        have hall : ∀ e ∈ edits, ∃ k spans', matchEdit nfkc base k e = .ok spans' ∧ spans' ⊆ spans ++ rest := by
          intro e he
          obtain ⟨k, spans', hmatch, hsub⟩ := hall e he
          exact ⟨k, spans', hmatch, List.Subset.trans hsub (List.subset_append_right _ _)⟩
        refine ⟨List.forall_mem_cons.mpr ⟨⟨i, spans, hfirst, List.subset_append_left _ _⟩, hall⟩, fun m hm => ?_⟩
        rcases List.mem_append.mp hm with hm | hm
        · exact ⟨edit, List.mem_cons_self, i, spans, hfirst, hm⟩
        · obtain ⟨e, he, k, spans', hmatch, hm⟩ := hmem m hm
          exact ⟨e, List.mem_cons_of_mem _ he, k, spans', hmatch, hm⟩

/-- The edits as they are matched, and the content they are matched against. -/
def normalizeEdits (content : List Char) (edits : List Edit) : List Edit := edits.map (normalizeEdit nfkc content)

def editBase (content : List Char) (edits : List Edit) : List Char :=
  baseContentFor nfkc content (normalizeEdits nfkc content edits)

/-- A call that succeeds has matched every edit, with a text that is not empty and without an overlap. -/
theorem applyEdits_ok {content : List Char} {edits : List Edit} {result : AppliedEditsResult}
    (h : applyEditsToNormalizedContent nfkc content edits = .ok result) :
    (∀ edit ∈ normalizeEdits nfkc content edits, edit.oldText ≠ []) ∧ ∃ matched,
      matchEdits nfkc (editBase nfkc content edits) 0 (normalizeEdits nfkc content edits) = .ok matched ∧
      ((sortMatched matched).map MatchedEdit.splice).Pairwise Splice.Before ∧
      result.baseContent = editBase nfkc content edits ∧
      result.newContent = spliceFromBack (editBase nfkc content edits) ((sortMatched matched).map MatchedEdit.splice) ∧
      result.unchanged = decide (result.baseContent = result.newContent) := by
  unfold applyEditsToNormalizedContent at h
  change (match (normalizeEdits nfkc content edits).findIdx? (·.oldText.isEmpty) with
    | some i => _
    | none => _) = _ at h
  split at h
  · cases h
  · rename_i hnone
    have hnonempty : ∀ edit ∈ normalizeEdits nfkc content edits, edit.oldText ≠ [] := by
      intro edit hedit hempty
      have := List.findIdx?_eq_none_iff.mp hnone edit hedit
      rw [hempty] at this
      cases this
    refine ⟨hnonempty, ?_⟩
    change (matchEdits nfkc (editBase nfkc content edits) 0 (normalizeEdits nfkc content edits) >>= fun matched => _) = _ at h
    cases hmatched : matchEdits nfkc (editBase nfkc content edits) 0 (normalizeEdits nfkc content edits) with
    | error e =>
      rw [hmatched] at h
      cases h
    | ok matched =>
      rw [hmatched] at h
      refine ⟨matched, rfl, ?_⟩
      change (match findOverlap (sortMatched matched) with
        | some (previous, current) => _
        | none => _) = _ at h
      split at h
      · cases h
      · rename_i hoverlap
        obtain rfl := Except.ok.inj h
        exact ⟨findOverlap_eq_none.mp hoverlap, rfl, rfl, rfl⟩

end

end Trek.Tools
