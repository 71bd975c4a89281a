/-
# What an edit leaves alone

An edit call writes its file back as a whole: without its line ends first, and with one kind of them in the end. What
lies outside of the spans that are edited stands in the written file between what comes of the text before it and of
the text after it (`executeEdit_frame`). Its line ends are those of the first line of the file; and where an edit is
matched in the normalised copy of the content only, it is the copy that is written.
-/
import Mathlib.Data.List.DropRight
import Trek.Tools.EditDiff

namespace Trek.Tools

/-! ### Line endings -/

/-- A text is not cut within a `\r\n`. -/
def CleanCut (front rest : List Char) : Prop := front.getLast? = some '\r' → rest.head? ≠ some '\n'

theorem normalizeToLF_cr {text : List Char} (h : text.head? ≠ some '\n') :
    normalizeToLF ('\r' :: text) = '\n' :: normalizeToLF text := by
  rw [normalizeToLF]
  rintro t rfl
  exact h rfl

theorem normalizeToLF_cons {c : Char} (text : List Char) (h : c ≠ '\r') : normalizeToLF (c :: text) = c :: normalizeToLF text := by
  rw [normalizeToLF]
  · exact fun _ hc _ => h hc
  · exact h

theorem normalizeToLF_append : ∀ {front rest : List Char}, CleanCut front rest →
    normalizeToLF (front ++ rest) = normalizeToLF front ++ normalizeToLF rest := by
  intro front
  induction front using normalizeToLF.induct with
  | case1 => exact fun _ => rfl
  | case2 text ih =>
    intro rest h
    have hrest : CleanCut text rest := by
      intro hlast
      apply h
      rw [List.getLast?_cons_cons, List.getLast?_cons, hlast]
      rfl
    show '\n' :: normalizeToLF (text ++ rest) = '\n' :: (normalizeToLF text ++ normalizeToLF rest)
    rw [ih hrest]
  | case3 text hno ih =>
    intro rest h
    have hhead : text.head? ≠ some '\n' := by
      intro hhead
      obtain ⟨t, rfl⟩ := List.head?_eq_some_iff.mp hhead
      exact hno t rfl
    have hboth : (text ++ rest).head? ≠ some '\n' := by
      cases text with
      | nil => exact h rfl
      | cons c text => exact hhead
    have hrest : CleanCut text rest := by
      intro hlast
      apply h
      rw [List.getLast?_cons, hlast]
      rfl
    rw [List.cons_append, normalizeToLF_cr hboth, normalizeToLF_cr hhead, ih hrest, List.cons_append]
  | case4 c text hno hne ih =>
    intro rest h
    have hrest : CleanCut text rest := by
      intro hlast
      apply h
      rw [List.getLast?_cons, hlast]
      rfl
    rw [List.cons_append, normalizeToLF_cons _ hne, normalizeToLF_cons _ hne, ih hrest, List.cons_append]

/-- Every line end of a text is of one kind. -/
def HasEnding (text : List Char) (ending : LineEnding) : Prop :=
  ∃ lines, '\r' ∉ lines ∧ text = restoreLineEndings lines ending

/-- Such a text comes back as it was. -/
theorem HasEnding.restore {text : List Char} {ending : LineEnding} (h : HasEnding text ending) :
    restoreLineEndings (normalizeToLF text) ending = text := by
  obtain ⟨lines, hcr, rfl⟩ := h
  have hlf : normalizeToLF (restoreLineEndings lines ending) = lines := by
    induction lines with
    | nil => cases ending <;> rfl
    | cons c lines ih =>
      rw [List.mem_cons, not_or] at hcr
      cases ending with
      | lf => exact (normalizeToLF_cons lines (Ne.symm hcr.1)).trans (congrArg _ (ih hcr.2))
      | crlf =>
        by_cases hc : c = '\n'
        · subst hc
          exact congrArg _ (ih hcr.2)
        · have hcons : restoreLineEndings (c :: lines) .crlf = c :: restoreLineEndings lines .crlf := by
            simp [restoreLineEndings, hc]
          rw [hcons, normalizeToLF_cons _ (Ne.symm hcr.1), ih hcr.2]
  rw [hlf]

theorem restoreLineEndings_append (front rest : List Char) (ending : LineEnding) :
    restoreLineEndings (front ++ rest) ending = restoreLineEndings front ending ++ restoreLineEndings rest ending := by
  cases ending with
  | lf => rfl
  | crlf => exact List.flatMap_append

/-! ### The normalised copy is its own copy -/

/-- What stands in the place of a character. -/
theorem fuzzyChar_cases (c : Char) : fuzzyChar c = c ∨ c ≠ '\n' ∧
    (isJsSpace c = false ∧ fuzzyChar c ∈ ['\'', '"', '-'] ∨ isJsSpace c = true ∧ fuzzyChar c = ' ') := by
  have hne : ∀ {n : ℕ}, c.toNat = n → n ≠ 10 → c ≠ '\n' := by
    rintro n h hn rfl
    exact hn h.symm
  unfold fuzzyChar isJsSpace
  simp only [List.mem_cons, List.not_mem_nil, or_false]
  split
  · exact Or.inr ⟨hne rfl (by omega), Or.inl ⟨by simp; omega, by simp⟩⟩
  · split
    · exact Or.inr ⟨hne rfl (by omega), Or.inl ⟨by simp; omega, by simp⟩⟩
    · split
      · exact Or.inr ⟨hne rfl (by omega), Or.inl ⟨by simp; omega, by simp⟩⟩
      · split
        · exact Or.inr ⟨hne rfl (by omega), Or.inr ⟨by simp; omega, rfl⟩⟩
        · exact Or.inl rfl

theorem fuzzyChar_fuzzyChar (c : Char) : fuzzyChar (fuzzyChar c) = fuzzyChar c := by
  rcases fuzzyChar_cases c with h | ⟨-, ⟨-, h⟩ | ⟨-, h⟩⟩
  · rw [h, h]
  · simp only [List.mem_cons, List.not_mem_nil, or_false] at h
    rcases h with h | h | h <;> rw [h] <;> decide
  · rw [h]
    decide

theorem isJsSpace_fuzzyChar (c : Char) : isJsSpace (fuzzyChar c) = isJsSpace c := by
  rcases fuzzyChar_cases c with h | ⟨-, ⟨hc, h⟩ | ⟨hc, h⟩⟩
  · rw [h]
  · simp only [List.mem_cons, List.not_mem_nil, or_false] at h
    rcases h with h | h | h <;> rw [h, hc] <;> decide
  · rw [h, hc]
    decide

theorem newline_notMem_map_fuzzyChar {line : List Char} (h : '\n' ∉ line) : '\n' ∉ line.map fuzzyChar := by
  intro hmem
  obtain ⟨c, hc, heq⟩ := List.mem_map.mp hmem
  rcases fuzzyChar_cases c with hsame | ⟨-, ⟨-, hin⟩ | ⟨-, hspace⟩⟩
  · exact h ((hsame.symm.trans heq) ▸ hc)
  · rw [heq] at hin
    exact absurd hin (by decide)
  · rw [heq] at hspace
    exact absurd hspace (by decide)

theorem newline_notMem_trimEnd {line : List Char} (h : '\n' ∉ line) : '\n' ∉ trimEnd line := by
  intro hmem
  apply h
  exact List.mem_reverse.mp ((List.dropWhile_sublist _).subset (List.mem_reverse.mp hmem))

theorem newline_notMem_of_mem_splitOn (text : List Char) : ∀ line ∈ text.splitOn '\n', '\n' ∉ line := by
  induction text using lines_induction with
  | single line hline =>
    rw [List.splitOn_eq_singleton hline]
    exact List.forall_mem_singleton.mpr hline
  | cons line rest hline ih =>
    rw [List.splitOn_append_cons_self_of_not_mem hline]
    exact List.forall_mem_cons.mpr ⟨hline, ih⟩

theorem trimEnd_map_fuzzyChar (line : List Char) : trimEnd ((trimEnd line).map fuzzyChar) = (trimEnd line).map fuzzyChar := by
  have hspace : isJsSpace ∘ fuzzyChar = isJsSpace := funext isJsSpace_fuzzyChar
  unfold trimEnd
  rw [← List.map_reverse, List.reverse_reverse, List.dropWhile_map, hspace, List.dropWhile_idempotent, List.map_reverse]

theorem map_joinLines {f : Char → Char} (h : f '\n' = '\n') (lines : List (List Char)) :
    (joinLines lines).map f = joinLines (lines.map (List.map f)) := by
  induction lines with
  | nil => rfl
  | cons line lines ih =>
    cases lines with
    | nil => simp [joinLines]
    | cons next lines =>
      rw [joinLines_cons (List.cons_ne_nil _ _), List.map_append, List.map_cons, h, ih]
      exact (joinLines_cons (List.cons_ne_nil _ _)).symm

variable {nfkc : List Char → List Char}

/-- A copy that Unicode normalisation leaves as it is is its own copy. -/
theorem normalizeForFuzzyMatch_idem {text : List Char}
    (h : nfkc (normalizeForFuzzyMatch nfkc text) = normalizeForFuzzyMatch nfkc text) :
    normalizeForFuzzyMatch nfkc (normalizeForFuzzyMatch nfkc text) = normalizeForFuzzyMatch nfkc text := by
  have hcopy : normalizeForFuzzyMatch nfkc text =
      joinLines (((nfkc text).splitOn '\n').map fun line => (trimEnd line).map fuzzyChar) := by
    rw [normalizeForFuzzyMatch, map_joinLines (by decide), List.map_map]
    rfl
  have hlines : (normalizeForFuzzyMatch nfkc text).splitOn '\n' =
      ((nfkc text).splitOn '\n').map fun line => (trimEnd line).map fuzzyChar := by
    rw [hcopy, joinLines, List.splitOn_intercalate]
    · intro line hline
      obtain ⟨l, hl, rfl⟩ := List.mem_map.mp hline
      exact newline_notMem_map_fuzzyChar (newline_notMem_trimEnd (newline_notMem_of_mem_splitOn _ l hl))
    · simp
  calc normalizeForFuzzyMatch nfkc (normalizeForFuzzyMatch nfkc text)
      = joinLines (((nfkc text).splitOn '\n').map fun line => (trimEnd ((trimEnd line).map fuzzyChar)).map fuzzyChar) := by
        rw [normalizeForFuzzyMatch, h, hlines, map_joinLines (by decide), List.map_map, List.map_map]
        rfl
    _ = joinLines (((nfkc text).splitOn '\n').map fun line => (trimEnd line).map fuzzyChar) := by
        congr 1
        apply List.map_congr_left
        intro line _
        rw [trimEnd_map_fuzzyChar, List.map_map]
        exact List.map_congr_left fun c _ => fuzzyChar_fuzzyChar c
    _ = normalizeForFuzzyMatch nfkc text := hcopy.symm

/-! ### The spans lie in the content -/

theorem add_le_of_indexOf {pattern text : List Char} {p : ℕ} (h : indexOf pattern text = some p) :
    p + pattern.length ≤ text.length := by
  obtain ⟨⟨before, after⟩, hcut, rfl⟩ := Option.map_eq_some_iff.mp h
  rw [eq_of_cutAt hcut, List.length_append, List.length_append]
  dsimp only
  omega

theorem length_joinLines {lines : List (List Char)} (h : lines ≠ []) :
    (joinLines lines).length + 1 = (lines.map fun line => line.length + 1).sum := by
  induction lines with
  | nil => exact absurd rfl h
  | cons line lines ih =>
    cases lines with
    | nil => simp [joinLines]
    | cons next lines =>
      have hrest := ih (List.cons_ne_nil _ _)
      rw [joinLines_cons (List.cons_ne_nil _ _), List.length_append, List.length_cons, List.map_cons, List.sum_cons, ← hrest]
      omega

/-- Whole lines of a content lie in it. -/
theorem linesSpan_le {content : List Char} {first last : ℕ} (hfirst : first < (content.splitOn '\n').length)
    (hlast : last < (content.splitOn '\n').length) :
    (linesSpan (content.splitOn '\n') first last).index + (linesSpan (content.splitOn '\n') first last).matchLength ≤
      content.length := by
  have htotal : content.length + 1 = ((content.splitOn '\n').map fun line => line.length + 1).sum := by
    rw [← length_joinLines (List.splitOn_ne_nil _ _), joinLines, List.intercalate_splitOn]
  generalize content.splitOn '\n' = lines at *
  -- the lines up to one of them, this one, and those after it
  have hcut : ∀ i (hi : i < lines.length), content.length + 1 =
      lineStart lines i + (lines[i].length + 1) + ((lines.drop (i + 1)).map fun line => line.length + 1).sum := by
    intro i hi
    calc content.length + 1 = ((lines.take i ++ lines.drop i).map fun line => line.length + 1).sum := by
          rw [List.take_append_drop, htotal]
      _ = lineStart lines i + ((lines.drop i).map fun line => line.length + 1).sum := by
          rw [List.map_append, List.sum_append, lineStart]
      _ = lineStart lines i + (lines[i].length + 1) + ((lines.drop (i + 1)).map fun line => line.length + 1).sum := by
          rw [List.drop_eq_getElem_cons hi, List.map_cons, List.sum_cons, Nat.add_assoc, Nat.add_assoc, Nat.add_assoc]
  have hstart := hcut first hfirst
  have hstop := hcut last hlast
  -- a line end stands after a line that another one follows
  have hnext : last < lines.length - 1 → 0 < ((lines.drop (last + 1)).map fun line => line.length + 1).sum := by
    intro hlt
    rw [List.drop_eq_getElem_cons (by omega), List.map_cons, List.sum_cons]
    omega
  simp only [linesSpan, List.getElem?_eq_getElem hlast, Option.getD_some]
  split
  · have := hnext ‹_›
    omega
  · omega

theorem collectLineSpans_le {content oldText : List Char} : ∀ span ∈ collectLineSpans nfkc content oldText,
    span.index + span.matchLength ≤ content.length := by
  intro span hspan
  unfold collectLineSpans at hspan
  dsimp only at hspan
  split at hspan
  · cases hspan
  · rename_i hneedle
    obtain ⟨i, hi, rfl⟩ := List.mem_map.mp hspan
    have hrange := List.mem_range.mp (List.mem_filter.mp hi).1
    have hpos : 0 < (needleLineKeys nfkc oldText).length := by
      apply List.length_pos_iff.mpr
      intro hnil
      exact hneedle (by rw [hnil]; rfl)
    rw [List.length_map] at hrange
    exact linesSpan_le (by omega) (by omega)

theorem findUniqueLineSpan_le {content oldText : List Char} {span : Span} (h : findUniqueLineSpan nfkc content oldText = some span) :
    span.index + span.matchLength ≤ content.length := by
  unfold findUniqueLineSpan at h
  split at h
  · rename_i span' heq
    obtain rfl := Option.some.inj h
    exact collectLineSpans_le span' (heq ▸ List.mem_singleton_self _)
  · cases h

theorem findAnchoredBlock_le {content oldText : List Char} {span : Span} (h : findAnchoredBlock nfkc content oldText = some span) :
    span.index + span.matchLength ≤ content.length := by
  unfold findAnchoredBlock at h
  dsimp only at h
  split at h
  · cases h
  · split at h
    · cases h
    · split at h
      · rename_i start hstart
        have hmem : start ∈ (List.range ((content.splitOn '\n').map (lineMatchKey nfkc)).length) := by
          have : start ∈ [start] := List.mem_singleton_self _
          rw [← hstart] at this
          exact (List.mem_filter.mp this).1
        rw [List.length_map, List.mem_range] at hmem
        -- the last line of the block is one of the content
        have hends : ∀ {best : AnchorEnd} {rest : List AnchorEnd} {needle},
            (anchorEnds needle ((content.splitOn '\n').map (lineMatchKey nfkc)) start).insertionSort AnchorEnd.NotWorse = best :: rest →
              best.stop < (content.splitOn '\n').length := by
          intro best rest needle heq
          have hbest : best ∈ anchorEnds needle ((content.splitOn '\n').map (lineMatchKey nfkc)) start :=
            (List.mem_insertionSort _).mp (heq ▸ List.mem_cons_self)
          obtain ⟨stop, hstop, rfl⟩ := List.mem_map.mp hbest
          have hrange := List.mem_range.mp (List.mem_filter.mp hstop).1
          rw [List.length_map] at hrange
          dsimp only
          omega
        split at h
        · cases h
        · rename_i best heq
          obtain rfl := Option.some.inj h
          exact linesSpan_le hmem (hends heq)
        · rename_i best rival rest heq
          split at h
          · cases h
          · obtain rfl := Option.some.inj h
            exact linesSpan_le hmem (hends heq)
      · cases h

/-- Where the normalised copy is looked into, the content is that copy. -/
def LooksInCopy (nfkc : List Char → List Char) (base oldText : List Char) : Prop :=
  (fuzzyFindText nfkc base oldText).any (·.usedFuzzyMatch) = true → normalizeForFuzzyMatch nfkc base = base

theorem matchResult_le {base oldText : List Char} {result : FuzzyMatchResult} (hcopy : LooksInCopy nfkc base oldText)
    (h : matchResult nfkc base oldText = some result) :
    result.index + result.matchLength ≤ base.length ∧
      (result.kind = .fuzzy → normalizeForFuzzyMatch nfkc base = base) := by
  rcases matchResult_cases nfkc h with
    ⟨p, hp, rfl⟩ | ⟨-, ⟨p, hp, hfind, rfl⟩ | ⟨-, ⟨span, hspan, rfl⟩ | ⟨span, hspan, rfl⟩⟩⟩
  · exact ⟨add_le_of_indexOf hp, fun hkind => (by cases hkind)⟩
  · have hbase : normalizeForFuzzyMatch nfkc base = base := by
      apply hcopy
      rw [hfind]
      rfl
    rw [hbase] at hp
    exact ⟨add_le_of_indexOf hp, fun _ => hbase⟩
  · exact ⟨findUniqueLineSpan_le hspan, fun hkind => (by cases hkind)⟩
  · exact ⟨findAnchoredBlock_le hspan, fun hkind => (by cases hkind)⟩

theorem add_le_of_mem_occurrences {pattern text : List Char} (h : pattern.isEmpty = false) :
    ∀ p ∈ occurrences pattern text, p + pattern.length ≤ text.length := by
  intro p hp
  have hat := (occursAt_of_mem hp).2
  rw [Nat.sub_zero] at hat
  exact hat.add_le (List.isEmpty_eq_false_iff.mp h)

theorem collectAllMatches_le {base oldText : List Char} {kind : MatchKind}
    (hfuzzy : kind = .fuzzy → normalizeForFuzzyMatch nfkc base = base) :
    ∀ span ∈ collectAllMatches nfkc base oldText kind, span.index + span.matchLength ≤ base.length := by
  intro span hspan
  unfold collectAllMatches at hspan
  cases kind with
  | lineSpan => exact collectLineSpans_le span hspan
  | anchor => exact findAnchoredBlock_le (Option.mem_toList.mp hspan)
  | exact =>
    dsimp only at hspan
    split at hspan
    · cases hspan
    · rename_i hne
      obtain ⟨p, hp, rfl⟩ := List.mem_map.mp hspan
      exact add_le_of_mem_occurrences (Bool.not_eq_true _ ▸ hne) p hp
  | fuzzy =>
    dsimp only at hspan
    split at hspan
    · cases hspan
    · rename_i hne
      obtain ⟨p, hp, rfl⟩ := List.mem_map.mp hspan
      rw [hfuzzy rfl] at hp
      exact add_le_of_mem_occurrences (Bool.not_eq_true _ ▸ hne) p hp

/-- The spans of an edit lie in the content they are matched against. -/
theorem matchEdit_le {base : List Char} {k : ℕ} {edit : Edit} {spans : List MatchedEdit}
    (hcopy : LooksInCopy nfkc base edit.oldText) (h : matchEdit nfkc base k edit = .ok spans) :
    ∀ m ∈ spans, m.splice.stop ≤ base.length := by
  unfold matchEdit at h
  split at h
  · cases h
  · rename_i result hresult
    obtain ⟨hle, hfuzzy⟩ := matchResult_le hcopy hresult
    dsimp only at h
    split at h
    · cases h
    · obtain rfl := Except.ok.inj h
      intro m hm
      obtain ⟨span, hspan, rfl⟩ := List.mem_map.mp hm
      show span.index + span.matchLength ≤ base.length
      split at hspan
      · exact collectAllMatches_le hfuzzy span hspan
      · obtain rfl := List.mem_singleton.mp hspan
        exact hle

/-! ### What is written -/

/-- The content the edits of a call are matched against, at first. -/
def editContent (rawContent : List Char) : List Char := normalizeToLF (stripBom rawContent).text

/-- The line ends a call writes. -/
def editEnding (rawContent : List Char) : LineEnding := detectLineEnding (stripBom rawContent).text

/-- The spans a call replaces, in the order of their places. -/
def editedSpans (nfkc : List Char → List Char) (content : List Char) (edits : List Edit) : List (Splice Char) :=
  match matchEdits nfkc (editBase nfkc content edits) 0 (normalizeEdits nfkc content edits) with
  | .ok matched => (sortMatched matched).map MatchedEdit.splice
  | .error _ => []

theorem stripBom_append (content : List Char) : (stripBom content).bom ++ (stripBom content).text = content := by
  unfold stripBom
  split <;> rfl

/-- Either the content is the one of the call and no edit looks into the copy, or it is the copy. -/
theorem looksInCopy_editBase (hnfkc : ∀ text, nfkc (normalizeForFuzzyMatch nfkc text) = normalizeForFuzzyMatch nfkc text)
    (content : List Char) (edits : List Edit) : ∀ edit ∈ normalizeEdits nfkc content edits,
      LooksInCopy nfkc (editBase nfkc content edits) edit.oldText := by
  intro edit hedit hused
  unfold editBase baseContentFor at hused ⊢
  split
  · exact normalizeForFuzzyMatch_idem (hnfkc content)
  · rename_i hno
    rw [if_neg hno] at hused
    exact absurd (List.any_eq_true.mpr ⟨edit, hedit, hused⟩) hno

/-- A call that succeeds replaces its spans at once. They come one after the other and lie in the content. -/
theorem applyEdits_spans (hnfkc : ∀ text, nfkc (normalizeForFuzzyMatch nfkc text) = normalizeForFuzzyMatch nfkc text)
    {content : List Char} {edits : List Edit} {result : AppliedEditsResult}
    (h : applyEditsToNormalizedContent nfkc content edits = .ok result) :
    (editedSpans nfkc content edits).Pairwise Splice.Before ∧
      result.newContent = spliceAll 0 (editBase nfkc content edits) (editedSpans nfkc content edits) := by
  obtain ⟨-, matched, hmatched, hpair, -, hnew, -⟩ := applyEdits_ok nfkc h
  have hspans : editedSpans nfkc content edits = (sortMatched matched).map MatchedEdit.splice := by
    rw [editedSpans, hmatched]
  have hin : ∀ s ∈ (sortMatched matched).map MatchedEdit.splice, s.stop ≤ (editBase nfkc content edits).length := by
    intro s hs
    obtain ⟨m, hm, rfl⟩ := List.mem_map.mp hs
    obtain ⟨edit, hedit, k, spans, hmatch, hm⟩ := (matchEdits_ok nfkc hmatched).2 m ((List.mem_insertionSort _).mp hm)
    exact matchEdit_le (looksInCopy_editBase hnfkc content edits edit hedit) hmatch m hm
  rw [hspans]
  refine ⟨hpair, hnew.trans ?_⟩
  have hfront := spliceFromBack_eq _ [] (editBase nfkc content edits) hpair fun s hs => ⟨Nat.zero_le _, hin s hs⟩
  rwa [List.nil_append, List.length_nil, List.nil_append] at hfront

/-- In the written text stands `kept`, in the place of the part between `front` and `rest`: after what comes of the
text before the part, and before what comes of the text after it. -/
def KeptBetween (spans : List (Splice Char)) (ending : LineEnding) (front part rest kept written : List Char) : Prop :=
  ∃ before after, spans = before ++ after ∧ (∀ s ∈ before, s.stop ≤ front.length) ∧
    (∀ s ∈ after, (front ++ part).length ≤ s.start) ∧
    written = restoreLineEndings (spliceAll 0 front before) ending ++
      (kept ++ restoreLineEndings (spliceAll (front ++ part).length rest after) ending)

theorem keptBetween_of_outside {spans : List (Splice Char)} {front part rest : List Char}
    (hpair : spans.Pairwise Splice.Before) (hout : ∀ s ∈ spans, s.Outside front.length (front ++ part).length)
    (ending : LineEnding) : KeptBetween spans ending front part rest (restoreLineEndings part ending)
      (restoreLineEndings (spliceAll 0 (front ++ (part ++ rest)) spans) ending) := by
  obtain ⟨before, after, hspans, hbefore, hafter, hall⟩ :=
    @spliceAll_frame _ spans front part rest hpair hout
  exact ⟨before, after, hspans, hbefore, hafter, by rw [hall, restoreLineEndings_append, restoreLineEndings_append]⟩

/-- **What lies outside of the spans stays.** A call that writes keeps the byte order mark. If its edits are matched
against the content of the file, every part of the file that has no place in a span is written with its line ends as
those of the first line, and as it was if it has no others. Else the same holds of the parts of the normalised copy. -/
theorem executeEdit_frame (hnfkc : ∀ text, nfkc (normalizeForFuzzyMatch nfkc text) = normalizeForFuzzyMatch nfkc text)
    {isDryRun : Bool} {rawContent written : List Char} {edits : List Edit}
    (h : executeEdit nfkc isDryRun rawContent edits = .written written) :
    rawContent = (stripBom rawContent).bom ++ (stripBom rawContent).text ∧
    ∃ out, written = (stripBom rawContent).bom ++ out ∧
      (editBase nfkc (editContent rawContent) edits = editContent rawContent →
        ∀ front part rest, (stripBom rawContent).text = front ++ (part ++ rest) → CleanCut front (part ++ rest) →
          CleanCut part rest → (∀ s ∈ editedSpans nfkc (editContent rawContent) edits,
            s.Outside (normalizeToLF front).length (normalizeToLF front ++ normalizeToLF part).length) →
          KeptBetween (editedSpans nfkc (editContent rawContent) edits) (editEnding rawContent) (normalizeToLF front)
              (normalizeToLF part) (normalizeToLF rest) (restoreLineEndings (normalizeToLF part) (editEnding rawContent)) out ∧
            (HasEnding part (editEnding rawContent) →
              restoreLineEndings (normalizeToLF part) (editEnding rawContent) = part)) ∧
      ∀ front part rest, editBase nfkc (editContent rawContent) edits = front ++ (part ++ rest) →
        (∀ s ∈ editedSpans nfkc (editContent rawContent) edits, s.Outside front.length (front ++ part).length) →
        KeptBetween (editedSpans nfkc (editContent rawContent) edits) (editEnding rawContent) front part rest
          (restoreLineEndings part (editEnding rawContent)) out := by
  unfold executeEdit at h
  dsimp only at h
  split at h
  · cases h
  · rename_i result hresult
    obtain ⟨hpair, hnew⟩ := applyEdits_spans hnfkc hresult
    split at h
    · cases h
    split at h
    · cases h
    · obtain rfl := EditOutcome.written.inj h
      have hcopy : ∀ front part rest, editBase nfkc (editContent rawContent) edits = front ++ (part ++ rest) →
          (∀ s ∈ editedSpans nfkc (editContent rawContent) edits, s.Outside front.length (front ++ part).length) →
          KeptBetween (editedSpans nfkc (editContent rawContent) edits) (editEnding rawContent) front part rest
            (restoreLineEndings part (editEnding rawContent)) (restoreLineEndings result.newContent (editEnding rawContent)) := by
        intro front part rest hbase hout
        rw [hnew]
        change KeptBetween _ _ _ _ _ _ (restoreLineEndings (spliceAll 0 (editBase nfkc (editContent rawContent) edits) _) _)
        rw [hbase]
        exact keptBetween_of_outside hpair hout _
      refine ⟨(stripBom_append rawContent).symm, _, rfl, ?_, hcopy⟩
      intro hbase front part rest htext hfront hpart hout
      refine ⟨hcopy _ _ _ ?_ hout, HasEnding.restore⟩
      rw [hbase, editContent, htext, normalizeToLF_append hfront, normalizeToLF_append hpart]

/-- A file with both kinds of line ends. -/
def mixedFile : List Char := ['a', '\n', 'b', '\r', '\n', 'c', '\n']

/-- An edit of its first line. -/
def firstLineEdit : Edit := ⟨['a'], ['x'], false⟩

theorem mixedFile_frame : executeEdit id false mixedFile [firstLineEdit] = .written ['x', '\n', 'b', '\n', 'c', '\n'] ∧
    ∃ out, ['x', '\n', 'b', '\n', 'c', '\n'] = (stripBom mixedFile).bom ++ out ∧
      KeptBetween (editedSpans id (editContent mixedFile) [firstLineEdit]) (editEnding mixedFile)
        (normalizeToLF ['a', '\n', 'b', '\r', '\n']) (normalizeToLF ['c', '\n']) [] ['c', '\n'] out := by
  have hwritten : executeEdit id false mixedFile [firstLineEdit] = .written ['x', '\n', 'b', '\n', 'c', '\n'] := by decide
  obtain ⟨-, out, hout, hframe, -⟩ := executeEdit_frame (fun _ => rfl) hwritten
  refine ⟨hwritten, out, hout, ?_⟩
  exact (hframe (by decide) ['a', '\n', 'b', '\r', '\n'] ['c', '\n'] [] (by decide) (fun h => absurd h (by decide))
    (fun h => absurd h (by decide)) (by unfold Splice.Outside; decide)).1

/-- A line in curly quotes, and one with a space at its end. -/
def quotedFile : List Char := ['\u201c', 'q', '\u201d', '\n', 'a', ' ', '\n']

/-- The quotes are matched in the copy, and the second line is written without its space. -/
theorem executeEdit_not_exact : ¬ ∀ (rawContent written : List Char) (edits : List Edit),
    executeEdit id false rawContent edits = .written written → ∀ front part rest,
      (stripBom rawContent).text = front ++ (part ++ rest) → CleanCut front (part ++ rest) → CleanCut part rest →
      (∀ s ∈ editedSpans id (editContent rawContent) edits,
        s.Outside (normalizeToLF front).length (normalizeToLF front ++ normalizeToLF part).length) → part <:+: written := by
  intro h
  have hline := h quotedFile ['z', '\n', 'a', '\n'] [⟨['"', 'q', '"'], ['z'], false⟩] (by decide)
    ['\u201c', 'q', '\u201d', '\n'] ['a', ' ', '\n'] [] rfl (fun h => absurd h (by decide)) (fun h => absurd h (by decide))
    (by unfold Splice.Outside; decide)
  exact absurd hline (by decide)

end Trek.Tools
