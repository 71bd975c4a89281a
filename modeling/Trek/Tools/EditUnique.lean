/-
# An edit has one place

An edit that does not ask for all matches is applied where its text stands, or its normalised form in the normalised
content, if that form is not counted twice; or else at the only run of lines that are like its lines, or at the block
its first and its last line bound. A call with an edit for which this does not hold fails (`applyEdits_unambiguous`).
-/
import Trek.Tools.EditFrame

namespace Trek.Tools

variable (nfkc : List Char → List Char)

/-! ### The place of an edit -/

/-- The pattern does not stand in the text at two places that lie apart. -/
def NotTwice (pattern text : List Char) : Prop :=
  ∀ p q, OccursAt pattern text p → OccursAt pattern text q → q < p + pattern.length

/-- The normalised text is not counted twice in the normalised content. A text that normalises to nothing is counted
between all its code units. -/
def CountedOnce (base oldText : List Char) : Prop :=
  (normalizeForFuzzyMatch nfkc oldText ≠ [] →
    NotTwice (normalizeForFuzzyMatch nfkc oldText) (normalizeForFuzzyMatch nfkc base)) ∧
  (normalizeForFuzzyMatch nfkc oldText = [] → (utf16 (normalizeForFuzzyMatch nfkc base)).length ≤ 2)

/-- Neither the text stands in the content nor its normalised form in the normalised content. -/
def StandsNowhere (base oldText : List Char) : Prop :=
  ¬ oldText <:+: base ∧ ¬ normalizeForFuzzyMatch nfkc oldText <:+: normalizeForFuzzyMatch nfkc base

/-- The keys of the lines of a content. -/
def lineKeys (content : List Char) : List (List Char) := (content.splitOn '\n').map (lineMatchKey nfkc)

/-- The span is the only run of lines whose keys are those of the text, not all of which are empty. -/
def IsOnlyRun (base oldText : List Char) (span : Span) : Prop :=
  (∃ key ∈ needleLineKeys nfkc oldText, key ≠ []) ∧
  ∃ i, (∀ j, needleLineKeys nfkc oldText <+: (lineKeys nfkc base).drop j ↔ j = i) ∧
    span = linesSpan (base.splitOn '\n') i (i + (needleLineKeys nfkc oldText).length - 1)

/-- An end is better than another one. -/
def AnchorEnd.Better (left right : AnchorEnd) : Prop :=
  right.score < left.score ∨ (left.score = right.score ∧ left.distance < right.distance)

/-- The span starts with the only line whose key is that of the first line of the text, and ends with the best of the
lines near it whose key is that of the last one. -/
def IsAnchoredBlock (base oldText : List Char) (span : Span) : Prop :=
  ∃ needle, needle = (needleLineKeys nfkc oldText).filter (fun line => !line.isEmpty) ∧ 4 ≤ needle.length ∧
    ∃ start, (∀ i, (lineKeys nfkc base)[i]? = some (needle.headD []) ↔ i = start) ∧
      ∃ best ∈ anchorEnds needle (lineKeys nfkc base) start,
        (∀ other ∈ anchorEnds needle (lineKeys nfkc base) start, other ≠ best → best.Better other) ∧
        span = linesSpan (base.splitOn '\n') start best.stop

/-- Where an edit of one match is applied. -/
inductive AppliesAt (base oldText : List Char) : Span → Prop
  | exact {p : ℕ} : OccursAt oldText base p → CountedOnce nfkc base oldText → AppliesAt base oldText ⟨p, oldText.length⟩
  | fuzzy {p : ℕ} : ¬ oldText <:+: base →
    OccursAt (normalizeForFuzzyMatch nfkc oldText) (normalizeForFuzzyMatch nfkc base) p → CountedOnce nfkc base oldText →
    AppliesAt base oldText ⟨p, (normalizeForFuzzyMatch nfkc oldText).length⟩
  | lineSpan {span : Span} : StandsNowhere nfkc base oldText → IsOnlyRun nfkc base oldText span → AppliesAt base oldText span
  | anchor {span : Span} : StandsNowhere nfkc base oldText → IsAnchoredBlock nfkc base oldText span →
    AppliesAt base oldText span

variable {nfkc}

/-! ### Counting -/

theorem countedOnce_of_le {base oldText : List Char} (h : ¬ 1 < countOccurrences nfkc base oldText) :
    CountedOnce nfkc base oldText := by
  unfold countOccurrences at h
  dsimp only at h
  refine ⟨fun hne p q hp hq => ?_, fun hempty => ?_⟩
  · rw [if_neg (by rwa [List.isEmpty_iff])] at h
    apply Nat.lt_of_not_le
    intro hapart
    have := two_le_length_occurrences hne hp hq hapart
    omega
  · rw [if_pos (by rw [hempty]; rfl)] at h
    omega

theorem not_infix_of_indexOf {pattern text : List Char} (h : indexOf pattern text = none) : ¬ pattern <:+: text := by
  by_cases hne : pattern = []
  · subst hne
    cases text <;> cases h
  · exact (indexOf_eq_none hne).mp h

/-! ### Runs of lines -/

theorem isOnlyRun_of_find {base oldText : List Char} {span : Span} (h : findUniqueLineSpan nfkc base oldText = some span) :
    IsOnlyRun nfkc base oldText span := by
  unfold findUniqueLineSpan at h
  split at h
  · rename_i span' heq
    obtain rfl := Option.some.inj h
    unfold collectLineSpans at heq
    dsimp only at heq
    split at heq
    · cases heq
    · rename_i hkeys
      have hsome : ∃ key ∈ needleLineKeys nfkc oldText, key ≠ [] := by
        by_contra hno
        push Not at hno
        exact hkeys (List.all_eq_true.mpr fun key hkey => List.isEmpty_iff.mpr (hno key hkey))
      refine ⟨hsome, ?_⟩
      obtain ⟨i, hfilter, rfl⟩ := List.map_eq_singleton_iff.mp heq
      refine ⟨i, fun j => ?_, rfl⟩
      -- a run that fits is one of the candidates
      have hmem : ∀ j, j ∈ [i] ↔ needleLineKeys nfkc oldText <+: (lineKeys nfkc base).drop j := by
        intro j
        rw [← hfilter, List.mem_filter, List.isPrefixOf_iff_prefix, List.mem_range]
        refine ⟨And.right, fun hrun => ⟨?_, hrun⟩⟩
        obtain ⟨key, hkey, -⟩ := hsome
        have hpos := List.length_pos_of_mem hkey
        have hlen := hrun.length_le
        rw [List.length_drop] at hlen
        change j < (lineKeys nfkc base).length + 1 - _
        omega
      rw [← hmem, List.mem_singleton]
  · cases h

/-! ### Anchored blocks -/

instance : IsTrans AnchorEnd AnchorEnd.NotWorse := ⟨fun a b c hab hbc => by unfold AnchorEnd.NotWorse at *; omega⟩

instance : Std.Total AnchorEnd.NotWorse := ⟨fun a b => by unfold AnchorEnd.NotWorse; omega⟩

/-- The first of the sorted ends is better than the others, if it is not as good as the second one. -/
theorem better_of_sorted {ends rest : List AnchorEnd} {best rival : AnchorEnd}
    (hsort : ends.insertionSort AnchorEnd.NotWorse = best :: rival :: rest)
    (hno : ¬ (rival.score = best.score ∧ rival.distance = best.distance)) :
    ∀ other ∈ ends, other ≠ best → best.Better other := by
  intro other hother hne
  have hsorted := List.pairwise_insertionSort AnchorEnd.NotWorse ends
  rw [hsort] at hsorted
  obtain ⟨hbest, hsorted⟩ := List.pairwise_cons.mp hsorted
  have hrival := hbest rival List.mem_cons_self
  have hmem : other ∈ best :: rival :: rest := hsort ▸ (List.mem_insertionSort _).mpr hother
  rcases List.mem_cons.mp ((List.mem_cons.mp hmem).resolve_left hne) with rfl | hrest
  · unfold AnchorEnd.NotWorse at hrival
    unfold AnchorEnd.Better
    omega
  · have hlater := (List.pairwise_cons.mp hsorted).1 other hrest
    unfold AnchorEnd.NotWorse at hrival hlater
    unfold AnchorEnd.Better
    omega

theorem isAnchoredBlock_of_find {base oldText : List Char} {span : Span} (h : findAnchoredBlock nfkc base oldText = some span) :
    IsAnchoredBlock nfkc base oldText span := by
  unfold findAnchoredBlock at h
  dsimp only at h
  unfold IsAnchoredBlock
  generalize (needleLineKeys nfkc oldText).filter (fun line => !line.isEmpty) = needle at h ⊢
  split at h
  · cases h
  · rename_i hlen
    refine ⟨needle, rfl, Nat.le_of_not_lt hlen, ?_⟩
    split at h
    · cases h
    · split at h
      · rename_i start hstart
        have honly : ∀ i, (lineKeys nfkc base)[i]? = some (needle.headD []) ↔ i = start := by
          intro i
          rw [← List.mem_singleton (b := start), ← hstart, List.mem_filter, decide_eq_true_eq, List.mem_range]
          refine ⟨fun hkey => ⟨?_, hkey⟩, And.right⟩
          exact (List.getElem?_eq_some_iff.mp hkey).1
        refine ⟨start, honly, ?_⟩
        split at h
        · cases h
        · rename_i best heq
          obtain rfl := Option.some.inj h
          have hmem : ∀ other, other ∈ anchorEnds needle (lineKeys nfkc base) start ↔ other ∈ [best] := by
            intro other
            rw [← heq]
            exact (List.mem_insertionSort _).symm
          refine ⟨best, (hmem best).mpr List.mem_cons_self, fun other hother hne => ?_, rfl⟩
          exact absurd (List.mem_singleton.mp ((hmem other).mp hother)) hne
        · rename_i best rival rest heq
          split at h
          · cases h
          · rename_i hno
            obtain rfl := Option.some.inj h
            exact ⟨best, (List.mem_insertionSort _).mp (heq ▸ List.mem_cons_self), better_of_sorted heq hno, rfl⟩
      · cases h

/-! ### The edit is applied there -/

theorem matchEdit_appliesAt {base : List Char} {k : ℕ} {edit : Edit} {spans : List MatchedEdit}
    (hone : edit.replaceAll = false) (h : matchEdit nfkc base k edit = .ok spans) :
    ∃ span, AppliesAt nfkc base edit.oldText span ∧ spans = [⟨k, span.index, span.matchLength, edit.newText⟩] := by
  unfold matchEdit at h
  split at h
  · cases h
  · rename_i result hresult
    dsimp only at h
    rw [hone] at h
    split at h
    · cases h
    · rename_i hcount
      have hcount : ¬ 1 < matchOccurrences nfkc base edit.oldText result.kind := by simpa using hcount
      obtain rfl := Except.ok.inj h
      refine ⟨⟨result.index, result.matchLength⟩, ?_, rfl⟩
      rcases matchResult_cases nfkc hresult with
        ⟨p, hp, rfl⟩ | ⟨hexact, ⟨p, hp, -, rfl⟩ | ⟨hfuzzy, ⟨span, hspan, rfl⟩ | ⟨span, hspan, rfl⟩⟩⟩
      · exact .exact (occursAt_of_indexOf hp) (countedOnce_of_le hcount)
      · exact .fuzzy (not_infix_of_indexOf hexact) (occursAt_of_indexOf hp) (countedOnce_of_le hcount)
      · exact .lineSpan ⟨not_infix_of_indexOf hexact, not_infix_of_indexOf hfuzzy⟩ (isOnlyRun_of_find hspan)
      · exact .anchor ⟨not_infix_of_indexOf hexact, not_infix_of_indexOf hfuzzy⟩ (isAnchoredBlock_of_find hspan)

/-- **An edit is applied at one place only.** When a call succeeds, every edit that does not ask for all matches is one
span of the call, at its one place. When such an edit is empty or has no place, the call fails and the file stays. -/
theorem applyEdits_unambiguous (nfkc : List Char → List Char) (content : List Char) (edits : List Edit) :
    (∀ result, applyEditsToNormalizedContent nfkc content edits = .ok result →
      ∀ edit ∈ normalizeEdits nfkc content edits, edit.replaceAll = false → edit.oldText ≠ [] ∧
        ∃ span, AppliesAt nfkc (editBase nfkc content edits) edit.oldText span ∧
          (⟨span.index, span.matchLength, edit.newText⟩ : Splice Char) ∈ editedSpans nfkc content edits) ∧
    ((∃ edit ∈ normalizeEdits nfkc content edits, edit.replaceAll = false ∧
        (edit.oldText = [] ∨ ∀ span, ¬ AppliesAt nfkc (editBase nfkc content edits) edit.oldText span)) →
      ∀ isDryRun rawContent, editContent rawContent = content →
        (∃ e, executeEdit nfkc isDryRun rawContent edits = .failed e) ∧
          (executeEdit nfkc isDryRun rawContent edits).fileAfter rawContent = rawContent) := by
  have hsuccess : ∀ result, applyEditsToNormalizedContent nfkc content edits = .ok result →
      ∀ edit ∈ normalizeEdits nfkc content edits, edit.replaceAll = false → edit.oldText ≠ [] ∧
        ∃ span, AppliesAt nfkc (editBase nfkc content edits) edit.oldText span ∧
          (⟨span.index, span.matchLength, edit.newText⟩ : Splice Char) ∈ editedSpans nfkc content edits := by
    intro result hok edit hedit hone
    obtain ⟨hnonempty, matched, hmatched, -⟩ := applyEdits_ok nfkc hok
    obtain ⟨k, spans, hmatch, hsub⟩ := (matchEdits_ok nfkc hmatched).1 edit hedit
    obtain ⟨span, happlies, rfl⟩ := matchEdit_appliesAt hone hmatch
    refine ⟨hnonempty edit hedit, span, happlies, ?_⟩
    rw [editedSpans, hmatched]
    apply List.mem_map.mpr
    exact ⟨_, (List.mem_insertionSort _).mpr (hsub List.mem_cons_self), rfl⟩
  refine ⟨hsuccess, ?_⟩
  rintro ⟨edit, hedit, hone, hbad⟩ isDryRun rawContent rfl
  unfold executeEdit
  dsimp only
  split
  · rename_i e _
    exact ⟨⟨e, rfl⟩, rfl⟩
  · rename_i result hok
    obtain ⟨hne, span, happlies, -⟩ := hsuccess result hok edit hedit hone
    rcases hbad with hempty | hnowhere
    · exact absurd hempty hne
    · exact absurd happlies (hnowhere span)

/-- A content, and an edit whose text stands in it once. -/
theorem oneLetter_unambiguous : ∃ span, AppliesAt id ['a', 'b'] ['a'] span ∧
    (⟨span.index, span.matchLength, ['x']⟩ : Splice Char) ∈ editedSpans id ['a', 'b'] [⟨['a'], ['x'], false⟩] :=
  ((applyEdits_unambiguous id ['a', 'b'] [⟨['a'], ['x'], false⟩]).1 ⟨['a', 'b'], ['x', 'b'], false⟩ (by decide)
    ⟨['a'], ['x'], false⟩ (by decide) rfl).2

/-- A line that is like the text of an edit, with another indentation. -/
theorem applyEdits_not_occurs : ¬ ∀ (content : List Char) (edit : Edit) (result : AppliedEditsResult),
    edit.replaceAll = false → applyEditsToNormalizedContent id content [edit] = .ok result →
      (∃! p, OccursAt (normalizeToLF edit.oldText) content p) ∨
        ∃! p, OccursAt (normalizeForFuzzyMatch id (normalizeToLF edit.oldText)) (normalizeForFuzzyMatch id content) p := by
  intro h
  have hstands : ∀ {pattern text : List Char} {p : ℕ}, OccursAt pattern text p → pattern <:+: text :=
    fun hat => hat.isInfix.trans (List.drop_suffix _ _).isInfix
  rcases h ['\t', 'x', ' ', 'y', '\n'] ⟨[' ', 'x', ' ', 'y'], ['z'], false⟩
    ⟨['\t', 'x', ' ', 'y', '\n'], ['z'], false⟩ rfl (by decide) with ⟨p, hat, -⟩ | ⟨p, hat, -⟩
  · exact absurd (hstands hat) (by decide)
  · exact absurd (hstands hat) (by decide)

end Trek.Tools
