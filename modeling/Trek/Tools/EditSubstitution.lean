/-
# Several edits at once

A call whose edits all stand in the content as they are. If the spans they match have no place in common, the call
replaces all of them at once, whatever the order of the edits; if two have, it fails (`applyEdits_exact`).
-/
import Trek.Tools.EditDiff

namespace Trek.Tools

variable (nfkc : List Char → List Char) (content : List Char)

/-! ### Exact matches -/

/-- The text of the edit is not empty and stands in the content. -/
def MatchesExactly (edit : Edit) : Prop :=
  normalizeToLF edit.oldText ≠ [] ∧ normalizeToLF edit.oldText <:+: content

/-- More than one match is counted, and one is asked for. -/
def IsAmbiguous (edit : Edit) : Prop :=
  edit.replaceAll = false ∧ 1 < countOccurrences nfkc content (normalizeToLF edit.oldText)

/-- The spans an edit matches: all occurrences of its text or the first one. -/
def exactSpans (edit : Edit) : List (Splice Char) :=
  (if edit.replaceAll then occurrences (normalizeToLF edit.oldText) content
    else (indexOf (normalizeToLF edit.oldText) content).toList).map fun p =>
      ⟨p, (normalizeToLF edit.oldText).length, normalizeToLF edit.newText⟩

variable {nfkc content}

theorem MatchesExactly.indexOf {edit : Edit} (h : MatchesExactly content edit) :
    ∃ p, Trek.indexOf (normalizeToLF edit.oldText) content = some p := by
  cases hindex : Trek.indexOf (normalizeToLF edit.oldText) content with
  | none => exact absurd h.2 ((indexOf_eq_none h.1).mp hindex)
  | some p => exact ⟨p, rfl⟩

/-- A span of an edit is where its text stands. -/
theorem exactSpans_spec {edit : Edit} (h : MatchesExactly content edit) : ∀ s ∈ exactSpans content edit,
    OccursAt (normalizeToLF edit.oldText) content s.start ∧ s.len = (normalizeToLF edit.oldText).length ∧
      s.new = normalizeToLF edit.newText ∧ 0 < s.len ∧ s.stop ≤ content.length := by
  intro s hs
  obtain ⟨p, hp, rfl⟩ := List.mem_map.mp hs
  have hat : OccursAt (normalizeToLF edit.oldText) content p := by
    split at hp
    · have := (occursAt_of_mem hp).2
      rwa [Nat.sub_zero] at this
    · exact occursAt_of_indexOf (Option.mem_toList.mp hp)
  exact ⟨hat, rfl, rfl, List.length_pos_iff.mpr h.1, hat.add_le h.1⟩

theorem normalizeEdit_exact {edit : Edit} (h : MatchesExactly content edit) :
    normalizeEdit nfkc content edit = ⟨normalizeToLF edit.oldText, normalizeToLF edit.newText, edit.replaceAll⟩ := by
  obtain ⟨p, hp⟩ := h.indexOf
  have hfound : isFound nfkc content (normalizeToLF edit.oldText) = true := by
    simp [isFound, fuzzyFindText, hp]
  simp [normalizeEdit, oldTextForMatch, hfound]

variable (nfkc) in
theorem matchEdit_exact {edit : Edit} (h : MatchesExactly content edit) (k : ℕ) :
    (IsAmbiguous nfkc content edit → ∃ e, matchEdit nfkc content k (normalizeEdit nfkc content edit) = .error e) ∧
    (¬ IsAmbiguous nfkc content edit → ∃ matched, matchEdit nfkc content k (normalizeEdit nfkc content edit) = .ok matched ∧
      matched.map MatchedEdit.splice = exactSpans content edit) := by
  obtain ⟨p, hp⟩ := h.indexOf
  have hresult : matchResult nfkc content (normalizeToLF edit.oldText) =
      some ⟨p, (normalizeToLF edit.oldText).length, false, content, .exact⟩ := by
    simp [matchResult, fuzzyFindText, hp]
  have hempty : (normalizeToLF edit.oldText).isEmpty = false := List.isEmpty_eq_false_iff.mpr h.1
  have hcond : (!edit.replaceAll && decide (1 < countOccurrences nfkc content (normalizeToLF edit.oldText))) = true ↔
      IsAmbiguous nfkc content edit := by
    rw [Bool.and_eq_true, Bool.not_eq_true', decide_eq_true_eq]
    rfl
  rw [normalizeEdit_exact h, matchEdit, hresult]
  refine ⟨fun hbad => ⟨_, if_pos (hcond.mpr hbad)⟩, fun hno => ⟨_, if_neg (fun hif => hno (hcond.mp hif)), ?_⟩⟩
  rw [exactSpans, hp]
  cases edit.replaceAll with
  | true => simp [MatchedEdit.splice, collectAllMatches, hempty, Function.comp_def]
  | false => simp [MatchedEdit.splice]

variable (nfkc) in
/-- All edits are matched, with their spans, or one is ambiguous. -/
theorem matchEdits_exact : ∀ {edits : List Edit} (k : ℕ), (∀ edit ∈ edits, MatchesExactly content edit) →
    ((∃ edit ∈ edits, IsAmbiguous nfkc content edit) →
      ∃ e, matchEdits nfkc content k (normalizeEdits nfkc content edits) = .error e) ∧
    ((∀ edit ∈ edits, ¬ IsAmbiguous nfkc content edit) →
      ∃ matched, matchEdits nfkc content k (normalizeEdits nfkc content edits) = .ok matched ∧
        matched.map MatchedEdit.splice = edits.flatMap (exactSpans content))
  | [], _, _ => ⟨fun ⟨_, h, _⟩ => (by cases h), fun _ => ⟨[], rfl, rfl⟩⟩
  | edit :: edits, k, h => by
    obtain ⟨hfirst, hrest⟩ := List.forall_mem_cons.mp h
    obtain ⟨hbad, hgood⟩ := matchEdit_exact nfkc hfirst k
    obtain ⟨hbads, hgoods⟩ := matchEdits_exact (k + 1) hrest
    change (_ → ∃ e, (matchEdit nfkc content k (normalizeEdit nfkc content edit) >>= fun matched =>
        matchEdits nfkc content (k + 1) (normalizeEdits nfkc content edits) >>= fun rest => pure (matched ++ rest)) = _) ∧
      (_ → ∃ m, (matchEdit nfkc content k (normalizeEdit nfkc content edit) >>= fun matched =>
        matchEdits nfkc content (k + 1) (normalizeEdits nfkc content edits) >>= fun rest => pure (matched ++ rest)) = _ ∧ _)
    by_cases hedit : IsAmbiguous nfkc content edit
    · obtain ⟨e, he⟩ := hbad hedit
      rw [he]
      exact ⟨fun _ => ⟨e, rfl⟩, fun hno => absurd hedit (hno edit List.mem_cons_self)⟩
    · obtain ⟨matched, hmatched, hspans⟩ := hgood hedit
      rw [hmatched]
      refine ⟨fun ⟨other, hmem, hother⟩ => ?_, fun hno => ?_⟩
      · rcases List.mem_cons.mp hmem with rfl | hmem
        · exact absurd hother hedit
        · obtain ⟨e, he⟩ := hbads ⟨other, hmem, hother⟩
          rw [he]
          exact ⟨e, rfl⟩
      · obtain ⟨rest, hrest, hspans'⟩ := hgoods fun e he => hno e (List.mem_cons_of_mem _ he)
        rw [hrest]
        exact ⟨matched ++ rest, rfl, by rw [List.map_append, hspans, hspans', List.flatMap_cons]⟩

theorem editBase_exact {edits : List Edit} (h : ∀ edit ∈ edits, MatchesExactly content edit) :
    editBase nfkc content edits = content := by
  unfold editBase baseContentFor
  rw [if_neg]
  intro hany
  obtain ⟨edit, hedit, hfuzzy⟩ := List.any_eq_true.mp hany
  obtain ⟨original, horiginal, rfl⟩ := List.mem_map.mp hedit
  obtain ⟨p, hp⟩ := (h original horiginal).indexOf
  rw [normalizeEdit_exact (h original horiginal)] at hfuzzy
  simp [fuzzyFindText, hp] at hfuzzy

/-! ### The order of the spans -/

theorem sortMatched_perm (matched : List MatchedEdit) : (sortMatched matched).Perm matched := List.perm_insertionSort _ _

theorem sortMatched_pairwise (matched : List MatchedEdit) :
    ((sortMatched matched).map MatchedEdit.splice).Pairwise fun a b => a.start ≤ b.start := by
  have : Std.Total fun a b : MatchedEdit => a.matchIndex ≤ b.matchIndex := ⟨fun a b => Nat.le_total _ _⟩
  have : IsTrans MatchedEdit fun a b => a.matchIndex ≤ b.matchIndex := ⟨fun _ _ _ => Nat.le_trans⟩
  exact List.pairwise_map.mpr (List.pairwise_insertionSort _ _)

/-- Spans that hold something and are sorted come one after the other exactly where they are disjoint. -/
theorem pairwise_before_iff {splices : List (Splice Char)} (hsorted : splices.Pairwise fun a b => a.start ≤ b.start)
    (hlen : ∀ s ∈ splices, 0 < s.len) : splices.Pairwise Splice.Before ↔ splices.Pairwise Splice.Disjoint := by
  refine ⟨fun h => h.imp Or.inl, fun h => ?_⟩
  refine (hsorted.and h).imp_of_mem fun {a b} _ hb hab => ?_
  have hpos := hlen b hb
  have := hab.1
  rcases hab.2 with hbefore | hafter
  · exact hbefore
  · unfold Splice.stop at hafter
    omega

variable (nfkc content)

/-- The call fails, and the file stays as it is. -/
def Fails (edits : List Edit) : Prop :=
  (∃ e, applyEditsToNormalizedContent nfkc content edits = .error e) ∧
    ∀ isDryRun rawContent, normalizeToLF (stripBom rawContent).text = content →
      (executeEdit nfkc isDryRun rawContent edits).fileAfter rawContent = rawContent

variable {nfkc content}

theorem fails_of_error {edits : List Edit} {e : EditError}
    (h : applyEditsToNormalizedContent nfkc content edits = .error e) : Fails nfkc content edits := by
  refine ⟨⟨e, h⟩, fun isDryRun rawContent hraw => ?_⟩
  unfold executeEdit
  simp only [hraw, h]
  rfl

variable (nfkc) in
/-- What a call does whose edits all stand in the content. -/
theorem applyEdits_eq {edits : List Edit} (h : ∀ edit ∈ edits, MatchesExactly content edit) :
    applyEditsToNormalizedContent nfkc content edits =
      (matchEdits nfkc content 0 (normalizeEdits nfkc content edits) >>= fun matched =>
        match findOverlap (sortMatched matched) with
        | some (previous, current) => .error (.overlap previous.editIndex current.editIndex)
        | none =>
          let newContent := spliceFromBack content ((sortMatched matched).map MatchedEdit.splice)
          .ok ⟨content, newContent, content = newContent⟩) := by
  have hnone : (edits.map (normalizeEdit nfkc content)).findIdx? (·.oldText.isEmpty) = none := by
    rw [List.findIdx?_eq_none_iff]
    intro edit hedit
    obtain ⟨original, horiginal, rfl⟩ := List.mem_map.mp hedit
    rw [normalizeEdit_exact (h original horiginal)]
    exact List.isEmpty_eq_false_iff.mpr (h original horiginal).1
  have hbase : baseContentFor nfkc content (edits.map (normalizeEdit nfkc content)) = content := editBase_exact h
  unfold applyEditsToNormalizedContent
  simp only [hnone, hbase]
  rfl

/-- **Several edits are one simultaneous substitution.** Every edit of the call stands in the content; each of its
spans is a place of its text. If no edit is ambiguous and no two spans have a place in common, the call replaces the
spans all at once, and so does the call with its edits in any other order. If two spans have, or an edit is
ambiguous, the call fails and changes nothing. -/
theorem applyEdits_exact (nfkc : List Char → List Char) (content : List Char) (edits : List Edit)
    (h : ∀ edit ∈ edits, MatchesExactly content edit) :
    (∀ edit ∈ edits, ∀ s ∈ exactSpans content edit, OccursAt (normalizeToLF edit.oldText) content s.start ∧
      s.len = (normalizeToLF edit.oldText).length ∧ s.new = normalizeToLF edit.newText) ∧
    ((∀ edit ∈ edits, ¬ IsAmbiguous nfkc content edit) → (edits.flatMap (exactSpans content)).Pairwise Splice.Disjoint →
      ∃ splices, splices.Perm (edits.flatMap (exactSpans content)) ∧ splices.Pairwise Splice.Before ∧
        ∀ edits', edits'.Perm edits → applyEditsToNormalizedContent nfkc content edits' =
          .ok ⟨content, spliceAll 0 content splices, decide (content = spliceAll 0 content splices)⟩) ∧
    ((∀ edit ∈ edits, ¬ IsAmbiguous nfkc content edit) → ¬ (edits.flatMap (exactSpans content)).Pairwise Splice.Disjoint →
      Fails nfkc content edits) ∧
    ((∃ edit ∈ edits, IsAmbiguous nfkc content edit) → Fails nfkc content edits) := by
  have hspec : ∀ {edits : List Edit}, (∀ edit ∈ edits, MatchesExactly content edit) →
      ∀ s ∈ edits.flatMap (exactSpans content), 0 < s.len ∧ s.stop ≤ content.length := by
    intro edits h s hs
    obtain ⟨edit, hedit, hs⟩ := List.mem_flatMap.mp hs
    obtain ⟨-, -, -, hlen, hstop⟩ := exactSpans_spec (h edit hedit) s hs
    exact ⟨hlen, hstop⟩
  -- the spans of a call, sorted, and what the check for overlaps makes of them
  have hsorted : ∀ {edits : List Edit}, (∀ edit ∈ edits, MatchesExactly content edit) →
      (∀ edit ∈ edits, ¬ IsAmbiguous nfkc content edit) → ∃ matched,
        matchEdits nfkc content 0 (normalizeEdits nfkc content edits) = .ok matched ∧
        ((sortMatched matched).map MatchedEdit.splice).Perm (edits.flatMap (exactSpans content)) ∧
        (findOverlap (sortMatched matched) = none ↔ (edits.flatMap (exactSpans content)).Pairwise Splice.Disjoint) := by
    intro edits h hone
    obtain ⟨matched, hmatched, hspans⟩ := (matchEdits_exact nfkc 0 h).2 hone
    have hperm : ((sortMatched matched).map MatchedEdit.splice).Perm (edits.flatMap (exactSpans content)) := by
      rw [← hspans]
      exact (sortMatched_perm matched).map _
    refine ⟨matched, hmatched, hperm, ?_⟩
    rw [findOverlap_eq_none, pairwise_before_iff (sortMatched_pairwise matched)
      fun s hs => (hspec h s (hperm.mem_iff.mp hs)).1]
    exact hperm.pairwise_iff fun hab => hab.symm
  refine ⟨fun edit hedit s hs => ?_, fun hone hdisjoint => ?_, fun hone hoverlap => ?_, fun hbad => ?_⟩
  · obtain ⟨hat, hlen, hnew, -⟩ := exactSpans_spec (h edit hedit) s hs
    exact ⟨hat, hlen, hnew⟩
  · obtain ⟨matched, hmatched, hperm, hiff⟩ := hsorted h hone
    have hbefore := findOverlap_eq_none.mp (hiff.mpr hdisjoint)
    refine ⟨_, hperm, hbefore, fun edits' hedits => ?_⟩
    have h' : ∀ edit ∈ edits', MatchesExactly content edit := fun edit hedit => h edit (hedits.mem_iff.mp hedit)
    have hflat : (edits'.flatMap (exactSpans content)).Perm (edits.flatMap (exactSpans content)) := hedits.flatMap_right _
    obtain ⟨matched', hmatched', hperm', hiff'⟩ := hsorted h' fun edit hedit => hone edit (hedits.mem_iff.mp hedit)
    have hno := hiff'.mpr ((hflat.pairwise_iff fun hab => hab.symm).mpr hdisjoint)
    have heq : (sortMatched matched').map MatchedEdit.splice = (sortMatched matched).map MatchedEdit.splice :=
      eq_of_perm_of_before (fun s hs => (hspec h' s (hperm'.mem_iff.mp hs)).1) (findOverlap_eq_none.mp hno) hbefore
        (hperm'.trans (hflat.trans hperm.symm))
    rw [applyEdits_eq nfkc h', hmatched']
    change (match findOverlap (sortMatched matched') with
      | some (previous, current) => _
      | none => _) = _
    rw [hno]
    have hfront := spliceFromBack_eq _ [] content hbefore fun s hs =>
      ⟨Nat.zero_le _, (hspec h s (hperm.mem_iff.mp hs)).2⟩
    simp only [List.nil_append, List.length_nil] at hfront
    simp only [heq, hfront]
  · obtain ⟨matched, hmatched, -, hiff⟩ := hsorted h hone
    cases hfind : findOverlap (sortMatched matched) with
    | none => exact absurd (hiff.mp hfind) hoverlap
    | some pair =>
      have heq := applyEdits_eq nfkc h
      rw [hmatched] at heq
      change _ = (match findOverlap (sortMatched matched) with
        | some (previous, current) => _
        | none => _) at heq
      rw [hfind] at heq
      exact fails_of_error heq
  · obtain ⟨e, he⟩ := (matchEdits_exact nfkc 0 h).1 hbad
    have heq := applyEdits_eq nfkc h
    rw [he] at heq
    exact fails_of_error heq

/-- Two letters, and an edit of each. -/
def letterEdits : List Edit := [⟨['b'], [], false⟩, ⟨['a'], ['x', 'y'], true⟩]

theorem letterEdits_exact : ∃ splices, splices.Perm (letterEdits.flatMap (exactSpans ['a', 'b', '\n'])) ∧
    splices.Pairwise Splice.Before ∧ ∀ edits', edits'.Perm letterEdits →
      applyEditsToNormalizedContent id ['a', 'b', '\n'] edits' = .ok ⟨['a', 'b', '\n'], spliceAll 0 ['a', 'b', '\n'] splices,
        decide (['a', 'b', '\n'] = spliceAll 0 ['a', 'b', '\n'] splices)⟩ := by
  have hexact : ∀ edit ∈ letterEdits, MatchesExactly ['a', 'b', '\n'] edit := by
    unfold MatchesExactly
    decide
  have hone : ∀ edit ∈ letterEdits, ¬ IsAmbiguous id ['a', 'b', '\n'] edit := by
    unfold IsAmbiguous
    decide
  have hdisjoint : (letterEdits.flatMap (exactSpans ['a', 'b', '\n'])).Pairwise Splice.Disjoint := by
    unfold Splice.Disjoint
    decide
  exact (applyEdits_exact id ['a', 'b', '\n'] letterEdits hexact).2.1 hone hdisjoint

/-- A text that stands in the content once, and once more with other quotes. -/
def quotedEdit : Edit := ⟨['"', 'y', '"'], ['z'], false⟩

/-- The quotes are counted in their plain form, so that the call fails. -/
theorem quotedEdit_fails : ¬ ∀ (content : List Char) (edits : List Edit), (∀ edit ∈ edits, MatchesExactly content edit) →
    (edits.flatMap (exactSpans content)).Pairwise Splice.Disjoint →
      ∃ splices, splices.Perm (edits.flatMap (exactSpans content)) ∧ applyEditsToNormalizedContent id content edits =
        .ok ⟨content, spliceAll 0 content splices, decide (content = spliceAll 0 content splices)⟩ := by
  intro h
  have hexact : ∀ edit ∈ [quotedEdit], MatchesExactly "\"y\" \u201cy\u201d".toList edit := by
    unfold MatchesExactly
    decide
  obtain ⟨splices, -, hok⟩ := h "\"y\" \u201cy\u201d".toList [quotedEdit] hexact (List.pairwise_singleton _ _)
  have herror : applyEditsToNormalizedContent id "\"y\" \u201cy\u201d".toList [quotedEdit] = .error (.duplicate 0 2) := by
    decide
  rw [herror] at hok
  cases hok

end Trek.Tools
