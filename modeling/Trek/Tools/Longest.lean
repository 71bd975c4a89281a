/-
# Truncation keeps as much as fits

What `truncateHead` keeps is the longest run of whole lines from the start that the two limits allow, and
what `truncateTail` keeps the longest run up to the end, or, where not even the last line fits, as much of
that line's end as does (`truncate_longest`).
-/
import Trek.Tools.Truncate

namespace Trek.Tools

variable {maxLines maxBytes : ℕ}

/-! ### What fits -/

/-- Lines within the limits. -/
structure Fits (maxLines maxBytes : ℕ) (lines : List (List Char)) : Prop where
  length : lines.length ≤ maxLines
  bytes : joinBytes lines ≤ maxBytes

/-- A text made of whole lines of a content: some of its lines, joined, or all of the content. -/
inductive WholeLines (Part : List (List Char) → Prop) (content : List Char) : ℕ → List Char → Prop
  | joined {lines : List (List Char)} : Part lines → WholeLines Part content lines.length (joinLines lines)
  | all : WholeLines Part content (splitLinesForCounting content).length content

/-- The result is the longest text of whole lines within the limits. -/
structure Longest (Part : List (List Char) → Prop) (content : List Char) (maxLines maxBytes : ℕ) (r : TruncationResult) :
    Prop where
  whole : WholeLines Part content r.outputLines r.content
  longest : ∀ n text, WholeLines Part content n text → n ≤ maxLines → byteLength text ≤ maxBytes →
    n ≤ r.outputLines ∧ byteLength text ≤ byteLength r.content

/-- The result is the longest end of a line within the limit. -/
structure LongestEnd (line : List Char) (maxBytes : ℕ) (r : TruncationResult) : Prop where
  suffix : r.content <:+ line
  longest : ∀ text, text <:+ line → byteLength text ≤ maxBytes → text <:+ r.content

/-- The result is within the limits, counts what it has, and says whether it is less than the content. -/
structure Within (content : List Char) (maxLines maxBytes : ℕ) (r : TruncationResult) : Prop where
  lines : r.outputLines ≤ maxLines
  counted : r.outputBytes = byteLength r.content
  bytes : r.outputBytes ≤ maxBytes
  truncated : r.truncated = true ↔ r.content ≠ content

/-! ### Bytes of lines -/

theorem joinBytes_append (a : List (List Char)) {b : List (List Char)} (hb : b ≠ []) :
    joinBytes (a ++ b) = joinBytes a + joinBytes b + if a = [] then 0 else 1 := by
  induction a with
  | nil => simp [joinBytes]
  | cons line a ih =>
    have hpos : 0 < (a ++ b).length := by
      rw [List.length_append]
      have := List.length_pos_iff.mpr hb
      omega
    rw [List.cons_append, joinBytes, joinBytes, ih, if_pos hpos, if_neg (List.cons_ne_nil _ _)]
    cases a with
    | nil =>
      simp [joinBytes]
      omega
    | cons next a =>
      simp only [List.length_cons, Nat.zero_lt_succ, if_true, reduceCtorEq, if_false]
      omega

/-- A part of the lines has no more bytes. -/
theorem joinBytes_le_of_isInfix {a b : List (List Char)} (h : a <:+: b) : joinBytes a ≤ joinBytes b := by
  obtain ⟨front, rest, rfl⟩ := h
  by_cases hrest : rest = []
  · rw [hrest, List.append_nil]
    exact le_joinBytes_append front a
  · have hle := le_joinBytes_append front a
    rw [joinBytes_append (front ++ a) hrest]
    omega

theorem joinBytes_le (content : List Char) : joinBytes (splitLinesForCounting content) ≤ byteLength content := by
  rw [byteLength_eq]
  exact Nat.le_add_right _ _

/-- Fewer lines than all are not the content. -/
theorem joinLines_ne {content : List Char} {kept front rest : List (List Char)}
    (hlines : splitLinesForCounting content = front ++ kept ++ rest) (hfewer : kept.length < (front ++ kept ++ rest).length) :
    joinLines kept ≠ content := by
  intro heq
  have hbytes : joinBytes kept = byteLength content := by rw [← heq, byteLength_joinLines]
  have hle := joinBytes_le content
  rw [hlines, ← hbytes] at hle
  by_cases hkept : kept = []
  · rw [hkept] at heq
    have hcontent : content = [] := heq.symm
    have hno : splitLinesForCounting content = [] := by rw [hcontent]; rfl
    rw [← hlines, hno] at hfewer
    exact absurd hfewer (Nat.not_lt_zero _)
  · -- a line more is a byte more
    by_cases hrest : rest = []
    · have hfront : front ≠ [] := by
        rintro rfl
        simp [hrest] at hfewer
      rw [hrest, List.append_nil, joinBytes_append front hkept, if_neg hfront] at hle
      omega
    · have := le_joinBytes_append front kept
      rw [joinBytes_append (front ++ kept) hrest, if_neg (by simp [hkept])] at hle
      omega

theorem Fits.of_infix {a b : List (List Char)} (h : Fits maxLines maxBytes b) (hab : a <:+: b) : Fits maxLines maxBytes a :=
  ⟨hab.length_le.trans h.length, (joinBytes_le_of_isInfix hab).trans h.bytes⟩

/-- Where one line more does not fit, no longer run from the start does. -/
theorem prefix_of_stop {kept dropped lines : List (List Char)} (hlines : lines <+: kept ++ dropped)
    (hfits : Fits maxLines maxBytes lines)
    (hmax : ∀ line rest, dropped = line :: rest → ¬ Fits maxLines maxBytes (kept ++ [line])) : lines <+: kept := by
  rcases List.prefix_or_prefix_of_prefix hlines (List.prefix_append kept dropped) with h | ⟨t, rfl⟩
  · exact h
  · cases t with
    | nil => exact (List.append_nil kept).symm ▸ List.prefix_refl kept
    | cons line t =>
      obtain ⟨rest, rfl⟩ := (List.prefix_append_right_inj kept).mp hlines
      refine absurd (hfits.of_infix ?_) (hmax line (t ++ rest) rfl)
      exact ⟨[], t, by simp⟩

/-- Nor, from the other side, any longer run up to the end. -/
theorem suffix_of_stop {kept dropped lines : List (List Char)} (hlines : lines <:+ dropped.reverse ++ kept)
    (hfits : Fits maxLines maxBytes lines)
    (hmax : ∀ line rest, dropped = line :: rest → ¬ Fits maxLines maxBytes (line :: kept)) : lines <:+ kept := by
  rcases List.suffix_or_suffix_of_suffix hlines (List.suffix_append dropped.reverse kept) with h | ⟨t, rfl⟩
  · exact h
  · rcases List.eq_nil_or_concat t with rfl | ⟨t, line, rfl⟩
    · exact List.suffix_refl kept
    · obtain ⟨rest, hrest⟩ := hlines
      rw [← List.append_assoc, List.append_cancel_right_eq, List.concat_eq_append] at hrest
      have hdropped : dropped = line :: (rest ++ t).reverse := by
        rw [← List.reverse_reverse dropped, ← hrest]
        simp
      refine absurd (hfits.of_infix ?_) (hmax line _ hdropped)
      exact ⟨t, [], by simp⟩

/-! ### The loops -/

/-- The loop of the head ends with the lines that fit: one more would not. -/
theorem collectHead_spec : ∀ lines out : List (List Char), Fits maxLines maxBytes out → ∃ kept dropped,
    lines = kept ++ dropped ∧ (collectHead byteLength maxLines maxBytes lines out (joinBytes out)).1 = out ++ kept ∧
      Fits maxLines maxBytes (out ++ kept) ∧
      ∀ line rest, dropped = line :: rest → ¬ Fits maxLines maxBytes (out ++ kept ++ [line])
  | [], out, h => ⟨[], [], rfl, (List.append_nil out).symm, (List.append_nil out).symm ▸ h, fun line rest heq => by cases heq⟩
  | line :: lines, out, h => by
    have hstop : ¬ Fits maxLines maxBytes (out ++ [line]) → ∃ kept dropped, line :: lines = kept ++ dropped ∧
        out = out ++ kept ∧ Fits maxLines maxBytes (out ++ kept) ∧
        ∀ line rest, dropped = line :: rest → ¬ Fits maxLines maxBytes (out ++ kept ++ [line]) := by
      intro hno
      refine ⟨[], line :: lines, rfl, (List.append_nil out).symm, (List.append_nil out).symm ▸ h, fun line' rest heq => ?_⟩
      obtain ⟨rfl, -⟩ := List.cons.inj heq
      rwa [List.append_nil]
    rw [collectHead]
    simp only [← joinBytes_concat]
    split
    · rename_i hroom
      split
      · exact hstop fun hfits => by have := hfits.bytes; omega
      · rename_i hbytes
        have hfits : Fits maxLines maxBytes (out ++ [line]) :=
          ⟨by rw [List.length_append, List.length_singleton]; omega, by omega⟩
        obtain ⟨kept, dropped, hlines, hout, hkept, hmax⟩ := collectHead_spec lines (out ++ [line]) hfits
        refine ⟨line :: kept, dropped, by rw [hlines]; rfl, ?_, ?_, ?_⟩
        · rw [hout, List.append_assoc]
          rfl
        · rwa [List.append_assoc] at hkept
        · rwa [List.append_assoc out [line] kept] at hmax
    · refine hstop fun hfits => ?_
      have := hfits.length
      rw [List.length_append, List.length_singleton] at this
      omega

/-- The loop of the tail does the same from the end, if it has a line or the first one fits. -/
theorem collect_spec : ∀ lines out : List (List Char), Fits maxLines maxBytes out →
    (out = [] → ∀ line rest, lines = line :: rest → byteLength line ≤ maxBytes) → ∃ kept dropped,
    lines = kept ++ dropped ∧ (collect maxLines maxBytes lines out (joinBytes out)).outputLinesArr = kept.reverse ++ out ∧
      Fits maxLines maxBytes (kept.reverse ++ out) ∧
      ∀ line rest, dropped = line :: rest → ¬ Fits maxLines maxBytes (line :: (kept.reverse ++ out))
  | [], out, h, _ => ⟨[], [], rfl, rfl, h, fun line rest heq => by cases heq⟩
  | line :: lines, out, h, hfirst => by
    have hbytes : joinBytes out + (byteLength line + if 0 < out.length then 1 else 0) = joinBytes (line :: out) := by
      rw [joinBytes]
      omega
    have hstop : ¬ Fits maxLines maxBytes (line :: out) → ∃ kept dropped, line :: lines = kept ++ dropped ∧
        out = kept.reverse ++ out ∧ Fits maxLines maxBytes (kept.reverse ++ out) ∧
        ∀ line rest, dropped = line :: rest → ¬ Fits maxLines maxBytes (line :: (kept.reverse ++ out)) := by
      intro hno
      refine ⟨[], line :: lines, rfl, rfl, h, fun line' rest heq => ?_⟩
      obtain ⟨rfl, -⟩ := List.cons.inj heq
      exact hno
    rw [collect]
    simp only [hbytes]
    split
    · rename_i hroom
      split
      · rename_i hover
        split
        · -- the first line fits
          rename_i hnone
          have hnil := List.length_eq_zero_iff.mp hnone
          have hfit := hfirst hnil line lines rfl
          rw [hnil] at hover
          have hsingle : joinBytes [line] = byteLength line := by simp [joinBytes]
          omega
        · exact hstop fun hfits => by have := hfits.bytes; omega
      · rename_i hover
        have hfits : Fits maxLines maxBytes (line :: out) := ⟨by rw [List.length_cons]; omega, by omega⟩
        obtain ⟨kept, dropped, hlines, hout, hkept, hmax⟩ := collect_spec lines (line :: out) hfits (fun heq => by cases heq)
        have happ : (line :: kept).reverse ++ out = kept.reverse ++ line :: out := by simp
        refine ⟨line :: kept, dropped, by rw [hlines]; rfl, ?_, ?_, ?_⟩
        · rw [hout, happ]
        · rwa [happ]
        · rwa [happ]
    · refine hstop fun hfits => ?_
      have := hfits.length
      rw [List.length_cons] at this
      omega

/-! ### The results -/

/-- A result that keeps the longest part within the limits. -/
theorem longest_of_kept {Part : List (List Char) → Prop} {content : List Char} {r : TruncationResult}
    (kept : List (List Char)) (hr : r.outputLines = kept.length ∧ r.content = joinLines kept) (hkept : Part kept)
    (hover : ¬ ((splitLinesForCounting content).length ≤ maxLines ∧ byteLength content ≤ maxBytes))
    (hmax : ∀ lines, Part lines → Fits maxLines maxBytes lines → lines.length ≤ kept.length ∧ joinBytes lines ≤ joinBytes kept) :
    Longest Part content maxLines maxBytes r where
  whole := by
    rw [hr.1, hr.2]
    exact .joined hkept
  longest n text h hn hbytes := by
    cases h with
    | joined hpart =>
      rw [byteLength_joinLines] at hbytes
      rw [hr.1, hr.2, byteLength_joinLines, byteLength_joinLines]
      exact hmax _ hpart ⟨hn, hbytes⟩
    | all => exact absurd ⟨hn, hbytes⟩ hover

/-- A content within the limits is kept as it is. -/
theorem longest_of_all {Part : List (List Char) → Prop} {content : List Char} {r : TruncationResult}
    (hr : r.outputLines = (splitLinesForCounting content).length ∧ r.content = content)
    (hwithin : ∀ lines, Part lines → lines <:+: splitLinesForCounting content) : Longest Part content maxLines maxBytes r where
  whole := by
    rw [hr.1, hr.2]
    exact .all
  longest n text h _ _ := by
    rw [hr.1, hr.2]
    cases h with
    | joined hpart =>
      have hle := hwithin _ hpart
      rw [byteLength_joinLines]
      exact ⟨hle.length_le, (joinBytes_le_of_isInfix hle).trans (joinBytes_le content)⟩
    | all => exact ⟨le_rfl, le_rfl⟩

/-- A result that keeps some of the lines is within the limits. -/
theorem within_of_kept {content : List Char} {r : TruncationResult} (front kept rest : List (List Char))
    (hlines : splitLinesForCounting content = front ++ kept ++ rest) (hfits : Fits maxLines maxBytes kept)
    (hover : ¬ ((splitLinesForCounting content).length ≤ maxLines ∧ byteLength content ≤ maxBytes))
    (hr : r.outputLines = kept.length ∧ r.content = joinLines kept ∧ r.outputBytes = byteLength (joinLines kept) ∧
      r.truncated = true) : Within content maxLines maxBytes r where
  lines := hr.1 ▸ hfits.length
  counted := by rw [hr.2.2.1, hr.2.1]
  bytes := by
    rw [hr.2.2.1, byteLength_joinLines]
    exact hfits.bytes
  truncated := by
    refine iff_of_true hr.2.2.2 ?_
    rw [hr.2.1]
    intro heq
    by_cases hbytes : byteLength content ≤ maxBytes
    · refine joinLines_ne hlines ?_ heq
      have := hfits.length
      rw [← hlines]
      omega
    · have := hfits.bytes
      rw [← byteLength_joinLines, heq] at this
      exact hbytes this

/-- The head keeps the longest run of lines from the start. -/
theorem truncateHead_longest (content : List Char) (maxLines maxBytes : ℕ) :
    Longest (· <+: splitLinesForCounting content) content maxLines maxBytes (truncateHead content maxLines maxBytes) ∧
      Within content maxLines maxBytes (truncateHead content maxLines maxBytes) := by
  unfold truncateHead truncateHeadOf
  dsimp only
  split
  · rename_i hall
    refine ⟨longest_of_all ⟨rfl, rfl⟩ fun lines h => h.isInfix, hall.1, rfl, hall.2, ?_⟩
    exact iff_of_false Bool.false_ne_true fun h => h rfl
  rename_i hover
  split
  · -- no line fits
    rename_i hfirst
    obtain ⟨line, lines, hlines⟩ : ∃ line lines, splitLinesForCounting content = line :: lines := by
      refine List.exists_cons_of_ne_nil fun hnil => ?_
      rw [hnil] at hfirst
      exact absurd hfirst (Nat.not_lt_zero _)
    rw [hlines, List.headD_cons] at hfirst
    refine ⟨longest_of_kept [] ⟨rfl, rfl⟩ List.nil_prefix hover fun lines' hpart hfits => ?_, ?_⟩
    · cases lines' with
      | nil => exact ⟨le_rfl, le_rfl⟩
      | cons line' lines' =>
        rw [hlines] at hpart
        obtain rfl := (List.cons_prefix_cons.mp hpart).1
        have := hfits.bytes
        rw [joinBytes] at this
        omega
    · exact within_of_kept [] [] _ rfl ⟨Nat.zero_le _, Nat.zero_le _⟩ hover ⟨rfl, rfl, rfl, rfl⟩
  · obtain ⟨kept, dropped, hlines, hout, hfits, hmax⟩ :=
      collectHead_spec (splitLinesForCounting content) [] (⟨Nat.zero_le maxLines, Nat.zero_le maxBytes⟩ : Fits maxLines maxBytes [])
    rw [List.nil_append] at hout hfits hmax
    generalize hresult : collectHead byteLength maxLines maxBytes (splitLinesForCounting content) [] 0 = result
    obtain ⟨out, count, stoppedBy⟩ := result
    obtain rfl : out = kept := by
      have := hout
      rw [joinBytes, hresult] at this
      exact this
    refine ⟨longest_of_kept out ⟨rfl, rfl⟩ (hlines ▸ List.prefix_append _ _) hover fun lines hpart hfits' => ?_, ?_⟩
    · -- a longer run would have one line more than fit
      have hle := prefix_of_stop (hlines ▸ hpart) hfits' hmax
      exact ⟨hle.length_le, joinBytes_le_of_isInfix hle.isInfix⟩
    · exact within_of_kept [] out dropped hlines hfits hover ⟨rfl, rfl, rfl, rfl⟩

/-- The tail keeps the longest run of lines up to the end, if the last line fits. -/
theorem truncateTail_longest (content : List Char) (maxLines maxBytes : ℕ)
    (hlast : ∀ last, (splitLinesForCounting content).getLast? = some last → byteLength last ≤ maxBytes) :
    Longest (· <:+ splitLinesForCounting content) content maxLines maxBytes (truncateTail content maxLines maxBytes) ∧
      Within content maxLines maxBytes (truncateTail content maxLines maxBytes) := by
  unfold truncateTail
  dsimp only
  split
  · rename_i hall
    refine ⟨longest_of_all ⟨rfl, rfl⟩ fun lines h => h.isInfix, hall.1, rfl, hall.2, ?_⟩
    exact iff_of_false Bool.false_ne_true fun h => h rfl
  rename_i hover
  obtain ⟨kept, dropped, hlines, hout, hfits, hmax⟩ := collect_spec (splitLinesForCounting content).reverse []
    (⟨Nat.zero_le maxLines, Nat.zero_le maxBytes⟩ : Fits maxLines maxBytes []) fun _ line rest heq => hlast line (by
      rw [← List.head?_reverse, heq]
      rfl)
  rw [joinBytes] at hout
  rw [hout]
  have hlines : splitLinesForCounting content = dropped.reverse ++ (kept.reverse ++ []) := by
    rw [← List.reverse_reverse (splitLinesForCounting content), hlines, List.reverse_append, List.append_nil]
  refine ⟨longest_of_kept _ ⟨rfl, rfl⟩ (hlines ▸ List.suffix_append _ _) hover fun lines hpart hfits' => ?_, ?_⟩
  · have hle := suffix_of_stop (hlines ▸ hpart) hfits' hmax
    exact ⟨hle.length_le, joinBytes_le_of_isInfix hle.isInfix⟩
  · exact within_of_kept dropped.reverse _ [] (hlines.trans (List.append_nil _).symm) hfits hover ⟨rfl, rfl, rfl, rfl⟩

/-- The end of a text that fits is the longest one. -/
theorem suffix_lastBytes {text line : List Char} (htext : text <:+ line) (hbytes : byteLength text ≤ maxBytes) :
    text <:+ lastBytes maxBytes line := by
  obtain ⟨front, heq, -, hmax⟩ := lastBytes_split maxBytes line
  have hline : lastBytes maxBytes line <:+ line := ⟨front, heq.symm⟩
  rcases List.suffix_or_suffix_of_suffix htext hline with h | ⟨t, rfl⟩
  · exact h
  · rcases List.eq_nil_or_concat t with rfl | ⟨t, c, rfl⟩
    · exact List.suffix_refl _
    · -- the character before it does not fit
      obtain ⟨rest, hrest⟩ := htext
      rw [← List.append_assoc] at hrest
      have hfront : front = (rest ++ t) ++ [c] := by
        have := hrest.trans heq
        rw [List.append_cancel_right_eq, List.concat_eq_append] at this
        rw [← this, List.append_assoc]
      have hover := hmax _ c hfront
      rw [List.concat_eq_append, List.append_assoc, byteLength_append, List.singleton_append, byteLength_cons] at hbytes
      omega

/-- The tail keeps the longest end of the last line, if that does not fit. -/
theorem truncateTail_longestEnd {content last : List Char} {maxLines : ℕ} (hlines : 1 ≤ maxLines) {maxBytes : ℕ}
    (hlast : (splitLinesForCounting content).getLast? = some last) (hover : maxBytes < byteLength last) :
    LongestEnd last maxBytes (truncateTail content maxLines maxBytes) ∧
      Within content maxLines maxBytes (truncateTail content maxLines maxBytes) := by
  obtain ⟨before, hbefore⟩ : ∃ before, (splitLinesForCounting content).reverse = last :: before := by
    rw [← List.head?_reverse] at hlast
    exact ⟨_, (List.head?_eq_some_iff.mp hlast).choose_spec⟩
  have hbytes : byteLength last ≤ byteLength content := by
    have hmem : last ∈ splitLinesForCounting content := List.mem_of_getLast? hlast
    obtain ⟨a, b, hab⟩ := List.append_of_mem hmem
    have hle := joinBytes_le_of_isInfix (⟨a, b, by rw [hab]; simp⟩ : [last] <:+: splitLinesForCounting content)
    rw [joinBytes] at hle
    have := joinBytes_le content
    omega
  have hcollect : (collect maxLines maxBytes (splitLinesForCounting content).reverse [] 0) =
      ⟨[lastBytes maxBytes last], byteLength (lastBytes maxBytes last), .bytes, true⟩ := by
    rw [hbefore, collect, if_pos (by exact hlines)]
    simp only [List.length_nil, lt_irrefl, if_false, Nat.add_zero, Nat.zero_add, if_true,
      truncateStringToBytesFromEnd_eq]
    rw [if_pos hover]
  have hjoin : joinLines [lastBytes maxBytes last] = lastBytes maxBytes last := by simp [joinLines]
  obtain ⟨front, heq, hle, -⟩ := lastBytes_split maxBytes last
  unfold truncateTail
  dsimp only
  rw [if_neg fun h => by have := h.2; omega, hcollect]
  dsimp only
  rw [hjoin]
  refine ⟨⟨⟨front, heq.symm⟩, fun text htext hbytes => suffix_lastBytes htext hbytes⟩, hlines, rfl, hle, ?_⟩
  refine iff_of_true rfl fun h => ?_
  dsimp only at h
  rw [h] at hle
  omega

/-- **Truncation keeps as much as fits.** -/
theorem truncate_longest (content : List Char) (maxLines maxBytes : ℕ) (hlines : 1 ≤ maxLines) :
    Longest (· <+: splitLinesForCounting content) content maxLines maxBytes (truncateHead content maxLines maxBytes) ∧
      ((∀ last, (splitLinesForCounting content).getLast? = some last → byteLength last ≤ maxBytes) →
        Longest (· <:+ splitLinesForCounting content) content maxLines maxBytes (truncateTail content maxLines maxBytes)) ∧
      (∀ last, (splitLinesForCounting content).getLast? = some last → maxBytes < byteLength last →
        LongestEnd last maxBytes (truncateTail content maxLines maxBytes)) ∧
      Within content maxLines maxBytes (truncateHead content maxLines maxBytes) ∧
      Within content maxLines maxBytes (truncateTail content maxLines maxBytes) := by
  obtain ⟨hhead, hwithin⟩ := truncateHead_longest content maxLines maxBytes
  refine ⟨hhead, fun hlast => (truncateTail_longest content maxLines maxBytes hlast).1,
    fun last hlast hover => (truncateTail_longestEnd hlines hlast hover).1, hwithin, ?_⟩
  by_cases hlast : ∀ last, (splitLinesForCounting content).getLast? = some last → byteLength last ≤ maxBytes
  · exact (truncateTail_longest content maxLines maxBytes hlast).2
  · push Not at hlast
    obtain ⟨last, hlast, hover⟩ := hlast
    exact (truncateTail_longestEnd hlines hlast hover).2

/-- Of two lines the one that fits is kept, and of a line that does not its end. -/
theorem truncate_longest_two : Within "ab\ncd".toList 1 2 (truncateHead "ab\ncd".toList 1 2) ∧
    (truncateTail "ab\ncd".toList 1 2).content = "cd".toList ∧
    LongestEnd "cd".toList 1 (truncateTail "ab\ncd".toList 1 1) :=
  ⟨(truncate_longest "ab\ncd".toList 1 2 (by decide)).2.2.2.1, by decide,
    (truncate_longest "ab\ncd".toList 1 1 (by decide)).2.2.1 "cd".toList (by decide) (by decide)⟩

end Trek.Tools
