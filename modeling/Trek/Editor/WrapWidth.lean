/-
# The width of wrapped lines

If no grapheme of a line is wider than the width, `wordWrapLine` comes back with chunks that fit: the
loop counts the columns of what stands after the last chunk (`WrapState.Fits`), and a paste marker that
is too wide is wrapped by itself, character by character. A grapheme that is wider than the width is
wrapped by itself as well, which is the same call again.
-/
import Mathlib.Data.List.TakeWhile
import Trek.Editor.WordWrap

namespace Trek.Editor

open Trek.Tui

/-- The columns of the graphemes of a text, one by one. -/
def graphemeWidths (u : Unicode) (text : List ℕ) : ℕ := ((u.graphemes text).map (visibleWidth u)).sum

/-- The segments of a line: its graphemes, and paste markers as one segment each. -/
def IsSegmentation (u : Unicode) (line : List ℕ) (segments : List SegmentData) : Prop :=
  ∃ groups : List (List (List ℕ) × Bool), (groups.map Prod.fst).flatten = u.graphemes line ∧
    (∀ group ∈ groups, (∃ g, group.1 = [g]) ∨ isPasteMarker group.1.flatten = true) ∧
    segments = segmentsFrom 0 (groups.map fun group => (group.1.flatten, group.2))

/-- The graphemes of a line end at a position. -/
def Boundary (u : Unicode) (line : List ℕ) (pos : ℕ) : Prop :=
  ∃ before after, u.graphemes line = before ++ after ∧ before.flatten.length = pos

variable {u : Unicode} {line : List ℕ} {maxWidth : ℕ}

/-! ### Columns between boundaries -/

theorem boundary_zero (u : Unicode) (line : List ℕ) : Boundary u line 0 := ⟨[], u.graphemes line, rfl, rfl⟩

/-- Of two fronts of the graphemes the shorter one is a front of the other. -/
theorem exists_append_of_length_le {gs b₁ a₁ b₂ a₂ : List (List ℕ)} (hne : ∀ g ∈ gs, g ≠ []) (h₁ : gs = b₁ ++ a₁)
    (h₂ : gs = b₂ ++ a₂) (hle : b₁.flatten.length ≤ b₂.flatten.length) : ∃ mid, b₂ = b₁ ++ mid := by
  rcases List.append_eq_append_iff.mp (h₁.symm.trans h₂) with ⟨mid, hmid, -⟩ | ⟨mid, hmid, -⟩
  · exact ⟨mid, hmid⟩
  · have hnil : mid = [] := by
      by_contra hmidne
      obtain ⟨g, rest, rfl⟩ := List.exists_cons_of_ne_nil hmidne
      have hg : 0 < g.length := List.length_pos_iff.mpr (hne g (by rw [h₁, hmid]; simp))
      rw [hmid, List.flatten_append, List.flatten_cons] at hle
      simp only [List.length_append] at hle
      omega
    exact ⟨[], by rw [hmid, hnil, List.append_nil, List.append_nil]⟩

theorem graphemes_mid {before mid after : List (List ℕ)} (h : u.graphemes line = before ++ (mid ++ after)) :
    u.graphemes (slice line before.flatten.length (before ++ mid).flatten.length) = mid := by
  have hline : line = before.flatten ++ (mid.flatten ++ after.flatten) := by
    rw [← List.flatten_append, ← List.flatten_append, ← h, u.flatten_graphemes]
  have hslice : slice line before.flatten.length (before ++ mid).flatten.length = mid.flatten := by
    rw [hline, List.flatten_append, List.length_append]
    exact slice_append_append _ _ _
  rw [hslice]
  exact (u.graphemes_restart _ mid after (u.graphemes_restart line before _ h).2).1

/-- The graphemes between boundaries are put together. -/
theorem Boundary.graphemes_append {a b c : ℕ} (ha : Boundary u line a) (hb : Boundary u line b)
    (hc : Boundary u line c) (hab : a ≤ b) (hbc : b ≤ c) :
    u.graphemes (slice line a c) = u.graphemes (slice line a b) ++ u.graphemes (slice line b c) := by
  obtain ⟨before, after, ha, rfl⟩ := ha
  obtain ⟨before_b, after_b, hb, rfl⟩ := hb
  obtain ⟨before_c, after_c, hc, rfl⟩ := hc
  have hne := u.graphemes_ne_nil line
  obtain ⟨mid, rfl⟩ := exists_append_of_length_le hne ha hb hab
  obtain ⟨mid', rfl⟩ := exists_append_of_length_le hne hb hc hbc
  have hfirst : u.graphemes line = before ++ (mid ++ (mid' ++ after_c)) := by simpa using hc
  have hlast : u.graphemes line = (before ++ mid) ++ (mid' ++ after_c) := by simpa using hc
  have hwhole : u.graphemes line = before ++ ((mid ++ mid') ++ after_c) := by simpa using hc
  have hassoc : before ++ mid ++ mid' = before ++ (mid ++ mid') := List.append_assoc _ _ _
  rw [graphemes_mid hfirst, graphemes_mid hlast, hassoc, graphemes_mid hwhole]

theorem Boundary.graphemeWidths_append {a b c : ℕ} (ha : Boundary u line a) (hb : Boundary u line b)
    (hc : Boundary u line c) (hab : a ≤ b) (hbc : b ≤ c) :
    graphemeWidths u (slice line a c) = graphemeWidths u (slice line a b) + graphemeWidths u (slice line b c) := by
  rw [graphemeWidths, ha.graphemes_append hb hc hab hbc, List.map_append, List.sum_append]
  rfl

/-! ### Single graphemes, and texts without tabs and escapes -/

theorem graphemeWidths_singleton {g : List ℕ} (h : u.graphemes g = [g]) : graphemeWidths u g = visibleWidth u g := by
  rw [graphemeWidths, h, List.map_singleton, List.sum_singleton]

@[simp] theorem graphemeWidths_nil : graphemeWidths u [] = 0 := by rw [graphemeWidths, Unicode.graphemes_nil]; rfl

theorem graphemes_singleton_of_mem {g : List ℕ} (h : g ∈ u.graphemes line) : u.graphemes g = [g] := by
  obtain ⟨before, after, heq⟩ := List.append_of_mem h
  have hafter := (u.graphemes_restart line before (g :: after) heq).2
  have hself := (u.graphemes_restart _ [g] after hafter).1
  rwa [List.flatten_singleton] at hself

/-- Without tabs and escapes the width of a text is that of its graphemes. -/
theorem visibleWidth_eq_graphemeWidths {text : List ℕ} (htab : 0x09 ∉ text) (hesc : ESC ∉ text) :
    visibleWidth u text = graphemeWidths u text := by
  rw [visibleWidth_plain htab hesc, Unicode.columns, graphemeWidths]
  refine congrArg List.sum (List.map_congr_left fun g hg => ?_)
  have hsubset : ∀ c ∈ g, c ∈ text := fun c hc => by
    rw [← u.flatten_graphemes text]
    exact List.mem_flatten_of_mem hg hc
  rw [visibleWidth_plain (fun hc => htab (hsubset _ hc)) (fun hc => hesc (hsubset _ hc)), Unicode.columns,
    graphemes_singleton_of_mem hg, List.map_singleton, List.sum_singleton]

/-! ### Printable text -/

theorem isPrintableAscii_notMem {text : List ℕ} (h : isPrintableAscii text = true) : 0x09 ∉ text ∧ ESC ∉ text := by
  have hmem : ∀ c ∈ text, isPrintableChar c = true := List.all_eq_true.mp h
  exact ⟨fun hc => absurd (hmem _ hc) (by decide), fun hc => absurd (hmem _ hc) (by decide)⟩

theorem visibleWidth_ascii {text : List ℕ} (h : isPrintableAscii text = true) : visibleWidth u text = text.length := by
  obtain ⟨htab, hesc⟩ := isPrintableAscii_notMem h
  rw [visibleWidth_plain htab hesc, Unicode.columns_ascii h]

theorem graphemeWidths_ascii {text : List ℕ} (h : isPrintableAscii text = true) : graphemeWidths u text = text.length := by
  obtain ⟨htab, hesc⟩ := isPrintableAscii_notMem h
  rw [← visibleWidth_eq_graphemeWidths htab hesc, visibleWidth_ascii h]

theorem isPrintableAscii_append {text text' : List ℕ} :
    isPrintableAscii (text ++ text') = true ↔ isPrintableAscii text = true ∧ isPrintableAscii text' = true := by
  rw [isPrintableAscii, List.all_append, Bool.and_eq_true]
  rfl

theorem isPrintableAscii_of_subset {text text' : List ℕ} (hsubset : text ⊆ text') (h : isPrintableAscii text' = true) :
    isPrintableAscii text = true :=
  List.all_eq_true.mpr fun c hc => List.all_eq_true.mp h c (hsubset hc)

theorem isPrintableAscii_digits (text : List ℕ) : isPrintableAscii (text.takeWhile isDigit) = true := by
  refine List.all_eq_true.mpr fun c hc => ?_
  have hdigit : isDigit c = true := List.mem_takeWhile_imp hc
  unfold isDigit at hdigit
  unfold isPrintableChar
  simp only [Bool.and_eq_true, decide_eq_true_eq] at hdigit ⊢
  omega

/-- Digits and what stands behind them are printable. -/
theorem isPrintableAscii_digitsLength {stop text : List ℕ} {length : ℕ} (hstop : isPrintableAscii stop = true)
    (h : digitsLength stop text = some length) : isPrintableAscii (text.take length) = true := by
  unfold digitsLength at h
  dsimp only at h
  split at h
  · next hmatch =>
    obtain rfl := Option.some.inj h
    have hstop' := List.prefix_iff_eq_take.mp (List.isPrefixOf_iff_prefix.mp hmatch.2)
    have hdigits := List.prefix_iff_eq_take.mp (List.takeWhile_prefix isDigit (l := text))
    rw [List.take_add, ← hstop', ← hdigits]
    exact isPrintableAscii_append.mpr ⟨isPrintableAscii_digits text, hstop⟩
  · cases h

/-- The end of a marker is printable. -/
theorem isPrintableAscii_markerTailLength {text : List ℕ} {length : ℕ} (h : markerTailLength text = some length) :
    isPrintableAscii (text.take length) = true := by
  unfold markerTailLength at h
  split at h
  · obtain rfl := Option.some.inj h
    rfl
  · obtain ⟨n, hn, rfl⟩ := Option.map_eq_some_iff.mp h
    have hend : isPrintableAscii LINES_END = true := by decide
    have hfront : isPrintableAscii [0x20, 0x2b] = true := rfl
    exact (isPrintableAscii_append.mpr ⟨hfront, isPrintableAscii_digitsLength hend hn⟩ :)
  · obtain ⟨n, hn, rfl⟩ := Option.map_eq_some_iff.mp h
    have hend : isPrintableAscii CHARS_END = true := by decide
    have hfront : isPrintableAscii [0x20] = true := rfl
    exact (isPrintableAscii_append.mpr ⟨hfront, isPrintableAscii_digitsLength hend hn⟩ :)
  · cases h

theorem isPrintableAscii_matchMarker {text digits : List ℕ} {length : ℕ} (h : matchMarker text = some (digits, length)) :
    isPrintableAscii (text.take length) = true := by
  unfold matchMarker at h
  split at h
  · next hstart =>
    dsimp only at h
    split at h
    · cases h
    · obtain ⟨tail, htail, heq⟩ := Option.map_eq_some_iff.mp h
      obtain ⟨-, rfl⟩ := Prod.mk.inj heq
      have hstart' := List.prefix_iff_eq_take.mp (List.isPrefixOf_iff_prefix.mp hstart)
      have hdigits := List.prefix_iff_eq_take.mp
        (List.takeWhile_prefix isDigit (l := text.drop MARKER_START.length))
      rw [Nat.add_assoc, List.take_add, ← hstart', List.take_add, ← hdigits]
      exact isPrintableAscii_append.mpr ⟨by decide, isPrintableAscii_append.mpr
        ⟨isPrintableAscii_digits _, isPrintableAscii_markerTailLength htail⟩⟩
  · cases h

/-- The marker of a paste is printable ASCII text. -/
theorem isPrintableAscii_of_isPasteMarker {segment : List ℕ} (h : isPasteMarker segment = true) :
    isPrintableAscii segment = true := by
  unfold isPasteMarker at h
  obtain ⟨⟨digits, length⟩, hmatch, hlength⟩ := (Option.any_eq_true _ _).mp (Bool.and_eq_true_iff.mp h).2
  obtain rfl : length = segment.length := of_decide_eq_true hlength
  have hprintable := isPrintableAscii_matchMarker hmatch
  rwa [List.take_length] at hprintable

/-- Inside of printable text there is a boundary after every character. -/
theorem boundary_ascii {before group after : List (List ℕ)} (h : u.graphemes line = before ++ (group ++ after))
    (hprintable : isPrintableAscii group.flatten = true) :
    ∀ k ≤ group.flatten.length, Boundary u line (before.flatten.length + k) := by
  intro k hk
  have hgroup : group = group.flatten.map ([·]) := by
    rw [← u.graphemes_ascii _ hprintable]
    exact ((u.graphemes_restart _ group after (u.graphemes_restart line before _ h).2).1).symm
  refine ⟨before ++ (group.flatten.take k).map ([·]), (group.flatten.drop k).map ([·]) ++ after, ?_, ?_⟩
  · calc u.graphemes line
      _ = before ++ (group ++ after) := h
      _ = before ++ ((group.flatten.take k ++ group.flatten.drop k).map ([·]) ++ after) := by
        rw [List.take_append_drop, ← hgroup]
      _ = _ := by rw [List.map_append, List.append_assoc, List.append_assoc]
  · have hflatten : ((group.flatten.take k).map ([·])).flatten = group.flatten.take k := List.flatMap_singleton' _
    rw [List.flatten_append, hflatten, List.length_append, List.length_take_of_le hk]

/-! ### The loop -/

/-- What is known before a position: the columns since the last chunk, those before the wrap opportunity,
and that the chunks fit. -/
structure WrapState.Fits (u : Unicode) (line : List ℕ) (maxWidth : ℕ) (s : WrapState) (pos : ℕ) : Prop where
  done : s.Done line pos
  boundary : Boundary u line s.chunkStart
  currentWidth : s.currentWidth = graphemeWidths u (slice line s.chunkStart pos)
  fits : s.currentWidth ≤ maxWidth
  wrapOpp : ∀ index, s.wrapOppIndex = some index →
    Boundary u line index ∧ s.wrapOppWidth = graphemeWidths u (slice line s.chunkStart index)
  chunks : ∀ c ∈ s.chunks, graphemeWidths u c.text ≤ maxWidth

namespace WrapState.Fits

variable {s : WrapState} {pos gWidth : ℕ}

/-- The chunks with one more that fits. -/
theorem chunks_push (h : s.Fits u line maxWidth pos) {stop : ℕ}
    (hfits : graphemeWidths u (slice line s.chunkStart stop) ≤ maxWidth) :
    ∀ c ∈ (s.push line stop).chunks, graphemeWidths u c.text ≤ maxWidth := by
  intro c hc
  rcases List.mem_append.mp hc with hc | hc
  · exact h.chunks c hc
  · obtain rfl := List.mem_singleton.mp hc
    exact hfits

/-- After the overflow check the segment fits, if it can. -/
theorem overflow (h : s.Fits u line maxWidth pos) (hpos : Boundary u line pos) (gWidth : ℕ) :
    (s.overflow line maxWidth gWidth pos).Fits u line maxWidth pos ∧
      (gWidth ≤ maxWidth → (s.overflow line maxWidth gWidth pos).currentWidth + gWidth ≤ maxWidth) := by
  have hdone := (h.done.overflow maxWidth gWidth).1
  by_cases hover : maxWidth < s.currentWidth + gWidth
  · -- a break at the position leaves nothing on the line
    have hforced : ∀ forced : WrapState,
        forced = (if s.chunkStart < pos then { s.push line pos with currentWidth := 0 } else s) →
          forced.chunkStart = pos ∧ forced.currentWidth = 0 ∧ ∀ c ∈ forced.chunks, graphemeWidths u c.text ≤ maxWidth := by
      rintro forced rfl
      split
      · have hwidth : graphemeWidths u (slice line s.chunkStart pos) ≤ maxWidth := h.currentWidth ▸ h.fits
        exact ⟨rfl, rfl, h.chunks_push hwidth⟩
      · next hge =>
        have hstart : s.chunkStart = pos := Nat.le_antisymm h.done.chunkStart (Nat.not_lt.mp hge)
        refine ⟨hstart, ?_, h.chunks⟩
        rw [h.currentWidth, hstart, slice_self, graphemeWidths_nil]
    obtain ⟨hstart, hzero, hchunks⟩ := hforced _ rfl
    have hbreak : ∀ forced : WrapState, forced.chunkStart = pos → forced.currentWidth = 0 →
        (∀ c ∈ forced.chunks, graphemeWidths u c.text ≤ maxWidth) → { forced with wrapOppIndex := none }.Done line pos →
        { forced with wrapOppIndex := none }.Fits u line maxWidth pos ∧ (gWidth ≤ maxWidth → forced.currentWidth + gWidth ≤ maxWidth) := by
      intro forced hstart hzero hchunks hdone
      refine ⟨⟨hdone, hstart ▸ hpos, ?_, ?_, (fun _ hnone => by cases hnone), hchunks⟩, fun hfits => ?_⟩
      · exact hzero.trans (by rw [hstart, slice_self, graphemeWidths_nil])
      · exact hzero ▸ Nat.zero_le maxWidth
      · rwa [hzero, Nat.zero_add]
    unfold WrapState.overflow at hdone ⊢
    rw [if_pos hover] at hdone ⊢
    dsimp only at hdone ⊢
    split at hdone
    · next index hindex =>
      split at hdone
      · next hfits =>
        rw [if_pos hfits]
        obtain ⟨hboundary, hwidth⟩ := h.wrapOpp index hindex
        obtain ⟨hle, hle'⟩ := h.done.wrapOpp index hindex
        have hsum := h.boundary.graphemeWidths_append hboundary hpos hle hle'
        rw [← h.currentWidth, ← hwidth] at hsum
        have hcurrent := h.fits
        refine ⟨⟨hdone, hboundary, ?_, ?_, (fun _ hnone => by cases hnone), ?_⟩, fun _ => hfits⟩
        · dsimp only [push]
          omega
        · dsimp only
          omega
        · exact h.chunks_push (by omega)
      · next hnofit =>
        rw [if_neg hnofit]
        exact hbreak _ hstart hzero hchunks hdone
    · next hindex =>
      exact hbreak _ hstart hzero hchunks hdone
  · unfold WrapState.overflow
    rw [if_neg hover]
    exact ⟨h, fun _ => Nat.not_lt.mp hover⟩

/-- A segment that fits. -/
theorem advance (h : s.Fits u line maxWidth pos) (grapheme : List ℕ) {next : Option SegmentData} {pos' : ℕ}
    (hle : pos ≤ pos') (hpos : Boundary u line pos) (hpos' : Boundary u line pos')
    (hnext : ∀ n, next = some n → pos' = n.index) (hwidth : gWidth = graphemeWidths u (slice line pos pos'))
    (hfits : s.currentWidth + gWidth ≤ maxWidth) : (s.advance grapheme gWidth next).Fits u line maxWidth pos' := by
  have hdone := h.done.advance grapheme gWidth hle hnext
  have hcurrent : s.currentWidth + gWidth = graphemeWidths u (slice line s.chunkStart pos') := by
    rw [h.boundary.graphemeWidths_append hpos hpos' h.done.chunkStart hle, h.currentWidth, hwidth]
  unfold WrapState.advance at hdone ⊢
  cases next with
  | none => exact ⟨hdone, h.boundary, hcurrent, hfits, h.wrapOpp, h.chunks⟩
  | some n =>
    obtain rfl := hnext n rfl
    dsimp only at hdone ⊢
    split at hdone
    · next hopp =>
      rw [if_pos hopp]
      refine ⟨hdone, h.boundary, hcurrent, hfits, fun index hindex => ?_, h.chunks⟩
      obtain rfl := Option.some.inj hindex
      exact ⟨hpos', hcurrent⟩
    · next hopp =>
      rw [if_neg hopp]
      exact ⟨hdone, h.boundary, hcurrent, hfits, h.wrapOpp, h.chunks⟩

/-- A segment that was wrapped by itself, with graphemes of one character. -/
theorem pushAll (h : s.Fits u line maxWidth pos) (hstart : s.chunkStart = pos) {segment : List ℕ} {subChunks : List TextChunk}
    (hprintable : isPrintableAscii segment = true) (hsegment : segment = slice line pos (pos + segment.length))
    (hboundary : ∀ k ≤ segment.length, Boundary u line (pos + k)) (hsub : Tiles segment 0 subChunks segment.length)
    (hne : subChunks ≠ []) (hfits : ∀ c ∈ subChunks, graphemeWidths u c.text ≤ maxWidth) :
    (s.pushAll u pos subChunks).Fits u line maxWidth (pos + segment.length) := by
  obtain ⟨-, htext, hle⟩ := hsub.dropLast hne
  have hlast : subChunks.getLastD ⟨[], 0, 0⟩ ∈ subChunks := by
    rw [List.getLastD_eq_getLast?, List.getLast?_eq_some_getLast hne]
    exact List.getLast_mem hne
  generalize hchunk : subChunks.getLastD ⟨[], 0, 0⟩ = last at htext hle hlast
  have hmoved : slice line (pos + last.startIndex) (pos + segment.length) = last.text := by
    have hinner := congrArg (slice · last.startIndex segment.length) hsegment
    rw [htext]
    exact (hinner.trans (slice_slice (le_refl _) _)).symm
  have hsubset : last.text ⊆ segment := by
    rw [htext, slice]
    exact ((List.drop_sublist _ _).trans (List.take_sublist _ _)).subset
  have hwidth : visibleWidth u last.text = graphemeWidths u last.text := by
    have hlastPrintable := isPrintableAscii_of_subset hsubset hprintable
    rw [visibleWidth_ascii hlastPrintable, graphemeWidths_ascii hlastPrintable]
  refine ⟨h.done.pushAll hstart hsegment hsub hne, ?_, ?_, ?_, (fun _ hnone => by cases hnone), fun c hc => ?_⟩
  · dsimp only [WrapState.pushAll]
    rw [hchunk]
    exact hboundary _ hle
  · dsimp only [WrapState.pushAll]
    rw [hchunk, hmoved, hwidth]
  · dsimp only [WrapState.pushAll]
    rw [hchunk, hwidth]
    exact hfits last hlast
  · rcases List.mem_append.mp hc with hc | hc
    · exact h.chunks c hc
    · obtain ⟨sc, hsc, rfl⟩ := List.mem_map.mp hc
      exact hfits sc (List.dropLast_subset _ hsc)

end WrapState.Fits

/-- The segments of a line, from the graphemes that they are made of. -/
def groupSegments (pos : ℕ) (groups : List (List (List ℕ) × Bool)) : List SegmentData :=
  segmentsFrom pos (groups.map fun group => (group.1.flatten, group.2))

theorem index_of_head? {pos : ℕ} {groups : List (List (List ℕ) × Bool)} {n : SegmentData}
    (h : (groupSegments pos groups).head? = some n) : pos = n.index := by
  cases groups with
  | nil => cases h
  | cons group groups => exact congrArg SegmentData.index (Option.some.inj h)

theorem exists_segment_of_mem {groups : List (List (List ℕ) × Bool)} {group : List (List ℕ) × Bool} {g : List ℕ}
    (hgroup : group ∈ groups) (hsingle : group.1 = [g]) : ∀ {pos : ℕ}, ∃ seg ∈ groupSegments pos groups, seg.segment = g := by
  induction groups with
  | nil => cases hgroup
  | cons group' groups ih =>
    intro pos
    rcases List.mem_cons.mp hgroup with rfl | hgroup
    · exact ⟨⟨group.1.flatten, pos, group.2⟩, List.mem_cons_self, by dsimp only; rw [hsingle, List.flatten_singleton]⟩
    · obtain ⟨seg, hseg, heq⟩ := @ih hgroup (pos + group'.1.flatten.length)
      exact ⟨seg, List.mem_cons_of_mem _ hseg, heq⟩

/-- A segment that fits, or a marker that is wrapped by itself where it does not fit. -/
def Wrappable (u : Unicode) (rewrap : List ℕ → Option (List TextChunk)) (maxWidth : ℕ) (group : List (List ℕ)) : Prop :=
  (∃ g, group = [g] ∧ visibleWidth u g ≤ maxWidth) ∨
    isPasteMarker group.flatten = true ∧ ∃ chunks, rewrap group.flatten = some chunks ∧
      Tiles group.flatten 0 chunks group.flatten.length ∧ chunks ≠ [] ∧ ∀ c ∈ chunks, graphemeWidths u c.text ≤ maxWidth

/-- The loop comes back with chunks that fit. The induction is on the segments that are left. -/
theorem wrapSegments_fits {rewrap : List ℕ → Option (List TextChunk)} :
    ∀ {groups : List (List (List ℕ) × Bool)} {before : List (List ℕ)} {s : WrapState},
      u.graphemes line = before ++ (groups.map Prod.fst).flatten →
      (∀ group ∈ groups, Wrappable u rewrap maxWidth group.1) → s.Fits u line maxWidth before.flatten.length →
      ∃ s', wrapSegments u rewrap line maxWidth s (groupSegments before.flatten.length groups) = some s' ∧
        s'.Fits u line maxWidth line.length
  | [], before, s, heq, _, h => by
    have hlength : before.flatten.length = line.length := by
      rw [List.map_nil, List.flatten_nil, List.append_nil] at heq
      rw [← heq, u.flatten_graphemes]
    exact ⟨s, rfl, hlength ▸ h⟩
  | (group, isWordLike) :: groups, before, s, heq, hgroups, h => by
    obtain ⟨hgroup, hrest⟩ := List.forall_mem_cons.mp hgroups
    rw [List.map_cons, List.flatten_cons] at heq
    have hnext : u.graphemes line = (before ++ group) ++ (groups.map Prod.fst).flatten := by rw [heq, List.append_assoc]
    have hend : (before ++ group).flatten.length = before.flatten.length + group.flatten.length := by
      rw [List.flatten_append, List.length_append]
    have hpos : Boundary u line before.flatten.length := ⟨before, _, heq, rfl⟩
    have hpos' : Boundary u line (before.flatten.length + group.flatten.length) := ⟨before ++ group, _, hnext, hend⟩
    have hsegment : slice line before.flatten.length (before.flatten.length + group.flatten.length) = group.flatten := by
      have hmid := congrArg List.flatten (graphemes_mid heq)
      rwa [u.flatten_graphemes, hend] at hmid
    obtain ⟨hoverflow, hroom⟩ := h.overflow hpos (visibleWidth u group.flatten)
    have hwide := (h.done.overflow maxWidth (visibleWidth u group.flatten)).2
    have ih := fun s => @wrapSegments_fits rewrap groups (before ++ group) s hnext hrest
    rw [hend] at ih
    change ∃ s', wrapSegments u rewrap line maxWidth s (⟨group.flatten, before.flatten.length, isWordLike⟩ ::
      groupSegments (before.flatten.length + group.flatten.length) groups) = some s' ∧ _
    rw [wrapSegments]
    dsimp only
    have hle : before.flatten.length ≤ before.flatten.length + group.flatten.length := Nat.le_add_right _ _
    by_cases hw : maxWidth < visibleWidth u group.flatten
    · rw [if_pos hw]
      rcases hgroup with ⟨g, rfl, hg⟩ | ⟨hmarker, chunks, hchunks, htiles, hne, hfits⟩
      · rw [List.flatten_singleton] at hw
        omega
      · rw [hchunks]
        have hprintable := isPrintableAscii_of_isPasteMarker hmarker
        exact ih _ (hoverflow.pushAll (hwide hw) hprintable hsegment.symm (boundary_ascii heq hprintable) htiles hne hfits)
    · rw [if_neg hw]
      have hwidth : visibleWidth u group.flatten = graphemeWidths u group.flatten := by
        rcases hgroup with ⟨g, rfl, -⟩ | ⟨hmarker, -⟩
        · have hg : g ∈ u.graphemes line := by
            rw [heq]
            simp
          rw [List.flatten_singleton, graphemeWidths_singleton (graphemes_singleton_of_mem hg)]
        · have hprintable := isPrintableAscii_of_isPasteMarker hmarker
          rw [visibleWidth_ascii hprintable, graphemeWidths_ascii hprintable]
      exact ih _ (hoverflow.advance _ hle hpos hpos' (fun n hn => index_of_head? hn) (hsegment.symm ▸ hwidth)
        (hroom (Nat.not_lt.mp hw)))

theorem slice_isInfix (l : List ℕ) (a b : ℕ) : slice l a b <:+: l :=
  (List.drop_suffix a (l.take b)).isInfix.trans (List.take_prefix b l).isInfix

/-- Every chunk is a part of the line. -/
theorem Tiles.isInfix : ∀ {chunks : List TextChunk} {pos stop : ℕ}, Tiles line pos chunks stop → ∀ c ∈ chunks, c.text <:+: line
  | [], _, _, _, _, hc => absurd hc List.not_mem_nil
  | c :: chunks, pos, stop, ⟨_, _, htext, h⟩, c', hc => by
    rcases List.mem_cons.mp hc with rfl | hc
    · rw [htext]
      exact slice_isInfix line pos _
    · exact h.isInfix c' hc

/-! ### The calls inside of it -/

theorem segment_graphemeSegmenter (u : Unicode) (text : List ℕ) :
    (graphemeSegmenter u).segment text = groupSegments 0 ((u.graphemes text).map fun g => ([g], false)) := by
  unfold Segmenter.segment graphemeSegmenter groupSegments
  rw [List.map_map]
  refine congrArg (segmentsFrom 0) (List.map_congr_left fun g _ => ?_)
  rw [Function.comp_apply, List.flatten_singleton]

/-- A line that is too wide, where every segment fits or can be wrapped. -/
theorem wordWrapLine_fits {calls : ℕ} (hwidth : 0 < maxWidth) (hwide : maxWidth < visibleWidth u line)
    {groups : List (List (List ℕ) × Bool)} (heq : u.graphemes line = (groups.map Prod.fst).flatten)
    (hgroups : ∀ group ∈ groups, Wrappable u
      (fun g => wordWrapLine u calls g maxWidth ((graphemeSegmenter u).segment g)) maxWidth group.1) :
    ∃ chunks, wordWrapLine u (calls + 1) line maxWidth (groupSegments 0 groups) = some chunks ∧
      ∀ c ∈ chunks, graphemeWidths u c.text ≤ maxWidth := by
  have hne : line ≠ [] := by
    rintro rfl
    exact absurd hwide (Nat.not_lt_zero _)
  have hstart : WrapState.Fits u line maxWidth ⟨[], 0, 0, none, 0⟩ 0 :=
    ⟨⟨rfl, le_refl _, fun _ hnone => by cases hnone⟩, boundary_zero u line, by rw [slice_self, graphemeWidths_nil],
      Nat.zero_le _, (fun _ hnone => by cases hnone), fun c hc => absurd hc List.not_mem_nil⟩
  obtain ⟨s, hs, hfits⟩ := @wrapSegments_fits u line maxWidth _ groups [] _ heq hgroups hstart
  refine ⟨s.chunks ++ [⟨line.drop s.chunkStart, s.chunkStart, line.length⟩], ?_, fun c hc => ?_⟩
  · rw [wordWrapLine, if_neg (by simp [hne]; omega), if_neg (Nat.not_le.mpr hwide)]
    exact congrArg (Option.map _) hs
  · rcases List.mem_append.mp hc with hc | hc
    · exact hfits.chunks c hc
    · obtain rfl := List.mem_singleton.mp hc
      have hlast := hfits.currentWidth ▸ hfits.fits
      rwa [slice_length] at hlast

/-- A line that fits is one chunk. -/
theorem wordWrapLine_of_le (calls : ℕ) (hwidth : 0 < maxWidth) (h : visibleWidth u line ≤ maxWidth)
    (segments : List SegmentData) : wordWrapLine u (calls + 1) line maxWidth segments = some [⟨line, 0, line.length⟩] := by
  rw [wordWrapLine, if_pos h]
  split
  · next hempty =>
    obtain rfl := hempty.resolve_right (Nat.ne_of_gt hwidth)
    rfl
  · rfl

/-- A marker that does not fit is wrapped character by character. -/
theorem wrappable_of_isPasteMarker (hwidth : 0 < maxWidth) {group : List (List ℕ)}
    (hmarker : isPasteMarker group.flatten = true) :
    Wrappable u (fun g => wordWrapLine u 1 g maxWidth ((graphemeSegmenter u).segment g)) maxWidth group := by
  have hprintable := isPrintableAscii_of_isPasteMarker hmarker
  have hwrap : ∃ chunks, wordWrapLine u 1 group.flatten maxWidth ((graphemeSegmenter u).segment group.flatten) = some chunks ∧
      ∀ c ∈ chunks, graphemeWidths u c.text ≤ maxWidth := by
    by_cases h : visibleWidth u group.flatten ≤ maxWidth
    · refine ⟨_, wordWrapLine_of_le 0 hwidth h _, fun c hc => ?_⟩
      obtain rfl := List.mem_singleton.mp hc
      rwa [graphemeWidths_ascii hprintable, ← visibleWidth_ascii hprintable]
    · rw [segment_graphemeSegmenter]
      refine wordWrapLine_fits hwidth (Nat.not_le.mp h) ?_ fun group' hgroup' => Or.inl ?_
      · rw [List.map_map]
        exact (List.flatMap_singleton' _).symm
      · obtain ⟨g, hg, rfl⟩ := List.mem_map.mp hgroup'
        rw [u.graphemes_ascii _ hprintable] at hg
        obtain ⟨c, hc, rfl⟩ := List.mem_map.mp hg
        have hc' : isPrintableAscii [c] = true := isPrintableAscii_of_subset (List.cons_subset.mpr ⟨hc, List.nil_subset _⟩) hprintable
        exact ⟨[c], rfl, (visibleWidth_ascii hc').trans_le hwidth⟩
  obtain ⟨chunks, hchunks, hfits⟩ := hwrap
  obtain ⟨htiles, hne⟩ := wordWrapLine_tiles 1 hwidth (spaced_segment (graphemeSegmenter u) group.flatten) hchunks
  exact Or.inr ⟨hmarker, chunks, hchunks, htiles, hne, hfits⟩

/-- The loop only comes back if the segments that are too wide can be wrapped. -/
theorem exists_rewrap_of_wrapSegments {rewrap : List ℕ → Option (List TextChunk)} :
    ∀ {segments : List SegmentData} {s s' : WrapState}, wrapSegments u rewrap line maxWidth s segments = some s' →
      ∀ seg ∈ segments, maxWidth < visibleWidth u seg.segment → ∃ chunks, rewrap seg.segment = some chunks
  | [], _, _, _, _, hmem, _ => absurd hmem List.not_mem_nil
  | seg :: rest, s, s', h, seg', hmem, hwide => by
    rw [wrapSegments] at h
    split at h
    · obtain ⟨chunks, hchunks, hrun⟩ := Option.bind_eq_some_iff.mp h
      rcases List.mem_cons.mp hmem with rfl | hmem
      · exact ⟨chunks, hchunks⟩
      · exact exists_rewrap_of_wrapSegments hrun seg' hmem hwide
    · next hfits =>
      rcases List.mem_cons.mp hmem with rfl | hmem
      · exact absurd hwide hfits
      · exact exists_rewrap_of_wrapSegments h seg' hmem hwide

/-- **A grapheme that is too wide is wrapped for ever.** -/
theorem wordWrapLine_wide {g : List ℕ} (hg : u.graphemes g = [g]) (hwidth : 0 < maxWidth) (hwide : maxWidth < visibleWidth u g) :
    ∀ calls, wordWrapLine u calls g maxWidth ((graphemeSegmenter u).segment g) = none
  | 0 => rfl
  | calls + 1 => by
    have ih := wordWrapLine_wide hg hwidth hwide calls
    have hne : g ≠ [] := by
      rintro rfl
      exact absurd hwide (Nat.not_lt_zero _)
    rw [wordWrapLine, if_neg (by simp [hne]; omega), if_neg (Nat.not_le.mpr hwide), Option.map_eq_none_iff]
    cases hrun : wrapSegments u _ g maxWidth ⟨[], 0, 0, none, 0⟩ ((graphemeSegmenter u).segment g) with
    | none => rfl
    | some s =>
      have hmem : ⟨g, 0, false⟩ ∈ (graphemeSegmenter u).segment g := by
        rw [segment_graphemeSegmenter, hg]
        simp [groupSegments, segmentsFrom]
      obtain ⟨chunks, hchunks⟩ := exists_rewrap_of_wrapSegments hrun _ hmem hwide
      rw [ih] at hchunks
      cases hchunks

/-! ### Exactly when word wrap terminates -/

theorem mem_flatten_of_eq_singleton {groups : List (List (List ℕ) × Bool)} {group : List (List ℕ) × Bool} {g : List ℕ}
    (hgroup : group ∈ groups) (hg : group.1 = [g]) : g ∈ (groups.map Prod.fst).flatten :=
  List.mem_flatten.mpr ⟨group.1, List.mem_map_of_mem hgroup, hg ▸ List.mem_singleton_self g⟩

/-- The segments of a partition come one after the other. -/
theorem IsSegmentation.spaced {segments : List SegmentData} (h : IsSegmentation u line segments) : Spaced line 0 segments := by
  obtain ⟨groups, hflatten, hgroups, rfl⟩ := h
  refine spaced_segmentsFrom (groups.map fun group => (group.1.flatten, group.2)) [] (fun s hs => ?_) ?_
  · obtain ⟨group, hgroup, rfl⟩ := List.mem_map.mp hs
    rcases hgroups group hgroup with ⟨g, hg⟩ | hmarker
    · have hmem : g ∈ u.graphemes line := hflatten ▸ mem_flatten_of_eq_singleton hgroup hg
      dsimp only
      rw [hg, List.flatten_singleton]
      exact u.graphemes_ne_nil line g hmem
    · dsimp only
      intro hnil
      rw [hnil] at hmarker
      cases hmarker
  · have hmap : (groups.map fun group => (group.1.flatten, group.2)).map Prod.fst = (groups.map Prod.fst).map List.flatten := by
      rw [List.map_map, List.map_map]
      rfl
    rw [List.nil_append, hmap, ← List.flatten_flatten, hflatten, u.flatten_graphemes]

/-- `wordWrapLine` meets its specification: it terminates, its chunks make up the line, and they fit if
the graphemes do. -/
def WrapsExactly (u : Unicode) (line : List ℕ) (maxWidth : ℕ) (segments : List SegmentData) : Prop :=
  ∃ chunks, (∀ chunks', WrapsTo u line maxWidth segments chunks' ↔ chunks' = chunks) ∧
    chunks ≠ [] ∧ Tiles line 0 chunks line.length ∧
      ((∀ g ∈ u.graphemes line, visibleWidth u g ≤ maxWidth) → ∀ c ∈ chunks, visibleWidth u c.text ≤ maxWidth)

/-- The graphemes of a line are a segmentation of it. -/
theorem isSegmentation_graphemes (u : Unicode) (line : List ℕ) : IsSegmentation u line ((graphemeSegmenter u).segment line) := by
  refine ⟨(u.graphemes line).map fun g => ([g], false), ?_, fun group hgroup => Or.inl ?_, segment_graphemeSegmenter u line⟩
  · rw [List.map_map]
    exact List.flatMap_singleton' _
  · obtain ⟨g, -, rfl⟩ := List.mem_map.mp hgroup
    exact ⟨g, rfl⟩

/-- **Word wrap is exact if and only if the line fits, or all of its graphemes do.** The last hypothesis is
about the Unicode data: an escape code or a tab inside of a part of the line does not make it wider than
its graphemes are one by one. -/
theorem wordWrapLine_exact_iff (hwidth : 0 < maxWidth) {segments : List SegmentData} (hsegments : IsSegmentation u line segments)
    (hjoin : ∀ part, part <:+: line → 0x09 ∈ part ∨ ESC ∈ part → visibleWidth u part ≤ graphemeWidths u part) :
    WrapsExactly u line maxWidth segments ↔
      visibleWidth u line ≤ maxWidth ∨ ∀ g ∈ u.graphemes line, visibleWidth u g ≤ maxWidth := by
  have hspaced := hsegments.spaced
  obtain ⟨groups, hflatten, hgroups, rfl⟩ := hsegments
  have hexact : ∀ {calls chunks}, wordWrapLine u calls line maxWidth (groupSegments 0 groups) = some chunks →
      ((∀ g ∈ u.graphemes line, visibleWidth u g ≤ maxWidth) → ∀ c ∈ chunks, visibleWidth u c.text ≤ maxWidth) →
        WrapsExactly u line maxWidth (groupSegments 0 groups) := by
    intro calls chunks hrun hfits
    obtain ⟨htiles, hne⟩ := wordWrapLine_tiles calls hwidth hspaced hrun
    exact ⟨chunks, fun chunks' => ⟨fun h => WrapsTo.unique h ⟨calls, hrun⟩, fun h => h ▸ ⟨calls, hrun⟩⟩, hne, htiles, hfits⟩
  constructor
  · rintro ⟨chunks, hruns, -⟩
    by_contra! hnot
    obtain ⟨hwide, g, hg, hgwide⟩ := hnot
    -- the grapheme is a segment, since the characters of markers are not wide
    obtain ⟨group, hgroup, hggroup⟩ : ∃ group ∈ groups, g ∈ group.1 := by
      rw [← hflatten, List.mem_flatten] at hg
      obtain ⟨l, hl, hgl⟩ := hg
      obtain ⟨group, hgroup, rfl⟩ := List.mem_map.mp hl
      exact ⟨group, hgroup, hgl⟩
    have hgraphemes := graphemes_singleton_of_mem hg
    have hsingle : group.1 = [g] := by
      rcases hgroups group hgroup with ⟨g', hg'⟩ | hmarker
      · rw [hg', List.mem_singleton] at hggroup
        rw [hg', hggroup]
      · have hprintable := isPrintableAscii_of_subset
          (fun c hc => List.mem_flatten_of_mem hggroup hc) (isPrintableAscii_of_isPasteMarker hmarker)
        rw [u.graphemes_ascii g hprintable] at hgraphemes
        have hlength := congrArg List.length hgraphemes
        rw [List.length_map, List.length_singleton] at hlength
        rw [visibleWidth_ascii hprintable] at hgwide
        omega
    obtain ⟨calls, hrun⟩ := (hruns chunks).mpr rfl
    cases calls with
    | zero => cases hrun
    | succ calls =>
      have hne : line ≠ [] := by
        rintro rfl
        exact absurd hwide (Nat.not_lt_zero _)
      rw [wordWrapLine, if_neg (by simp [hne]; omega), if_neg (Nat.not_le.mpr hwide)] at hrun
      obtain ⟨s, hs, -⟩ := Option.map_eq_some_iff.mp hrun
      obtain ⟨seg, hseg, rfl⟩ : ∃ seg ∈ groupSegments 0 groups, seg.segment = g :=
        exists_segment_of_mem hgroup hsingle
      obtain ⟨chunks', hchunks'⟩ := exists_rewrap_of_wrapSegments hs seg hseg hgwide
      rw [wordWrapLine_wide hgraphemes hwidth hgwide] at hchunks'
      cases hchunks'
  · intro h
    by_cases hfits : visibleWidth u line ≤ maxWidth
    · refine hexact (wordWrapLine_of_le 0 hwidth hfits _) fun _ c hc => ?_
      obtain rfl := List.mem_singleton.mp hc
      exact hfits
    · have hall := h.resolve_left hfits
      have hwrappable : ∀ group ∈ groups, Wrappable u
          (fun g => wordWrapLine u 1 g maxWidth ((graphemeSegmenter u).segment g)) maxWidth group.1 := by
        intro group hgroup
        rcases hgroups group hgroup with ⟨g, hg⟩ | hmarker
        · have hmem : g ∈ u.graphemes line := hflatten ▸ mem_flatten_of_eq_singleton hgroup hg
          exact Or.inl ⟨g, hg, hall g hmem⟩
        · exact wrappable_of_isPasteMarker hwidth hmarker
      obtain ⟨chunks, hrun, hchunks⟩ := wordWrapLine_fits hwidth (Nat.not_le.mp hfits) hflatten.symm hwrappable
      obtain ⟨htiles, -⟩ := wordWrapLine_tiles 2 hwidth hspaced hrun
      refine hexact hrun fun _ c hc => ?_
      by_cases hplain : 0x09 ∈ c.text ∨ ESC ∈ c.text
      · exact (hjoin c.text (htiles.isInfix c hc) hplain).trans (hchunks c hc)
      · rw [not_or] at hplain
        rw [visibleWidth_eq_graphemeWidths hplain.1 hplain.2]
        exact hchunks c hc

/-- Two letters in one column. -/
theorem wordWrapLine_exact_letters :
    WrapsExactly Unicode.uncombined (ascii "ab") 1 ((graphemeSegmenter Unicode.uncombined).segment (ascii "ab")) := by
  refine (wordWrapLine_exact_iff (by decide) (isSegmentation_graphemes _ _) fun part hpart hplain => ?_).mpr (Or.inr (by decide))
  have hnotin : ∀ c ∈ ascii "ab", c ≠ 0x09 ∧ c ≠ ESC := by decide
  rcases hplain with hc | hc
  · exact absurd rfl (hnotin _ (hpart.subset hc)).1
  · exact absurd rfl (hnotin _ (hpart.subset hc)).2

/-- An ideograph of two columns in one column. -/
theorem wordWrapLine_wide_ideograph :
    IsSegmentation Unicode.uncombined [0x597d] ((graphemeSegmenter Unicode.uncombined).segment [0x597d]) ∧
      ¬ WrapsExactly Unicode.uncombined [0x597d] 1 ((graphemeSegmenter Unicode.uncombined).segment [0x597d]) := by
  refine ⟨isSegmentation_graphemes _ _, fun ⟨chunks, hruns, _⟩ => ?_⟩
  obtain ⟨calls, hrun⟩ := (hruns chunks).mpr rfl
  have hwide : 1 < visibleWidth Unicode.uncombined [0x597d] := by decide
  rw [wordWrapLine_wide rfl Nat.one_pos hwide] at hrun
  cases hrun

end Trek.Editor
