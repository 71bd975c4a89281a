/-
# Paste markers and segments

A large paste stands in the text of the editor as a marker, `[paste #1 +123 lines]`, which the cursor,
deletion and word wrap treat as one unit. `segmentWithMarkers` merges the segments of a marker whose
paste is stored; what it returns are parts of the text that come one after the other (`Spaced`), though
not always all of it: a grapheme that reaches over the border of a marker is lost.
-/
import Trek.Lib.Slice
import Trek.Tui.Width

namespace Trek.Editor

open Trek.Tui

/-- `Intl.SegmentData`. -/
structure SegmentData where
  segment : List ℕ
  index : ℕ
  isWordLike : Bool
  deriving DecidableEq

/-- An `Intl.Segmenter`: it takes a text apart into segments, and says which ones are words. -/
structure Segmenter where
  cut : List ℕ → List (List ℕ × Bool)
  flatten_cut : ∀ text, ((cut text).map Prod.fst).flatten = text
  cut_ne_nil : ∀ text, ∀ s ∈ cut text, s.1 ≠ []

/-- Segments and where they start. -/
def segmentsFrom (index : ℕ) : List (List ℕ × Bool) → List SegmentData
  | [] => []
  | (segment, isWordLike) :: rest => ⟨segment, index, isWordLike⟩ :: segmentsFrom (index + segment.length) rest

/-- `segmenter.segment(text)`. -/
def Segmenter.segment (segmenter : Segmenter) (text : List ℕ) : List SegmentData := segmentsFrom 0 (segmenter.cut text)

/-- `graphemeSegmenter`. -/
def graphemeSegmenter (u : Unicode) : Segmenter where
  cut := fun text => (u.graphemes text).map (·, false)
  flatten_cut := fun text => by
    rw [List.map_map]
    exact (congrArg List.flatten (List.map_id _)).trans (u.flatten_graphemes text)
  cut_ne_nil := fun text s hs => by
    obtain ⟨g, hg, rfl⟩ := List.mem_map.mp hs
    exact u.graphemes_ne_nil text g hg

/-! ### The marker of a paste -/

/-- The code units of an ASCII text. -/
def ascii (text : String) : List ℕ := text.toList.map Char.toNat

/-- `[paste #`. -/
def MARKER_START : List ℕ := ascii "[paste #"

/-- ` lines]`. -/
def LINES_END : List ℕ := ascii " lines]"

/-- ` chars]`. -/
def CHARS_END : List ℕ := ascii " chars]"

/-- The length of `\d+` followed by a text. -/
def digitsLength (stop text : List ℕ) : Option ℕ :=
  let digits := text.takeWhile isDigit
  if digits ≠ [] ∧ stop.isPrefixOf (text.drop digits.length) then some (digits.length + stop.length) else none

/-- The length of `( (\+\d+ lines|\d+ chars))?\]`. -/
def markerTailLength : List ℕ → Option ℕ
  | 0x5d :: _ => some 1
  | 0x20 :: 0x2b :: text => (digitsLength LINES_END text).map (· + 2)
  | 0x20 :: text => (digitsLength CHARS_END text).map (· + 1)
  | _ => none

/-- `\[paste #(\d+)( (\+\d+ lines|\d+ chars))?\]` at the start of a text: its digits and its length. -/
def matchMarker (text : List ℕ) : Option (List ℕ × ℕ) :=
  if MARKER_START.isPrefixOf text then
    let rest := text.drop MARKER_START.length
    let digits := rest.takeWhile isDigit
    if digits = [] then none
    else (markerTailLength (rest.drop digits.length)).map fun tail => (digits, MARKER_START.length + digits.length + tail)
  else none

/-- `Number.parseInt` of digits. -/
def parseDigits (digits : List ℕ) : ℕ := digits.foldl (fun n c => 10 * n + (c - 0x30)) 0

/-- `isPasteMarker`. -/
def isPasteMarker (segment : List ℕ) : Bool :=
  10 ≤ segment.length && ((matchMarker segment).any fun m => m.2 = segment.length)

/-- A marker in a text. -/
structure Marker where
  id : ℕ
  start : ℕ
  stop : ℕ
  deriving DecidableEq

/-- `text.matchAll(PASTE_MARKER_REGEX)`, of a text that starts at `index` without as many characters as
are left of a match. -/
def matchAllMarkers : ℕ → ℕ → List ℕ → List Marker
  | _, _, [] => []
  | skip + 1, index, _ :: text => matchAllMarkers skip (index + 1) text
  | 0, index, c :: text =>
    match matchMarker (c :: text) with
    | some (digits, length) => ⟨parseDigits digits, index, index + length⟩ :: matchAllMarkers (length - 1) (index + 1) text
    | none => matchAllMarkers 0 (index + 1) text

/-- The loop of `segmentWithMarkers` over the base segments. -/
def mergeSegments (text : List ℕ) : List Marker → List SegmentData → List SegmentData
  | _, [] => []
  | markers, seg :: rest =>
    let markers := markers.dropWhile fun marker => marker.stop ≤ seg.index
    match markers.head? with
    | some marker =>
      if marker.start ≤ seg.index ∧ seg.index < marker.stop then
        if seg.index = marker.start then
          ⟨slice text marker.start marker.stop, marker.start, false⟩ :: mergeSegments text markers rest
        else mergeSegments text markers rest
      else seg :: mergeSegments text markers rest
    | none => seg :: mergeSegments text markers rest

/-- `text.includes("[paste #")`. -/
def includesMarkerStart (text : List ℕ) : Bool := text.tails.any MARKER_START.isPrefixOf

/-- `segmentWithMarkers`. -/
def segmentWithMarkers (text : List ℕ) (baseSegmenter : Segmenter) (validIds : List ℕ) : List SegmentData :=
  if validIds = [] || !includesMarkerStart text then baseSegmenter.segment text
  else
    let markers := (matchAllMarkers 0 0 text).filter fun marker => marker.id ∈ validIds
    if markers = [] then baseSegmenter.segment text else mergeSegments text markers (baseSegmenter.segment text)

/-- `isWhitespaceChar`: `/\s/` matches somewhere. -/
def isWhitespaceChar (text : List ℕ) : Bool :=
  text.any fun c => c ∈ [0x09, 0x0a, 0x0b, 0x0c, 0x0d, 0x20, 0xa0, 0x1680, 0x2028, 0x2029, 0x202f, 0x205f, 0x3000, 0xfeff] ||
    0x2000 ≤ c && c ≤ 0x200a

/-! ### Segments one after the other -/

/-- Segments are parts of the text, one after the other from a position on. -/
def Spaced (text : List ℕ) : ℕ → List SegmentData → Prop
  | _, [] => True
  | pos, s :: rest => pos ≤ s.index ∧ s.segment ≠ [] ∧ s.index + s.segment.length ≤ text.length ∧
      s.segment = slice text s.index (s.index + s.segment.length) ∧ Spaced text (s.index + s.segment.length) rest

variable {text : List ℕ}

/-- No segment is longer than the text. -/
theorem Spaced.length_le : ∀ {pos : ℕ} {segments : List SegmentData}, Spaced text pos segments →
    ∀ s ∈ segments, s.segment.length ≤ text.length
  | _, s :: rest, h, s', hmem => by
    rcases List.mem_cons.mp hmem with rfl | hmem
    · exact (Nat.le_add_left _ _).trans h.2.2.1
    · exact h.2.2.2.2.length_le s' hmem

theorem spaced_segmentsFrom : ∀ (cut : List (List ℕ × Bool)) (front : List ℕ), (∀ s ∈ cut, s.1 ≠ []) →
    front ++ (cut.map Prod.fst).flatten = text → Spaced text front.length (segmentsFrom front.length cut)
  | [], _, _, _ => trivial
  | (segment, isWordLike) :: rest, front, hne, htext => by
    obtain ⟨hsegment, hrest⟩ := List.forall_mem_cons.mp hne
    rw [List.map_cons, List.flatten_cons] at htext
    have ih := spaced_segmentsFrom rest (front ++ segment) hrest (by rw [List.append_assoc, htext])
    rw [List.length_append] at ih
    refine ⟨le_refl _, hsegment, ?_, ?_, ih⟩
    · rw [← htext]
      simp only [List.length_append]
      omega
    · rw [← htext]
      exact (slice_append_append front segment _).symm

theorem spaced_segment (segmenter : Segmenter) (text : List ℕ) : Spaced text 0 (segmenter.segment text) :=
  spaced_segmentsFrom (segmenter.cut text) [] (segmenter.cut_ne_nil text) (segmenter.flatten_cut text)

theorem digitsLength_le {stop text : List ℕ} {length : ℕ} (h : digitsLength stop text = some length) : length ≤ text.length := by
  unfold digitsLength at h
  dsimp only at h
  split at h
  · next hstop =>
    obtain rfl := Option.some.inj h
    have hprefix := (List.isPrefixOf_iff_prefix.mp hstop.2).length_le
    have hdigits := (List.takeWhile_prefix isDigit (l := text)).length_le
    rw [List.length_drop] at hprefix
    omega
  · cases h

theorem markerTailLength_bounds {text : List ℕ} {length : ℕ} (h : markerTailLength text = some length) :
    0 < length ∧ length ≤ text.length := by
  unfold markerTailLength at h
  split at h
  · obtain rfl := Option.some.inj h
    simp
  · obtain ⟨n, hn, rfl⟩ := Option.map_eq_some_iff.mp h
    have := digitsLength_le hn
    simp only [List.length_cons]
    omega
  · obtain ⟨n, hn, rfl⟩ := Option.map_eq_some_iff.mp h
    have := digitsLength_le hn
    simp only [List.length_cons]
    omega
  · cases h

theorem matchMarker_bounds {text digits : List ℕ} {length : ℕ} (h : matchMarker text = some (digits, length)) :
    0 < length ∧ length ≤ text.length := by
  unfold matchMarker at h
  split at h
  · next hstart =>
    have hprefix := (List.isPrefixOf_iff_prefix.mp hstart).length_le
    dsimp only at h
    split at h
    · cases h
    · obtain ⟨tail, htail, heq⟩ := Option.map_eq_some_iff.mp h
      obtain ⟨-, rfl⟩ := Prod.mk.inj heq
      have hbounds := markerTailLength_bounds htail
      have hdigits := (List.takeWhile_prefix isDigit (l := text.drop MARKER_START.length)).length_le
      simp only [List.length_drop] at hbounds hdigits
      omega
  · cases h

/-- Markers are not empty, and end in the text. -/
theorem matchAllMarkers_bounds : ∀ (text : List ℕ) (skip index : ℕ), ∀ marker ∈ matchAllMarkers skip index text,
    marker.start < marker.stop ∧ marker.stop ≤ index + text.length
  | [], _, _ => fun _ h => by
    unfold matchAllMarkers at h
    cases h
  | c :: text, skip + 1, index => fun marker hmem => by
    have := matchAllMarkers_bounds text skip (index + 1) marker hmem
    rw [List.length_cons]
    omega
  | c :: text, 0, index => fun marker hmem => by
    rw [matchAllMarkers] at hmem
    rw [List.length_cons]
    split at hmem
    · next digits length hmatch =>
      have hbounds := matchMarker_bounds hmatch
      rw [List.length_cons] at hbounds
      rcases List.mem_cons.mp hmem with rfl | hmem
      · dsimp only
        omega
      · have := matchAllMarkers_bounds text _ (index + 1) marker hmem
        omega
    · have := matchAllMarkers_bounds text _ (index + 1) marker hmem
      omega

/-- The merged segments come one after the other. After the segment of a marker nothing is emitted up to
the end of the marker. -/
theorem spaced_mergeSegments : ∀ (cut : List (List ℕ × Bool)) (front : List ℕ) (markers : List Marker) (pos : ℕ),
    (∀ s ∈ cut, s.1 ≠ []) → front ++ (cut.map Prod.fst).flatten = text →
    (∀ marker ∈ markers, marker.start < marker.stop ∧ marker.stop ≤ text.length) →
    (pos ≤ front.length ∨ ∃ marker, markers.head? = some marker ∧ marker.start < front.length ∧ pos ≤ marker.stop) →
    Spaced text pos (mergeSegments text markers (segmentsFrom front.length cut))
  | [], _, _, _, _, _, _, _ => trivial
  | (segment, isWordLike) :: rest, front, markers, pos, hne, htext, hmarkers, hpos => by
    obtain ⟨hsegment, hrest⟩ := List.forall_mem_cons.mp hne
    rw [List.map_cons, List.flatten_cons] at htext
    have hfront : (front ++ segment).length = front.length + segment.length := List.length_append
    have hlong : 0 < segment.length := List.length_pos_iff.mpr hsegment
    have ih := fun markers' pos' => spaced_mergeSegments rest (front ++ segment) markers' pos' hrest (by rw [List.append_assoc, htext])
    rw [hfront] at ih
    rw [segmentsFrom, mergeSegments]
    dsimp only
    -- where a marker is not over, nothing was emitted behind its start
    have hpos' : pos ≤ front.length ∨ ∃ marker, (markers.dropWhile (·.stop ≤ front.length)).head? = some marker ∧
        marker.start < front.length ∧ pos ≤ marker.stop := by
      rcases hpos with hle | ⟨marker, hhead, hstart, hstop⟩
      · exact Or.inl hle
      · by_cases hover : marker.stop ≤ front.length
        · exact Or.inl (hstop.trans hover)
        · refine Or.inr ⟨marker, ?_, hstart, hstop⟩
          cases markers with
          | nil => cases hhead
          | cons m markers =>
            obtain rfl := Option.some.inj hhead
            rw [List.dropWhile_cons_of_neg (by simpa using hover)]
            rfl
    have hkept : ∀ marker ∈ markers.dropWhile (·.stop ≤ front.length), marker.start < marker.stop ∧ marker.stop ≤ text.length :=
      fun marker hmem => hmarkers marker ((List.dropWhile_sublist _).subset hmem)
    generalize hleft : markers.dropWhile (·.stop ≤ front.length) = left at hpos' hkept
    have hplain : (∀ marker, left.head? = some marker → ¬(marker.start ≤ front.length ∧ front.length < marker.stop)) →
        Spaced text pos (⟨segment, front.length, isWordLike⟩ ::
          mergeSegments text left (segmentsFrom (front.length + segment.length) rest)) := by
      intro houtside
      have hle : pos ≤ front.length := by
        rcases hpos' with hle | ⟨marker, hhead, hstart, hstop⟩
        · exact hle
        · have := houtside marker hhead
          omega
      refine ⟨hle, hsegment, ?_, ?_, ih left _ hkept (Or.inl (le_refl _))⟩
      · rw [← htext]
        simp only [List.length_append]
        omega
      · rw [← htext]
        exact (slice_append_append front segment _).symm
    split
    · next marker hhead =>
      have hmarker := hkept marker (List.mem_of_head? hhead)
      split
      · next hinside =>
        split
        · next hstart =>
          have hlength : (slice text marker.start marker.stop).length = marker.stop - marker.start := length_slice hmarker.2
          have hstop : marker.start + (marker.stop - marker.start) = marker.stop := by omega
          have hle : pos ≤ marker.start := by
            rcases hpos' with hle | ⟨m, hm, hmstart, -⟩
            · omega
            · obtain rfl := Option.some.inj (hhead.symm.trans hm)
              omega
          refine ⟨hle, ?_, ?_, ?_, ?_⟩
          · rw [← List.length_pos_iff, hlength]
            omega
          · rw [hlength, hstop]
            exact hmarker.2
          · rw [hlength, hstop]
          · rw [hlength, hstop]
            exact ih left _ hkept (Or.inr ⟨marker, hhead, by omega, le_refl _⟩)
        · next hstart =>
          refine ih left pos hkept ?_
          rcases hpos' with hle | ⟨m, hm, hmstart, hmstop⟩
          · exact Or.inl (by omega)
          · exact Or.inr ⟨m, hm, by omega, hmstop⟩
      · next houtside =>
        refine hplain fun m hm => ?_
        obtain rfl := Option.some.inj (hhead.symm.trans hm)
        exact houtside
    · next hhead => exact hplain fun m hm => by rw [hhead] at hm; cases hm

/-- **Segments with markers come one after the other.** -/
theorem spaced_segmentWithMarkers (text : List ℕ) (baseSegmenter : Segmenter) (validIds : List ℕ) :
    Spaced text 0 (segmentWithMarkers text baseSegmenter validIds) := by
  unfold segmentWithMarkers
  split
  · exact spaced_segment baseSegmenter text
  · dsimp only
    split
    · exact spaced_segment baseSegmenter text
    · refine spaced_mergeSegments (baseSegmenter.cut text) [] _ 0 (baseSegmenter.cut_ne_nil text)
        (baseSegmenter.flatten_cut text) (fun marker hmem => ?_) (Or.inl (Nat.zero_le _))
      have hbounds := matchAllMarkers_bounds text 0 0 marker (List.mem_filter.mp hmem).1
      rwa [Nat.zero_add] at hbounds

end Trek.Editor
