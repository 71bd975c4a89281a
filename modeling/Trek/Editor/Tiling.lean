/-
# When segments with markers tile the text

`segmentWithMarkers` drops what a base segment has behind the border of a marker. Its segments tile the
text, with every valid marker as one of them, exactly if the borders of these markers are borders of base
segments (`exact_iff`).
-/
import Trek.Editor.Markers

namespace Trek.Editor

/-- Segments that are not empty, each starting where the one before it ends, from a position to the end
of the text. -/
def Contiguous (text : List ℕ) : ℕ → List SegmentData → Prop
  | pos, [] => pos = text.length
  | pos, s :: rest => s.index = pos ∧ s.segment ≠ [] ∧ s.segment = slice text pos (pos + s.segment.length) ∧
      Contiguous text (pos + s.segment.length) rest

/-- The markers of a text whose paste is stored. -/
def validMarkers (text : List ℕ) (validIds : List ℕ) : List Marker :=
  (matchAllMarkers 0 0 text).filter fun marker => marker.id ∈ validIds

/-- A marker is one of the segments. -/
def IsSegment (marker : Marker) (segments : List SegmentData) : Prop :=
  ∃ s ∈ segments, s.index = marker.start ∧ s.index + s.segment.length = marker.stop

/-- A position is a border of segments: one of them starts there, or the text ends. -/
def IsBorder (text : List ℕ) (segments : List SegmentData) (pos : ℕ) : Prop :=
  pos = text.length ∨ ∃ s ∈ segments, s.index = pos

variable {text : List ℕ}

/-- Where a segment of a tiling ends is a border. -/
theorem Contiguous.isBorder : ∀ {pos : ℕ} {segments : List SegmentData}, Contiguous text pos segments →
    IsBorder text segments pos ∧ ∀ s ∈ segments, IsBorder text segments (s.index + s.segment.length)
  | _, [], h => ⟨Or.inl h, fun _ hs => absurd hs List.not_mem_nil⟩
  | _, s :: rest, ⟨hindex, _, _, hrest⟩ => by
    obtain ⟨hnext, hends⟩ := hrest.isBorder
    have hmore : ∀ {p : ℕ}, IsBorder text rest p → IsBorder text (s :: rest) p := fun h =>
      h.imp_right fun ⟨s', hs', hp⟩ => ⟨s', List.mem_cons_of_mem _ hs', hp⟩
    refine ⟨Or.inr ⟨s, List.mem_cons_self, hindex⟩, fun s' hs' => ?_⟩
    rcases List.mem_cons.mp hs' with rfl | hs'
    · rw [hindex]
      exact hmore hnext
    · exact hmore (hends s' hs')

theorem contiguous_segmentsFrom : ∀ (cut : List (List ℕ × Bool)) (front : List ℕ), (∀ s ∈ cut, s.1 ≠ []) →
    front ++ (cut.map Prod.fst).flatten = text → Contiguous text front.length (segmentsFrom front.length cut)
  | [], front, _, htext => by
    rw [← htext]
    exact congrArg List.length (List.append_nil front).symm
  | (segment, isWordLike) :: rest, front, hne, htext => by
    obtain ⟨hsegment, hrest⟩ := List.forall_mem_cons.mp hne
    rw [List.map_cons, List.flatten_cons] at htext
    have ih := contiguous_segmentsFrom rest (front ++ segment) hrest (by rw [List.append_assoc, htext])
    rw [List.length_append] at ih
    refine ⟨rfl, hsegment, ?_, ih⟩
    rw [← htext]
    exact (slice_append_append front segment _).symm

theorem contiguous_segment (segmenter : Segmenter) (text : List ℕ) : Contiguous text 0 (segmenter.segment text) :=
  contiguous_segmentsFrom (segmenter.cut text) [] (segmenter.cut_ne_nil text) (segmenter.flatten_cut text)

/-! ### The markers of a text -/

/-- Markers stand one after the other. -/
theorem matchAllMarkers_sorted : ∀ (text : List ℕ) (skip index : ℕ),
    (∀ marker ∈ matchAllMarkers skip index text, index + skip ≤ marker.start) ∧
      (matchAllMarkers skip index text).Pairwise fun a b => a.stop ≤ b.start
  | [], skip, index => by
    unfold matchAllMarkers
    exact ⟨fun _ h => absurd h List.not_mem_nil, .nil⟩
  | c :: text, skip + 1, index => by
    obtain ⟨hstart, hsorted⟩ := matchAllMarkers_sorted text skip (index + 1)
    refine ⟨fun marker hmem => ?_, hsorted⟩
    have := hstart marker hmem
    omega
  | c :: text, 0, index => by
    rw [matchAllMarkers]
    split
    · next digits length hmatch =>
      obtain ⟨hstart, hsorted⟩ := matchAllMarkers_sorted text (length - 1) (index + 1)
      have hlength := (matchMarker_bounds hmatch).1
      refine ⟨fun marker hmem => ?_, List.pairwise_cons.mpr ⟨fun marker hmem => ?_, hsorted⟩⟩
      · rcases List.mem_cons.mp hmem with rfl | hmem
        · exact Nat.le_refl _
        · have := hstart marker hmem
          omega
      · have := hstart marker hmem
        dsimp only
        omega
    · obtain ⟨hstart, hsorted⟩ := matchAllMarkers_sorted text 0 (index + 1)
      refine ⟨fun marker hmem => ?_, hsorted⟩
      have := hstart marker hmem
      omega

/-- A text without the start of a marker has none. -/
theorem matchAllMarkers_eq_nil : ∀ (text : List ℕ) (skip index : ℕ), includesMarkerStart text = false →
    matchAllMarkers skip index text = []
  | [], _, _, _ => by unfold matchAllMarkers; rfl
  | c :: text, skip, index, h => by
    rw [includesMarkerStart, List.tails_cons, List.any_cons, Bool.or_eq_false_iff] at h
    have hrest := fun skip => matchAllMarkers_eq_nil text skip (index + 1) h.2
    cases skip with
    | succ skip => exact hrest skip
    | zero =>
      have hnone : matchMarker (c :: text) = none := if_neg (by rw [h.1]; exact Bool.false_ne_true)
      rw [matchAllMarkers, hnone]
      exact hrest 0

theorem validMarkers_sorted (text validIds : List ℕ) :
    (validMarkers text validIds).Pairwise fun a b => a.stop ≤ b.start :=
  (matchAllMarkers_sorted text 0 0).2.sublist List.filter_sublist

theorem validMarkers_bounds {validIds : List ℕ} : ∀ marker ∈ validMarkers text validIds,
    marker.start < marker.stop ∧ marker.stop ≤ text.length := fun marker hmem => by
  have h := matchAllMarkers_bounds text 0 0 marker (List.mem_filter.mp hmem).1
  rwa [Nat.zero_add] at h

/-- Without valid markers the base segments are returned, else they are merged. -/
theorem segmentWithMarkers_cases (text : List ℕ) (baseSegmenter : Segmenter) (validIds : List ℕ) :
    (validMarkers text validIds = [] ∧ segmentWithMarkers text baseSegmenter validIds = baseSegmenter.segment text) ∨
      segmentWithMarkers text baseSegmenter validIds =
        mergeSegments text (validMarkers text validIds) (baseSegmenter.segment text) := by
  unfold segmentWithMarkers
  split
  · rename_i hnone
    refine Or.inl ⟨?_, rfl⟩
    rw [Bool.or_eq_true, decide_eq_true_eq, Bool.not_eq_true'] at hnone
    rcases hnone with rfl | hnone
    · exact List.filter_eq_nil_iff.mpr fun _ _ => by simp
    · rw [validMarkers, matchAllMarkers_eq_nil text 0 0 hnone]
      rfl
  · dsimp only
    split
    · rename_i hnone
      exact Or.inl ⟨hnone, rfl⟩
    · exact Or.inr rfl

/-! ### Merging -/

/-- A merged segment starts where a base segment starts. -/
theorem exists_base_of_mem_merge : ∀ {markers : List Marker} {base : List SegmentData},
    ∀ s ∈ mergeSegments text markers base, ∃ s' ∈ base, s'.index = s.index
  | _, [], _, hs => by
    unfold mergeSegments at hs
    exact absurd hs List.not_mem_nil
  | markers, seg :: rest, s, hs => by
    have hrest : s ∈ mergeSegments text (markers.dropWhile fun marker => marker.stop ≤ seg.index) rest →
        ∃ s' ∈ seg :: rest, s'.index = s.index := fun hs => by
      obtain ⟨s', hs', hindex⟩ := exists_base_of_mem_merge s hs
      exact ⟨s', List.mem_cons_of_mem _ hs', hindex⟩
    have hself : s = seg → ∃ s' ∈ seg :: rest, s'.index = s.index := fun heq => ⟨seg, List.mem_cons_self, by rw [heq]⟩
    rw [mergeSegments] at hs
    split at hs
    · split at hs
      · split at hs
        · rename_i hstart
          rcases List.mem_cons.mp hs with rfl | hs
          · exact ⟨seg, List.mem_cons_self, hstart⟩
          · exact hrest hs
        · exact hrest hs
      · exact (List.mem_cons.mp hs).elim hself hrest
    · exact (List.mem_cons.mp hs).elim hself hrest

theorem index_le_of_mem_segmentsFrom : ∀ {cut : List (List ℕ × Bool)} {index : ℕ},
    ∀ s ∈ segmentsFrom index cut, index ≤ s.index
  | (segment, _) :: rest, index, s, hs => by
    rcases List.mem_cons.mp hs with rfl | hs
    · exact Nat.le_refl _
    · exact (Nat.le_add_right _ _).trans (index_le_of_mem_segmentsFrom s hs)

/-- No border lies inside the first segment. -/
theorem border_le {segment : List ℕ} {isWordLike : Bool} {rest : List (List ℕ × Bool)} {index p : ℕ}
    (h : IsBorder text (segmentsFrom index ((segment, isWordLike) :: rest)) p)
    (hend : index + segment.length ≤ text.length) (hp : index < p) :
    index + segment.length ≤ p ∧ IsBorder text (segmentsFrom (index + segment.length) rest) p := by
  rcases h with rfl | ⟨s, hs, rfl⟩
  · exact ⟨hend, Or.inl rfl⟩
  · rcases List.mem_cons.mp hs with rfl | hs
    · exact absurd hp (Nat.lt_irrefl _)
    · exact ⟨index_le_of_mem_segmentsFrom s hs, Or.inr ⟨s, hs, rfl⟩⟩

/-- The markers that are left are those that end behind a position. -/
theorem mem_dropWhile_iff {markers : List Marker} {pos : ℕ} (hsorted : markers.Pairwise fun a b => a.stop ≤ b.start)
    (hbounds : ∀ marker ∈ markers, marker.start < marker.stop) {marker : Marker} :
    marker ∈ markers.dropWhile (·.stop ≤ pos) ↔ marker ∈ markers ∧ pos < marker.stop := by
  induction markers with
  | nil => simp
  | cons m markers ih =>
    rw [List.pairwise_cons] at hsorted
    by_cases hm : m.stop ≤ pos
    · rw [List.dropWhile_cons_of_pos (by simpa using hm),
        ih hsorted.2 fun marker hmem => hbounds marker (List.mem_cons_of_mem _ hmem), List.mem_cons]
      refine and_congr_left fun hpos => (or_iff_right ?_).symm
      rintro rfl
      omega
    · rw [List.dropWhile_cons_of_neg (by simpa using hm), iff_self_and]
      intro hmem
      rcases List.mem_cons.mp hmem with rfl | hmem'
      · omega
      · have h₁ := hsorted.1 marker hmem'
        have h₂ := hbounds marker hmem
        omega

/-- The merged segments from a base segment on: up to `upto` the text is emitted, which is this segment's
start or, inside a marker, the end of the marker. -/
theorem contiguous_mergeSegments : ∀ (cut : List (List ℕ × Bool)) (front : List ℕ) (markers : List Marker) (upto : ℕ),
    (∀ s ∈ cut, s.1 ≠ []) → front ++ (cut.map Prod.fst).flatten = text →
    (markers.Pairwise fun a b => a.stop ≤ b.start) → (∀ m ∈ markers, m.start < m.stop ∧ m.stop ≤ text.length) →
    (∀ m ∈ markers, ∀ p ∈ [m.start, m.stop], front.length ≤ p → IsBorder text (segmentsFrom front.length cut) p) →
    (upto = front.length ∧ (∀ m ∈ markers, front.length ≤ m.start ∨ m.stop ≤ front.length) ∨
      ∃ m ∈ markers, m.start < front.length ∧ front.length < m.stop ∧ upto = m.stop) →
    Contiguous text upto (mergeSegments text markers (segmentsFrom front.length cut)) ∧
      ∀ m ∈ markers, front.length ≤ m.start → IsSegment m (mergeSegments text markers (segmentsFrom front.length cut))
  | [], front, markers, upto, _, htext, _, hbounds, _, hupto => by
    rw [List.map_nil, List.flatten_nil, List.append_nil] at htext
    rw [htext] at hupto
    have hnone : ∀ m ∈ markers, ¬text.length ≤ m.start := fun m hm => by
      have := hbounds m hm
      omega
    refine ⟨?_, fun m hm hstart => absurd (htext ▸ hstart) (hnone m hm)⟩
    rcases hupto with ⟨rfl, -⟩ | ⟨m, hm, -, hstop, -⟩
    · exact rfl
    · have := (hbounds m hm).2
      omega
  | (segment, isWordLike) :: rest, front, markers, upto, hne, htext, hsorted, hbounds, hborder, hupto => by
    obtain ⟨hsegment, hrest⟩ := List.forall_mem_cons.mp hne
    rw [List.map_cons, List.flatten_cons] at htext
    have hfront : (front ++ segment).length = front.length + segment.length := List.length_append
    have hlong : 0 < segment.length := List.length_pos_iff.mpr hsegment
    have hend : front.length + segment.length ≤ text.length := by
      rw [← htext]
      simp only [List.length_append]
      omega
    set left := markers.dropWhile (·.stop ≤ front.length) with hleft
    have hmem : ∀ {m : Marker}, m ∈ left ↔ m ∈ markers ∧ front.length < m.stop :=
      mem_dropWhile_iff hsorted fun m hm => (hbounds m hm).1
    have hleftSorted : left.Pairwise fun a b => a.stop ≤ b.start := hsorted.sublist (List.dropWhile_sublist _)
    -- the borders that are left are borders of the rest
    have hafter : ∀ m ∈ left, ∀ p ∈ [m.start, m.stop], front.length < p →
        front.length + segment.length ≤ p ∧ IsBorder text (segmentsFrom (front.length + segment.length) rest) p :=
      fun m hm p hp hlt => border_le (hborder m (hmem.mp hm).1 p hp (Nat.le_of_lt hlt)) hend hlt
    have hstop : ∀ m ∈ left, front.length + segment.length ≤ m.stop := fun m hm =>
      (hafter m hm m.stop (by simp) (hmem.mp hm).2).1
    have hstart : ∀ m ∈ left, front.length < m.start → front.length + segment.length ≤ m.start := fun m hm hlt =>
      (hafter m hm m.start (by simp) hlt).1
    have ih := fun upto' => contiguous_mergeSegments rest (front ++ segment) left upto' hrest (by rw [List.append_assoc, htext])
      hleftSorted (fun m hm => hbounds m (hmem.mp hm).1)
      (fun m hm p hp hle => by rw [hfront] at hle ⊢; exact (hafter m hm p hp (by omega)).2)
    rw [hfront] at ih
    have hlater : ∀ m ∈ markers, front.length ≤ m.start → m ∈ left := fun m hm hle =>
      hmem.mpr ⟨hm, Nat.lt_of_le_of_lt hle (hbounds m hm).1⟩
    rw [segmentsFrom, mergeSegments]
    dsimp only
    rw [← hleft]
    cases hhead : left.head? with
    | none =>
      rw [List.head?_eq_none_iff] at hhead
      have hnone : ∀ m, m ∉ left := fun m hm => by rw [hhead] at hm; cases hm
      obtain ⟨htiles, -⟩ := ih (front.length + segment.length) (Or.inl ⟨rfl, fun m hm => absurd hm (hnone m)⟩)
      have hhere : upto = front.length := by
        rcases hupto with ⟨h, -⟩ | ⟨m, hm, -, hlt, -⟩
        · exact h
        · exact absurd (hmem.mpr ⟨hm, hlt⟩) (hnone m)
      refine ⟨⟨hhere.symm, hsegment, ?_, by rw [hhere]; exact htiles⟩, fun m hm hle => absurd (hlater m hm hle) (hnone m)⟩
      rw [hhere, ← htext]
      exact (slice_append_append front segment _).symm
    | some marker =>
      have hmarker : marker ∈ left := List.mem_of_head? hhead
      have hfirst : ∀ m ∈ left, m = marker ∨ marker.stop ≤ m.start := fun m hm => by
        obtain ⟨tail, hleft⟩ := List.head?_eq_some_iff.mp hhead
        rw [hleft] at hm hleftSorted
        exact (List.mem_cons.mp hm).imp_right ((List.pairwise_cons.mp hleftSorted).1 m)
      have hlt := (hmem.mp hmarker).2
      have hmstop := hstop marker hmarker
      have hmbounds := hbounds marker (hmem.mp hmarker).1
      dsimp only
      rcases Nat.lt_trichotomy marker.start front.length with hinside | hhere | hahead
      · -- inside a marker that is emitted already
        rw [if_pos ⟨Nat.le_of_lt hinside, hlt⟩, if_neg (Nat.ne_of_gt hinside)]
        have hsame : upto = marker.stop := by
          rcases hupto with ⟨-, hnone⟩ | ⟨m, hm, hmlt, hmgt, rfl⟩
          · have := hnone marker (hmem.mp hmarker).1
            omega
          · rcases hfirst m (hmem.mpr ⟨hm, hmgt⟩) with rfl | h
            · rfl
            · omega
        obtain ⟨htiles, hsegments⟩ := ih upto (by
          rcases Nat.lt_or_eq_of_le hmstop with hmore | hdone
          · exact Or.inr ⟨marker, hmarker, by omega, hmore, hsame⟩
          · refine Or.inl ⟨by omega, fun m hm => ?_⟩
            rcases hfirst m hm with rfl | h <;> omega)
        refine ⟨htiles, fun m hm hle => hsegments m (hlater m hm hle) ?_⟩
        rcases hfirst m (hlater m hm hle) with rfl | h <;> omega
      · -- the first segment of a marker
        rw [if_pos ⟨Nat.le_of_eq hhere, hlt⟩, if_pos hhere.symm]
        have hlength : (slice text marker.start marker.stop).length = marker.stop - marker.start := length_slice hmbounds.2
        have hupto : upto = marker.start := by
          rcases hupto with ⟨h, -⟩ | ⟨m, hm, hmlt, hmgt, -⟩
          · omega
          · rcases hfirst m (hmem.mpr ⟨hm, hmgt⟩) with rfl | h <;> omega
        obtain ⟨htiles, hsegments⟩ := ih marker.stop (by
          rcases Nat.lt_or_eq_of_le hmstop with hmore | hdone
          · exact Or.inr ⟨marker, hmarker, by omega, hmore, rfl⟩
          · refine Or.inl ⟨by omega, fun m hm => ?_⟩
            rcases hfirst m hm with rfl | h <;> omega)
        refine ⟨⟨hupto.symm, ?_, ?_, ?_⟩, fun m hm hle => ?_⟩
        · rw [← List.length_pos_iff, hlength]
          omega
        · rw [hupto, hlength, Nat.add_sub_cancel' (Nat.le_of_lt hmbounds.1)]
        · rw [hupto, hlength, Nat.add_sub_cancel' (Nat.le_of_lt hmbounds.1)]
          exact htiles
        · rcases hfirst m (hlater m hm hle) with rfl | h
          · refine ⟨_, List.mem_cons_self, rfl, ?_⟩
            rw [hlength]
            exact Nat.add_sub_cancel' (Nat.le_of_lt hmbounds.1)
          · obtain ⟨s, hs, hs'⟩ := hsegments m (hlater m hm hle) (by omega)
            exact ⟨s, List.mem_cons_of_mem _ hs, hs'⟩
      · -- before the next marker
        rw [if_neg fun h => absurd h.1 (Nat.not_le.mpr hahead)]
        have hmstart := hstart marker hmarker hahead
        have hhere : upto = front.length := by
          rcases hupto with ⟨h, -⟩ | ⟨m, hm, hmlt, hmgt, -⟩
          · exact h
          · rcases hfirst m (hmem.mpr ⟨hm, hmgt⟩) with rfl | h <;> omega
        have hlate : ∀ m ∈ left, front.length + segment.length ≤ m.start := fun m hm => by
          rcases hfirst m hm with rfl | h <;> omega
        obtain ⟨htiles, hsegments⟩ := ih (front.length + segment.length) (Or.inl ⟨rfl, fun m hm => Or.inl (hlate m hm)⟩)
        refine ⟨⟨hhere.symm, hsegment, ?_, by rw [hhere]; exact htiles⟩, fun m hm hle => ?_⟩
        · rw [hhere, ← htext]
          exact (slice_append_append front segment _).symm
        · obtain ⟨s, hs, hs'⟩ := hsegments m (hlater m hm hle) (hlate m (hlater m hm hle))
          exact ⟨s, List.mem_cons_of_mem _ hs, hs'⟩

/-! ### Segments with markers -/

/-- The segments tile the text, and every valid marker is one of them. -/
def Exact (text : List ℕ) (validIds : List ℕ) (segments : List SegmentData) : Prop :=
  Contiguous text 0 segments ∧ ∀ marker ∈ validMarkers text validIds, IsSegment marker segments

/-- **The segments are exact if and only if no base segment reaches over the border of a valid marker.** -/
theorem exact_iff (text : List ℕ) (baseSegmenter : Segmenter) (validIds : List ℕ) :
    Exact text validIds (segmentWithMarkers text baseSegmenter validIds) ↔ ∀ marker ∈ validMarkers text validIds,
      IsBorder text (baseSegmenter.segment text) marker.start ∧ IsBorder text (baseSegmenter.segment text) marker.stop := by
  rcases segmentWithMarkers_cases text baseSegmenter validIds with ⟨hnone, hbase⟩ | hmerge
  · rw [hbase, Exact, hnone]
    exact iff_of_true ⟨contiguous_segment baseSegmenter text, fun _ h => absurd h List.not_mem_nil⟩
      fun _ h => absurd h List.not_mem_nil
  · rw [hmerge]
    constructor
    · rintro ⟨htiles, hsegments⟩ marker hmarker
      obtain ⟨s, hs, hstart, hstop⟩ := hsegments marker hmarker
      have hbase : ∀ {p : ℕ}, IsBorder text (mergeSegments text (validMarkers text validIds) (baseSegmenter.segment text)) p →
          IsBorder text (baseSegmenter.segment text) p := by
        rintro p (hp | ⟨s, hs, rfl⟩)
        · exact Or.inl hp
        · exact Or.inr (exists_base_of_mem_merge s hs)
      rw [← hstart, ← hstop]
      exact ⟨hbase (Or.inr ⟨s, hs, rfl⟩), hbase (htiles.isBorder.2 s hs)⟩
    · intro hborders
      have h := contiguous_mergeSegments (baseSegmenter.cut text) [] (validMarkers text validIds) 0
        (baseSegmenter.cut_ne_nil text) (baseSegmenter.flatten_cut text) (validMarkers_sorted text validIds)
        validMarkers_bounds (fun m hm p hp _ => ?_) (Or.inl ⟨rfl, fun _ _ => Or.inl (Nat.zero_le _)⟩)
      · exact ⟨h.1, fun m hm => h.2 m hm (Nat.zero_le _)⟩
      · simp only [List.mem_cons, List.not_mem_nil, or_false] at hp
        rcases hp with rfl | rfl
        · exact (hborders m hm).1
        · exact (hborders m hm).2

/-- A segmentation that joins an acute accent with the character before it. -/
def joinAccents : List ℕ → List (List ℕ × Bool)
  | [] => []
  | c :: text =>
    match joinAccents text with
    | ((0x301 :: segment), isWordLike) :: rest => (c :: 0x301 :: segment, isWordLike) :: rest
    | rest => ([c], false) :: rest

theorem joinAccents_spec : ∀ text : List ℕ,
    ((joinAccents text).map Prod.fst).flatten = text ∧ ∀ s ∈ joinAccents text, s.1 ≠ []
  | [] => ⟨rfl, fun _ h => absurd h List.not_mem_nil⟩
  | c :: text => by
    obtain ⟨hflatten, hne⟩ := joinAccents_spec text
    unfold joinAccents
    split
    · rename_i segment isWordLike rest heq
      rw [heq] at hflatten hne
      exact ⟨congrArg (c :: ·) hflatten, List.forall_mem_cons.mpr ⟨List.cons_ne_nil _ _, (List.forall_mem_cons.mp hne).2⟩⟩
    · exact ⟨congrArg (c :: ·) hflatten, List.forall_mem_cons.mpr ⟨List.cons_ne_nil _ _, hne⟩⟩

def accentSegmenter : Segmenter := ⟨joinAccents, fun text => (joinAccents_spec text).1, fun text => (joinAccents_spec text).2⟩

/-- The accent behind the closing bracket of a marker is in no segment. -/
theorem accent_lost : ¬Exact (ascii "[paste #1]" ++ [0x301]) [1]
    (segmentWithMarkers (ascii "[paste #1]" ++ [0x301]) accentSegmenter [1]) := by
  have hsegments : segmentWithMarkers (ascii "[paste #1]" ++ [0x301]) accentSegmenter [1] =
      [⟨ascii "[paste #1]", 0, false⟩] := by decide
  rw [hsegments]
  rintro ⟨⟨-, -, -, hend⟩, -⟩
  have hlength : 0 + (ascii "[paste #1]").length = (ascii "[paste #1]" ++ [0x301]).length := hend
  exact absurd hlength (by decide)

end Trek.Editor
