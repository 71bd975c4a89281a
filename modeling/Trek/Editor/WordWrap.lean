/-
# Word wrap

`wordWrapLine` takes a line of the editor apart into chunks that fit the width, at the start of a word
where it can. A paste marker that is wider than the width is wrapped by itself, grapheme by grapheme,
with a call of the same function. The chunks make up the line (`wordWrapLine_tiles`) whatever the
segments are; the call comes back if no grapheme is wider than the width, and not otherwise.
-/
import Trek.Editor.Markers

namespace Trek.Editor

open Trek.Tui

/-- `TextChunk`. -/
structure TextChunk where
  text : List ℕ
  startIndex : ℕ
  endIndex : ℕ
  deriving DecidableEq

/-- The variables of the loop of `wordWrapLine`. There is no wrap opportunity where `wrapOppIndex` is -1. -/
structure WrapState where
  chunks : List TextChunk
  currentWidth : ℕ
  chunkStart : ℕ
  wrapOppIndex : Option ℕ
  wrapOppWidth : ℕ

namespace WrapState

/-- A chunk up to a position. -/
def push (line : List ℕ) (s : WrapState) (stop : ℕ) : WrapState :=
  { s with chunks := s.chunks ++ [⟨slice line s.chunkStart stop, s.chunkStart, stop⟩], chunkStart := stop }

/-- The overflow check before a segment of width `gWidth` at `charIndex`. -/
def overflow (line : List ℕ) (maxWidth : ℕ) (s : WrapState) (gWidth charIndex : ℕ) : WrapState :=
  if maxWidth < s.currentWidth + gWidth then
    let forced : WrapState := if s.chunkStart < charIndex then { s.push line charIndex with currentWidth := 0 } else s
    let s :=
      match s.wrapOppIndex with
      | some wrapOppIndex =>
        if s.currentWidth - s.wrapOppWidth + gWidth ≤ maxWidth then
          { s.push line wrapOppIndex with currentWidth := s.currentWidth - s.wrapOppWidth }
        else forced
      | none => forced
    { s with wrapOppIndex := none }
  else s

/-- A segment that was wrapped by itself: its last chunk is not finished. -/
def pushAll (u : Unicode) (s : WrapState) (charIndex : ℕ) (subChunks : List TextChunk) : WrapState :=
  let last := subChunks.getLastD ⟨[], 0, 0⟩
  { s with
    chunks := s.chunks ++ subChunks.dropLast.map fun sc => ⟨sc.text, charIndex + sc.startIndex, charIndex + sc.endIndex⟩
    chunkStart := charIndex + last.startIndex
    currentWidth := visibleWidth u last.text
    wrapOppIndex := none }

/-- A segment that fits, and the wrap opportunity before the next one. -/
def advance (s : WrapState) (grapheme : List ℕ) (gWidth : ℕ) (next : Option SegmentData) : WrapState :=
  let s := { s with currentWidth := s.currentWidth + gWidth }
  match next with
  | some next =>
    if !isPasteMarker grapheme && isWhitespaceChar grapheme &&
        (isPasteMarker next.segment || !isWhitespaceChar next.segment) then
      { s with wrapOppIndex := some next.index, wrapOppWidth := s.currentWidth }
    else s
  | none => s

end WrapState

/-- The loop of `wordWrapLine`. A segment that is wider than the width is wrapped by `rewrap`. -/
def wrapSegments (u : Unicode) (rewrap : List ℕ → Option (List TextChunk)) (line : List ℕ) (maxWidth : ℕ) :
    WrapState → List SegmentData → Option WrapState
  | s, [] => some s
  | s, seg :: rest =>
    let gWidth := visibleWidth u seg.segment
    let s := s.overflow line maxWidth gWidth seg.index
    if maxWidth < gWidth then
      (rewrap seg.segment).bind fun subChunks =>
        wrapSegments u rewrap line maxWidth (s.pushAll u seg.index subChunks) rest
    else wrapSegments u rewrap line maxWidth (s.advance seg.segment gWidth rest.head?) rest

/-- `wordWrapLine`, with a bound on the calls inside of it. -/
def wordWrapLine (u : Unicode) : ℕ → List ℕ → ℕ → List SegmentData → Option (List TextChunk)
  | 0, _, _, _ => none
  | calls + 1, line, maxWidth, segments =>
    if line = [] ∨ maxWidth = 0 then some [⟨[], 0, 0⟩]
    else if visibleWidth u line ≤ maxWidth then some [⟨line, 0, line.length⟩]
    else
      (wrapSegments u
        (fun grapheme => wordWrapLine u calls grapheme maxWidth ((graphemeSegmenter u).segment grapheme)) line maxWidth
        ⟨[], 0, 0, none, 0⟩ segments).map fun s =>
          s.chunks ++ [⟨line.drop s.chunkStart, s.chunkStart, line.length⟩]

/-- `wordWrapLine` comes back with chunks. -/
def WrapsTo (u : Unicode) (line : List ℕ) (maxWidth : ℕ) (segments : List SegmentData) (chunks : List TextChunk) : Prop :=
  ∃ calls, wordWrapLine u calls line maxWidth segments = some chunks

variable {u : Unicode} {line : List ℕ} {maxWidth : ℕ}

/-! ### More calls -/

theorem wrapSegments_mono {rewrap rewrap' : List ℕ → Option (List TextChunk)}
    (h : ∀ grapheme chunks, rewrap grapheme = some chunks → rewrap' grapheme = some chunks) :
    ∀ {segments : List SegmentData} {s s' : WrapState}, wrapSegments u rewrap line maxWidth s segments = some s' →
      wrapSegments u rewrap' line maxWidth s segments = some s'
  | [], _, _, hrun => hrun
  | seg :: rest, s, s', hrun => by
    rw [wrapSegments] at hrun ⊢
    split at hrun
    · next hwide =>
      obtain ⟨subChunks, hsub, hrun⟩ := Option.bind_eq_some_iff.mp hrun
      rw [if_pos hwide, h _ _ hsub]
      exact wrapSegments_mono h hrun
    · next hfits =>
      rw [if_neg hfits]
      exact wrapSegments_mono h hrun

theorem wordWrapLine_mono : ∀ {calls calls' : ℕ} {line : List ℕ} {segments : List SegmentData} {chunks : List TextChunk},
    calls ≤ calls' → wordWrapLine u calls line maxWidth segments = some chunks →
      wordWrapLine u calls' line maxWidth segments = some chunks
  | calls + 1, calls' + 1, line, segments, chunks, hle, h => by
    rw [wordWrapLine] at h ⊢
    split at h
    · next hempty => rwa [if_pos hempty]
    · next hempty =>
      rw [if_neg hempty]
      split at h
      · next hfits => rwa [if_pos hfits]
      · next hfits =>
        rw [if_neg hfits]
        obtain ⟨s, hs, rfl⟩ := Option.map_eq_some_iff.mp h
        have hrun := wrapSegments_mono (fun _ _ => wordWrapLine_mono (Nat.le_of_succ_le_succ hle)) hs
        exact congrArg (Option.map _) hrun

/-- `wordWrapLine` comes back with at most one list of chunks. -/
theorem WrapsTo.unique {segments : List SegmentData} {chunks chunks' : List TextChunk}
    (h : WrapsTo u line maxWidth segments chunks) (h' : WrapsTo u line maxWidth segments chunks') : chunks = chunks' := by
  obtain ⟨calls, h⟩ := h
  obtain ⟨calls', h'⟩ := h'
  have hmax := wordWrapLine_mono (Nat.le_max_left calls calls') h
  rw [wordWrapLine_mono (Nat.le_max_right calls calls') h'] at hmax
  exact (Option.some.inj hmax).symm

/-! ### The chunks make up the line -/

/-- Chunks are the parts of the line that they name, one after the other. -/
def Tiles (line : List ℕ) : ℕ → List TextChunk → ℕ → Prop
  | pos, [], stop => pos = stop
  | pos, c :: chunks, stop =>
    c.startIndex = pos ∧ pos ≤ c.endIndex ∧ c.text = slice line pos c.endIndex ∧ Tiles line c.endIndex chunks stop

theorem tiles_append : ∀ {chunks chunks' : List TextChunk} {pos mid stop : ℕ}, Tiles line pos chunks mid →
    Tiles line mid chunks' stop → Tiles line pos (chunks ++ chunks') stop
  | [], _, _, _, _, h, h' => by
    obtain rfl := h
    exact h'
  | _ :: _, _, _, _, _, ⟨hstart, hle, htext, h⟩, h' => ⟨hstart, hle, htext, tiles_append h h'⟩

theorem tiles_singleton {pos stop : ℕ} (h : pos ≤ stop) : Tiles line pos [⟨slice line pos stop, pos, stop⟩] stop :=
  ⟨rfl, h, rfl, rfl⟩

theorem Tiles.le : ∀ {chunks : List TextChunk} {pos stop : ℕ}, Tiles line pos chunks stop → pos ≤ stop
  | [], _, _, h => Nat.le_of_eq h
  | _ :: _, _, _, ⟨_, hle, _, h⟩ => hle.trans h.le

/-- The chunks without the last one. -/
theorem Tiles.dropLast : ∀ {chunks : List TextChunk} {pos stop : ℕ}, Tiles line pos chunks stop → chunks ≠ [] →
    Tiles line pos chunks.dropLast (chunks.getLastD ⟨[], 0, 0⟩).startIndex ∧
      (chunks.getLastD ⟨[], 0, 0⟩).text = slice line (chunks.getLastD ⟨[], 0, 0⟩).startIndex stop ∧
        (chunks.getLastD ⟨[], 0, 0⟩).startIndex ≤ stop
  | [c], pos, stop, ⟨hstart, hle, htext, hstop⟩, _ => by
    obtain rfl : c.endIndex = stop := hstop
    subst hstart
    exact ⟨rfl, htext, hle⟩
  | c :: d :: chunks, pos, stop, ⟨hstart, hle, htext, h⟩, _ => by
    obtain ⟨hdrop, hlast⟩ := h.dropLast (List.cons_ne_nil d chunks)
    exact ⟨⟨hstart, hle, htext, hdrop⟩, hlast⟩

/-- The chunks of a segment of the line, moved to where it stands. -/
theorem Tiles.shift {segment : List ℕ} {index : ℕ} (hsegment : segment = slice line index (index + segment.length)) :
    ∀ {chunks : List TextChunk} {pos stop : ℕ}, Tiles segment pos chunks stop → stop ≤ segment.length →
      Tiles line (index + pos)
        (chunks.map fun sc => ⟨sc.text, index + sc.startIndex, index + sc.endIndex⟩) (index + stop)
  | [], _, _, h, _ => congrArg (index + ·) h
  | c :: chunks, pos, stop, ⟨hstart, hle, htext, h⟩, hstop => by
    refine ⟨congrArg (index + ·) hstart, Nat.add_le_add_left hle index, ?_, h.shift hsegment hstop⟩
    have hend : c.endIndex ≤ segment.length := h.le.trans hstop
    dsimp only
    rw [htext]
    conv_lhs => rw [hsegment]
    exact slice_slice (Nat.add_le_add_left hend index) pos

/-- What is done of the line, before a position. -/
structure WrapState.Done (line : List ℕ) (s : WrapState) (pos : ℕ) : Prop where
  tiles : Tiles line 0 s.chunks s.chunkStart
  chunkStart : s.chunkStart ≤ pos
  wrapOpp : ∀ index, s.wrapOppIndex = some index → s.chunkStart ≤ index ∧ index ≤ pos

namespace WrapState.Done

variable {s : WrapState} {pos : ℕ}

theorem mono {pos' : ℕ} (h : s.Done line pos) (hle : pos ≤ pos') : s.Done line pos' :=
  ⟨h.tiles, h.chunkStart.trans hle, fun index hindex => ⟨(h.wrapOpp index hindex).1, (h.wrapOpp index hindex).2.trans hle⟩⟩

/-- A chunk up to a position that is done. -/
theorem push (h : s.Done line pos) {stop : ℕ} (hstart : s.chunkStart ≤ stop) : Tiles line 0 (s.push line stop).chunks stop :=
  tiles_append h.tiles (tiles_singleton hstart)

theorem overflow (h : s.Done line pos) (maxWidth gWidth : ℕ) :
    (s.overflow line maxWidth gWidth pos).Done line pos ∧
      (maxWidth < gWidth → (s.overflow line maxWidth gWidth pos).chunkStart = pos) := by
  have hforced : ∀ forced : WrapState,
      forced = (if s.chunkStart < pos then { s.push line pos with currentWidth := 0 } else s) →
        Tiles line 0 forced.chunks forced.chunkStart ∧ forced.chunkStart = pos := by
    rintro forced rfl
    split
    · next hlt => exact ⟨h.push (Nat.le_of_lt hlt), rfl⟩
    · next hge =>
      have hpos : s.chunkStart = pos := Nat.le_antisymm h.chunkStart (Nat.not_lt.mp hge)
      exact ⟨h.tiles, hpos⟩
  unfold WrapState.overflow
  split
  · dsimp only
    obtain ⟨htiles, hstart⟩ := hforced _ rfl
    split
    · next index hindex =>
      obtain ⟨hle, hpos⟩ := h.wrapOpp index hindex
      split
      · next hfits =>
        refine ⟨⟨h.push hle, hpos, fun _ hnone => by cases hnone⟩, fun hwide => ?_⟩
        omega
      · exact ⟨⟨htiles, Nat.le_of_eq hstart, fun _ hnone => by cases hnone⟩, fun _ => hstart⟩
    · exact ⟨⟨htiles, Nat.le_of_eq hstart, fun _ hnone => by cases hnone⟩, fun _ => hstart⟩
  · exact ⟨h, fun _ => by omega⟩

theorem advance (h : s.Done line pos) (grapheme : List ℕ) (gWidth : ℕ) {next : Option SegmentData} {pos' : ℕ}
    (hle : pos ≤ pos') (hnext : ∀ n, next = some n → pos' = n.index) : (s.advance grapheme gWidth next).Done line pos' := by
  have hkept := h.mono hle
  unfold WrapState.advance
  cases next with
  | none => exact ⟨hkept.tiles, hkept.chunkStart, hkept.wrapOpp⟩
  | some n =>
    obtain rfl := hnext n rfl
    dsimp only
    split
    · refine ⟨h.tiles, hkept.chunkStart, fun index hindex => ?_⟩
      obtain rfl := Option.some.inj hindex
      exact ⟨hkept.chunkStart, le_refl _⟩
    · exact ⟨hkept.tiles, hkept.chunkStart, hkept.wrapOpp⟩

/-- A segment that was wrapped by itself. -/
theorem pushAll (h : s.Done line pos) (hstart : s.chunkStart = pos) {segment : List ℕ} {subChunks : List TextChunk}
    (hsegment : segment = slice line pos (pos + segment.length)) (hsub : Tiles segment 0 subChunks segment.length)
    (hne : subChunks ≠ []) : (s.pushAll u pos subChunks).Done line (pos + segment.length) := by
  obtain ⟨hdrop, -, hlast⟩ := hsub.dropLast hne
  refine ⟨tiles_append h.tiles ?_, Nat.add_le_add_left hlast pos, fun index hindex => by cases hindex⟩
  subst hstart
  exact hdrop.shift hsegment hlast

end WrapState.Done

/-- The loop, where segments that are too wide are taken apart into chunks. -/
theorem wrapSegments_done {rewrap : List ℕ → Option (List TextChunk)}
    (hrewrap : ∀ grapheme chunks, grapheme ≠ [] → rewrap grapheme = some chunks →
      Tiles grapheme 0 chunks grapheme.length ∧ chunks ≠ []) :
    ∀ {segments : List SegmentData} {s s' : WrapState} {pos : ℕ}, s.Done line pos → Spaced line pos segments →
      pos ≤ line.length → wrapSegments u rewrap line maxWidth s segments = some s' → s'.Done line line.length
  | [], s, s', pos, h, _, hpos, hrun => by
    obtain rfl := Option.some.inj hrun
    exact h.mono hpos
  | seg :: rest, s, s', pos, h, hspaced, hpos, hrun => by
    obtain ⟨hindex, hne, hend, hsegment, hrest⟩ := hspaced
    obtain ⟨hoverflow, hwide⟩ := (h.mono hindex).overflow maxWidth (visibleWidth u seg.segment)
    rw [wrapSegments] at hrun
    generalize s.overflow line maxWidth (visibleWidth u seg.segment) seg.index = s₁ at hoverflow hwide hrun
    split at hrun
    · next hw =>
      obtain ⟨subChunks, hsub, hrun⟩ := Option.bind_eq_some_iff.mp hrun
      obtain ⟨htiles, hsubne⟩ := hrewrap _ _ hne hsub
      exact wrapSegments_done hrewrap (hoverflow.pushAll (hwide hw) hsegment htiles hsubne) hrest hend hrun
    · have hle : seg.index ≤ seg.index + seg.segment.length := Nat.le_add_right _ _
      cases rest with
      | nil =>
        have hadvance : (s₁.advance seg.segment (visibleWidth u seg.segment) none).Done line _ :=
          hoverflow.advance _ _ hle fun n hn => by cases hn
        exact wrapSegments_done hrewrap hadvance hrest hend hrun
      | cons n rest =>
        have hadvance : (s₁.advance seg.segment (visibleWidth u seg.segment) (some n)).Done line n.index :=
          hoverflow.advance _ _ (hle.trans hrest.1) fun m hm => congrArg SegmentData.index (Option.some.inj hm)
        have hnext : Spaced line n.index (n :: rest) := ⟨le_refl _, hrest.2⟩
        exact wrapSegments_done hrewrap hadvance hnext ((Nat.le_add_right _ _).trans hrest.2.2.1) hrun

/-- **The chunks make up the line.** -/
theorem wordWrapLine_tiles : ∀ (calls : ℕ) {line : List ℕ} {maxWidth : ℕ} {segments : List SegmentData}
    {chunks : List TextChunk}, 0 < maxWidth → Spaced line 0 segments →
      wordWrapLine u calls line maxWidth segments = some chunks → Tiles line 0 chunks line.length ∧ chunks ≠ []
  | calls + 1, line, maxWidth, segments, chunks, hwidth, hspaced, h => by
    rw [wordWrapLine] at h
    split at h
    · next hempty =>
      obtain rfl := Option.some.inj h
      obtain rfl := hempty.resolve_right (Nat.ne_of_gt hwidth)
      exact ⟨⟨rfl, le_refl _, rfl, rfl⟩, List.cons_ne_nil _ _⟩
    · split at h
      · obtain rfl := Option.some.inj h
        exact ⟨⟨rfl, Nat.zero_le _, (slice_zero_length line).symm, rfl⟩, List.cons_ne_nil _ _⟩
      · obtain ⟨s, hs, rfl⟩ := Option.map_eq_some_iff.mp h
        have hdone : WrapState.Done line ⟨[], 0, 0, none, 0⟩ 0 := ⟨rfl, le_refl _, fun index hindex => by cases hindex⟩
        have hend := wrapSegments_done (fun grapheme chunks _ hchunks =>
          wordWrapLine_tiles calls hwidth (spaced_segment (graphemeSegmenter u) grapheme) hchunks) hdone hspaced (Nat.zero_le _) hs
        refine ⟨tiles_append hend.tiles ?_, by simp⟩
        rw [← slice_length]
        exact tiles_singleton hend.chunkStart

end Trek.Editor
