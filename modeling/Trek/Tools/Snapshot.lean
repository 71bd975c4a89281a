/-
# What a snapshot says of the whole output

The accumulator follows the decoded text: its counts are those of the text, and its
tail is the rolling tail (`Tracks`, kept by every append). The rest is about two runs
of the loop of `truncateTail`, over the lines of the whole text and over the whole
lines of the tail: they part only where the lines of the tail are used up.
-/
import Trek.Tools.OutputAccumulator

namespace Trek.Tools

open OutputAccumulator

/-! ### What the accumulator tracks -/

/-- The accumulator has seen `text` and keeps `kept` of it, after `front`. -/
structure Tracks (s : OutputAccumulator) (L B : ℕ) (text front kept : List Char) : Prop where
  maxLines : s.maxLines = L
  maxBytes : s.maxBytes = B
  maxRolling : s.maxRollingBytes = 2 * B
  split : text = front ++ kept
  tailText : s.tailText = kept
  tailBytes : s.tailBytes = byteLength kept
  small : byteLength kept ≤ 4 * B
  boundary : s.tailStartsAtLineBoundary = true ↔ EndsLine front
  maximal : ∀ init c, front = init ++ [c] → 2 * B < (utf8Char c).length + byteLength kept
  decoded : s.totalDecodedBytes = byteLength text
  completed : s.completedLines = text.count '\n'
  openLine : s.hasOpenLine = true ↔ ¬(text = [] ∨ text.getLast? = some '\n')
  lines : s.totalLines = (splitLinesForCounting text).length

/-- The last byte of a text is a line end exactly when its last character is. -/
theorem getLast_utf8 {text : List Char} (hne : text ≠ []) :
    (utf8 text)[(utf8 text).length - 1]? = some 0x0a ↔ EndsLine text := by
  obtain ⟨init, c, rfl⟩ := (List.eq_nil_or_concat' text).resolve_left hne
  have hlast : (utf8 (init ++ [c])).getLast? = (utf8Char c).getLast? := by
    have hbytes : utf8 (init ++ [c]) = utf8 init ++ utf8Char c := by simp [utf8]
    rw [hbytes, List.getLast?_append_of_ne_nil _ (List.length_pos_iff.mp (utf8Char_pos c))]
  rw [← List.getLast?_eq_getElem?, hlast]
  have hc : EndsLine (init ++ [c]) ↔ c = '\n' := by
    unfold EndsLine
    simp
  rw [hc]
  constructor
  · intro h
    have hv := Utf8Decoder.toNat_valid c
    have hnat : c.toNat = 0x0a := by
      unfold utf8Char at h
      simp only at h
      split_ifs at h
      all_goals
        simp only [List.getLast?_singleton, List.getLast?_cons_cons, Option.some.injEq] at h
      all_goals omega
    rw [← Char.ofNat_toNat c, hnat]
  · rintro rfl
    rfl

/-- Trimming the tail is cutting it to the end that fits. -/
theorem trimTail_eq {s : OutputAccumulator} (hbig : s.maxRollingBytes < byteLength s.tailText) :
    ∃ more, s.tailText = more ++ lastBytes s.maxRollingBytes s.tailText ∧ more ≠ [] ∧
      byteLength (lastBytes s.maxRollingBytes s.tailText) ≤ s.maxRollingBytes ∧
      (∀ init c, more = init ++ [c] →
        s.maxRollingBytes < (utf8Char c).length + byteLength (lastBytes s.maxRollingBytes s.tailText)) ∧
      s.trimTail = { s with
        tailStartsAtLineBoundary := EndsLine more
        tailText := lastBytes s.maxRollingBytes s.tailText
        tailBytes := byteLength (lastBytes s.maxRollingBytes s.tailText) } := by
  obtain ⟨more, heq, hle, hmax⟩ := lastBytes_split s.maxRollingBytes s.tailText
  have hne : more ≠ [] := by
    intro hnil
    rw [hnil, List.nil_append] at heq
    rw [← heq] at hle
    omega
  refine ⟨more, heq, hne, hle, hmax, ?_⟩
  have hdrop := drop_alignedStart s.maxRollingBytes s.tailText
  have hbytes : utf8 s.tailText = utf8 more ++ utf8 (lastBytes s.maxRollingBytes s.tailText) := by
    conv_lhs => rw [heq]
    exact List.flatMap_append
  set start := alignedStart (utf8 s.tailText) (byteLength s.tailText - s.maxRollingBytes) with hstart
  have hpos : 0 < start := by
    rw [hstart, alignedStart]
    omega
  have hlen : start = (utf8 more).length := by
    have hsum := congrArg List.length hbytes
    have hcut := congrArg List.length hdrop
    rw [List.length_append] at hsum
    rw [List.length_drop] at hcut
    have hle' : start ≤ (utf8 s.tailText).length := by
      rw [hstart, alignedStart]
      have htake := (List.takeWhile_sublist (p := isContinuation)
        (l := (utf8 s.tailText).drop (byteLength s.tailText - s.maxRollingBytes))).length_le
      rw [List.length_drop] at htake
      have : byteLength s.tailText = (utf8 s.tailText).length := rfl
      omega
    omega
  have hbyte : (utf8 s.tailText)[start - 1]? = (utf8 more)[(utf8 more).length - 1]? := by
    rw [hbytes, hlen, List.getElem?_append_left]
    have := byteLength_pos hne
    unfold byteLength at this
    omega
  unfold trimTail
  simp only
  rw [if_neg (show ¬(utf8 s.tailText).length ≤ s.maxRollingBytes by exact Nat.not_le.mpr hbig)]
  change OutputAccumulator.mk _ _ _ _ _ _ (bufferToString ((utf8 s.tailText).drop start))
    (byteLength (bufferToString ((utf8 s.tailText).drop start)))
    (if start = 0 then s.tailStartsAtLineBoundary else decide ((utf8 s.tailText)[start - 1]? = some 0x0a)) _ _ _ _ _ _ _ _ _ = _
  rw [hdrop, bufferToString_utf8, if_neg (by omega), hbyte]
  simp only [getLast_utf8 hne]

theorem getLast_append_piece (text : List Char) {piece : List Char} (h : piece ≠ []) :
    (text ++ piece).getLast? = piece.getLast? := List.getLast?_append_of_ne_nil _ h

/-- The open line of a piece with a line end in it. -/
theorem afterLastNewline_ne_nil {piece : List Char} (hne : piece ≠ []) :
    afterLastNewline piece ≠ [] ↔ piece.getLast? ≠ some '\n' := by
  obtain ⟨init, c, rfl⟩ := (List.eq_nil_or_concat' piece).resolve_left hne
  unfold afterLastNewline
  rw [List.reverse_append, List.reverse_singleton, List.singleton_append, List.takeWhile_cons]
  by_cases hc : c = '\n' <;> simp [hc]

/-- What the counts make of a piece of text. -/
theorem countLines_facts (s : OutputAccumulator) {text piece : List Char} (hne : piece ≠ [])
    (hcompleted : s.completedLines = text.count '\n') :
    (s.countLines piece).completedLines = (text ++ piece).count '\n' ∧
      ((s.countLines piece).hasOpenLine = true ↔ ¬(text ++ piece = [] ∨ (text ++ piece).getLast? = some '\n')) ∧
      (s.countLines piece).totalLines = (splitLinesForCounting (text ++ piece)).length := by
  have hlast := getLast_append_piece text hne
  have hnil : text ++ piece ≠ [] := by simp [hne]
  have hcompl : (s.countLines piece).completedLines = (text ++ piece).count '\n' := by
    unfold countLines
    simp only
    rw [List.count_append]
    by_cases h0 : piece.count '\n' = 0
    · rw [if_pos h0, h0]
      exact hcompleted
    · rw [if_neg h0]
      simp only [hcompleted]
  have hopen : (s.countLines piece).hasOpenLine = true ↔
      ¬(text ++ piece = [] ∨ (text ++ piece).getLast? = some '\n') := by
    rw [hlast]
    unfold countLines
    simp only [hnil, false_or]
    by_cases h0 : piece.count '\n' = 0
    · rw [if_pos h0]
      refine iff_of_true rfl fun hn => ?_
      exact List.count_eq_zero.mp h0 (List.mem_of_getLast? hn)
    · rw [if_neg h0]
      simp only [decide_eq_true_eq]
      exact afterLastNewline_ne_nil hne
  refine ⟨hcompl, hopen, ?_⟩
  have htotal : (s.countLines piece).totalLines =
      (s.countLines piece).completedLines + if (s.countLines piece).hasOpenLine then 1 else 0 := rfl
  rw [htotal, hcompl, length_splitLines]
  by_cases h : text ++ piece = [] ∨ (text ++ piece).getLast? = some '\n'
  · rw [if_pos h, if_neg (fun ho => hopen.mp ho h)]
  · rw [if_neg h, if_pos (hopen.mpr h)]

/-- The counts change nothing else. -/
theorem countLines_keeps (s : OutputAccumulator) (piece : List Char) :
    (s.countLines piece).maxLines = s.maxLines ∧ (s.countLines piece).maxBytes = s.maxBytes ∧
      (s.countLines piece).maxRollingBytes = s.maxRollingBytes ∧ (s.countLines piece).tailText = s.tailText ∧
      (s.countLines piece).tailBytes = s.tailBytes ∧
      (s.countLines piece).tailStartsAtLineBoundary = s.tailStartsAtLineBoundary ∧
      (s.countLines piece).totalDecodedBytes = s.totalDecodedBytes := by
  unfold countLines
  simp only
  split <;> exact ⟨rfl, rfl, rfl, rfl, rfl, rfl, rfl⟩

theorem endsLine_append {front more : List Char} (h : more ≠ []) : EndsLine (front ++ more) ↔ EndsLine more := by
  unfold EndsLine
  rw [List.getLast?_append_of_ne_nil _ h]

/-- **A piece of text.** The accumulator tracks the text with the piece, and keeps what the
rolling tail keeps. -/
theorem Tracks.piece {s : OutputAccumulator} {L B : ℕ} {text front kept piece : List Char}
    (h : Tracks s L B text front kept) (hne : piece ≠ []) :
    ∃ front', Tracks (s.appendDecodedText piece) L B (text ++ piece) front' (roll B kept piece) := by
  unfold appendDecodedText
  rw [if_neg hne]
  simp only
  set s' := { s with
    totalDecodedBytes := s.totalDecodedBytes + byteLength piece
    tailText := s.tailText ++ piece
    tailBytes := s.tailBytes + byteLength piece } with hs'
  have htail : s'.tailText = kept ++ piece := by rw [hs', ← h.tailText]
  have hbytes : s'.tailBytes = byteLength (kept ++ piece) := by rw [byteLength_append, ← h.tailBytes]
  have hrolling : s'.maxRollingBytes = 2 * B := h.maxRolling
  have hmaxLines : s'.maxLines = L := h.maxLines
  have hmaxBytes : s'.maxBytes = B := h.maxBytes
  have hcount : s'.completedLines = text.count '\n' := h.completed
  have hboundary : s'.tailStartsAtLineBoundary = true ↔ EndsLine front := h.boundary
  have hsplit : text ++ piece = front ++ (kept ++ piece) := by rw [h.split, List.append_assoc]
  have hdecoded : s'.totalDecodedBytes = byteLength (text ++ piece) := by rw [byteLength_append, ← h.decoded]
  change ∃ front', Tracks ((if s'.maxRollingBytes * 2 < s'.tailBytes then s'.trimTail else s').countLines piece) L B _
    front' _
  clear_value s'
  unfold roll
  by_cases hbig : 4 * B < byteLength (kept ++ piece)
  · have hcond : s'.maxRollingBytes * 2 < s'.tailBytes := by
      rw [hrolling, hbytes]
      omega
    rw [if_pos hbig, if_pos hcond]
    obtain ⟨more, heq, hmore, hle, hmax, htrim⟩ := trimTail_eq (s := s') (by rw [hrolling, htail]; omega)
    rw [htail, hrolling] at heq hle hmax htrim
    obtain ⟨h1, h2, h3, h4, h5, h6, h7⟩ := countLines_keeps s'.trimTail piece
    obtain ⟨hcompleted, hopen, hlines⟩ := @countLines_facts s'.trimTail text piece hne
      (by rw [htrim]; exact hcount)
    rw [htrim] at h1 h2 h3 h4 h5 h6 h7
    rw [htrim] at hcompleted hopen hlines ⊢
    refine ⟨front ++ more, h1.trans hmaxLines, h2.trans hmaxBytes, h3, ?_, h4, h5, by omega, ?_, ?_,
      h7.trans hdecoded, hcompleted, hopen, hlines⟩
    · rw [List.append_assoc, ← heq]
      exact hsplit
    · rw [endsLine_append hmore, h6]
      exact decide_eq_true_iff
    · intro init c hc
      obtain ⟨more', d, rfl⟩ := (List.eq_nil_or_concat' more).resolve_left hmore
      obtain rfl : d = c := by
        have hlast := congrArg List.getLast? hc
        simpa using hlast
      exact hmax more' d rfl
  · have hcond : ¬s'.maxRollingBytes * 2 < s'.tailBytes := by
      rw [hrolling, hbytes]
      omega
    rw [if_neg hbig, if_neg hcond]
    obtain ⟨h1, h2, h3, h4, h5, h6, h7⟩ := countLines_keeps s' piece
    obtain ⟨hcompleted, hopen, hlines⟩ := @countLines_facts s' text piece hne hcount
    refine ⟨front, h1.trans hmaxLines, h2.trans hmaxBytes, h3.trans hrolling, hsplit, h4.trans htail, h5.trans hbytes,
      by omega, by rw [h6]; exact hboundary, ?_, h7.trans hdecoded, hcompleted, hopen, hlines⟩
    intro init c hc
    have := h.maximal init c hc
    rw [byteLength_append]
    omega

theorem Tracks.append_text {s : OutputAccumulator} {L B : ℕ} {text front kept : List Char}
    (h : Tracks s L B text front kept) (piece : List Char) :
    ∃ front', Tracks (s.appendDecodedText piece) L B (text ++ piece) front' (roll B kept piece) := by
  by_cases hne : piece = []
  · subst hne
    have hroll : roll B kept [] = kept := by
      unfold roll
      rw [List.append_nil, if_neg (by have := h.small; omega)]
    rw [hroll, List.append_nil]
    exact ⟨front, h⟩
  · exact h.piece hne

/-- What the tracking reads of an accumulator. -/
theorem Tracks.congr {s s' : OutputAccumulator} {L B : ℕ} {text front kept : List Char} (h : Tracks s L B text front kept)
    (hs : s'.maxLines = s.maxLines ∧ s'.maxBytes = s.maxBytes ∧ s'.maxRollingBytes = s.maxRollingBytes ∧
      s'.tailText = s.tailText ∧ s'.tailBytes = s.tailBytes ∧
      s'.tailStartsAtLineBoundary = s.tailStartsAtLineBoundary ∧ s'.totalDecodedBytes = s.totalDecodedBytes ∧
      s'.completedLines = s.completedLines ∧ s'.hasOpenLine = s.hasOpenLine ∧ s'.totalLines = s.totalLines) :
    Tracks s' L B text front kept := by
  obtain ⟨h1, h2, h3, h4, h5, h6, h7, h8, h9, h10⟩ := hs
  exact ⟨h1.trans h.maxLines, h2.trans h.maxBytes, h3.trans h.maxRolling, h.split, h4.trans h.tailText,
    h5.trans h.tailBytes, h.small, by rw [h6]; exact h.boundary, h.maximal, h7.trans h.decoded, h8.trans h.completed,
    by rw [h9]; exact h.openLine, h10.trans h.lines⟩

theorem appendDecodedText_keeps (s : OutputAccumulator) (text : List Char) :
    (s.appendDecodedText text).finished = s.finished ∧ (s.appendDecodedText text).decoder = s.decoder := by
  unfold appendDecodedText
  split
  · exact ⟨rfl, rfl⟩
  · simp only
    unfold countLines trimTail
    simp only
    split_ifs <;> exact ⟨rfl, rfl⟩

/-- One chunk. -/
theorem Tracks.append {s : OutputAccumulator} {L B : ℕ} {text front kept : List Char}
    (h : Tracks s L B text front kept) (hopen : s.finished = false) (data : List ℕ) :
    ∃ s' front', s.append data = .ok s' ∧ s'.finished = false ∧ s'.decoder = (s.decoder.stream data).1 ∧
      Tracks s' L B (text ++ (s.decoder.stream data).2) front' (roll B kept (s.decoder.stream data).2) := by
  have h0 : Tracks { s with totalRawBytes := s.totalRawBytes + data.length, decoder := (s.decoder.stream data).1 }
      L B text front kept := h.congr ⟨rfl, rfl, rfl, rfl, rfl, rfl, rfl, rfl, rfl, rfl⟩
  obtain ⟨front', h1⟩ := h0.append_text (s.decoder.stream data).2
  obtain ⟨hfin, hdec⟩ := appendDecodedText_keeps
    { s with totalRawBytes := s.totalRawBytes + data.length, decoder := (s.decoder.stream data).1 }
    (s.decoder.stream data).2
  unfold OutputAccumulator.append
  rw [if_neg (by rw [hopen]; decide)]
  simp only
  split
  · refine ⟨_, front', rfl, ?_, ?_, h1.congr ?_⟩
    · unfold ensureTempFile
      split <;> exact hfin.trans hopen
    · unfold ensureTempFile
      split <;> exact hdec
    · unfold ensureTempFile
      split <;> exact ⟨rfl, rfl, rfl, rfl, rfl, rfl, rfl, rfl, rfl, rfl⟩
  · refine ⟨_, front', rfl, ?_, ?_, h1.congr ?_⟩
    · split <;> exact hfin.trans hopen
    · split <;> exact hdec
    · split <;> exact ⟨rfl, rfl, rfl, rfl, rfl, rfl, rfl, rfl, rfl, rfl⟩

/-- The chunks, and the end of the stream. -/
theorem Tracks.accumulate {L B : ℕ} : ∀ (chunks : List (List ℕ)) {s : OutputAccumulator} {text front kept : List Char},
    Tracks s L B text front kept → s.finished = false →
    ∃ s' front', Trek.Tools.accumulate s chunks = .ok s' ∧
      Tracks s' L B (text ++ (s.decoder.pieces chunks).flatten) front' ((s.decoder.pieces chunks).foldl (roll B) kept)
  | [], s, text, front, kept, h, hopen => by
    have h0 : Tracks { s with finished := true } L B text front kept :=
      h.congr ⟨rfl, rfl, rfl, rfl, rfl, rfl, rfl, rfl, rfl, rfl⟩
    obtain ⟨front', h1⟩ := h0.append_text s.decoder.finish
    refine ⟨s.finish, front', rfl, ?_⟩
    have hpieces : s.decoder.pieces [] = [s.decoder.finish] := rfl
    rw [hpieces, List.flatten_singleton, List.foldl_cons, List.foldl_nil]
    refine h1.congr ?_
    unfold OutputAccumulator.finish
    rw [if_neg (by rw [hopen]; decide)]
    simp only
    split
    · unfold ensureTempFile
      split <;> exact ⟨rfl, rfl, rfl, rfl, rfl, rfl, rfl, rfl, rfl, rfl⟩
    · exact ⟨rfl, rfl, rfl, rfl, rfl, rfl, rfl, rfl, rfl, rfl⟩
  | chunk :: chunks, s, text, front, kept, h, hopen => by
    obtain ⟨s', front', happend, hopen', hdec, h1⟩ := h.append hopen chunk
    obtain ⟨s'', front'', hrest, h2⟩ := Tracks.accumulate chunks h1 hopen'
    refine ⟨s'', front'', ?_, ?_⟩
    · have hbind : Trek.Tools.accumulate s (chunk :: chunks) = Trek.Tools.accumulate s' chunks := by
        unfold Trek.Tools.accumulate
        rw [List.foldlM_cons, happend]
        rfl
      rw [hbind, hrest]
    · rw [hdec] at h2
      have hpieces : s.decoder.pieces (chunk :: chunks) =
          (s.decoder.stream chunk).2 :: (s.decoder.stream chunk).1.pieces chunks := rfl
      rw [hpieces, List.flatten_cons, List.foldl_cons, ← List.append_assoc]
      exact h2

/-! ### Two truncations -/

section

variable {L B : ℕ}

/-- What `truncateTail` makes of the lines it collects. -/
def Collected.outcome (c : Collected) (L B : ℕ) : List Char × Option TruncatedBy :=
  (joinLines c.outputLinesArr, some (c.limit L B))

/-- What a snapshot makes of a text whose whole output is beyond the byte limit. -/
def snapshotOutcome (L B : ℕ) (text : List Char) : List Char × Option TruncatedBy :=
  ((truncateTail text L B).content, some ((truncateTail text L B).truncatedBy.getD .bytes))

theorem truncateTail_beyond {text : List Char}
    (h : ¬((splitLinesForCounting text).length ≤ L ∧ byteLength text ≤ B)) :
    ((truncateTail text L B).content, (truncateTail text L B).truncatedBy) =
      (collect L B (splitLinesForCounting text).reverse [] 0).outcome L B := by
  unfold truncateTail
  simp only
  rw [if_neg h]
  rfl

theorem snapshotOutcome_beyond {text : List Char}
    (h : ¬((splitLinesForCounting text).length ≤ L ∧ byteLength text ≤ B)) :
    snapshotOutcome L B text = (collect L B (splitLinesForCounting text).reverse [] 0).outcome L B := by
  rw [← truncateTail_beyond h]
  unfold snapshotOutcome truncateTail
  simp only
  rw [if_neg h]
  rfl

theorem snapshotOutcome_within {text : List Char}
    (h : (splitLinesForCounting text).length ≤ L ∧ byteLength text ≤ B) :
    snapshotOutcome L B text = (text, some .bytes) := by
  unfold snapshotOutcome truncateTail
  simp only
  rw [if_pos h]
  rfl

theorem collect_zero (lines : List (List Char)) :
    collect L B lines [] 0 = collect L B lines [] (joinBytes []) := rfl

/-- A last line beyond the byte limit is kept in part. -/
theorem collect_part {line : List Char} {more : List (List Char)} (hL : 1 ≤ L) (hline : B < byteLength line) :
    (collect L B (line :: more) [] 0).outcome L B = (lastBytes B line, some (if L = 1 then .lines else .bytes)) := by
  have hle : byteLength (lastBytes B line) ≤ B := by
    obtain ⟨_, -, hle, -⟩ := lastBytes_split B line
    exact hle
  unfold collect
  rw [if_pos (show List.length (α := List Char) [] < L by exact hL)]
  simp only [List.length_nil, Nat.lt_irrefl, if_false, Nat.add_zero, Nat.zero_add, hline, if_true,
    truncateStringToBytesFromEnd_eq]
  unfold Collected.outcome Collected.limit
  simp only [List.length_singleton, hle, and_true]
  by_cases h1 : L = 1
  · rw [if_pos h1, if_pos (by omega)]
    simp [joinLines]
  · rw [if_neg h1, if_neg (by omega)]
    simp [joinLines]

/-- The loop over lines within the limits ends with all of them, before a line that does not
fit and without one. -/
theorem collect_all {lines : List (List Char)} (hl : lines.length ≤ L) (hb : joinBytes lines ≤ B) :
    (collect L B lines.reverse [] 0).outcome L B = (joinLines lines, some .lines) := by
  have h := @collect_fits L B [] lines.reverse [] (by simpa using hl) (by simpa using hb)
  rw [List.append_nil, List.reverse_reverse, List.append_nil] at h
  rw [collect_zero, h, collect]
  unfold Collected.outcome Collected.limit
  simp only
  split <;> rfl

theorem collect_before {line : List Char} {lines more : List (List Char)} (hne : lines ≠ []) (hl : lines.length ≤ L)
    (hb : joinBytes lines ≤ B) (hline : B < byteLength line + 1 + joinBytes lines) :
    (collect L B (lines.reverse ++ line :: more) [] 0).outcome L B =
      (joinLines lines, some (if lines.length = L then .lines else .bytes)) := by
  have h := @collect_fits L B (line :: more) lines.reverse [] (by simpa using hl)
    (by simpa using hb)
  rw [List.reverse_reverse, List.append_nil] at h
  have hpos := List.length_pos_iff.mpr hne
  rw [collect_zero, h, collect]
  unfold Collected.outcome Collected.limit
  by_cases hL : lines.length = L
  · rw [if_neg (by omega), if_pos hL]
    simp only [hL, le_refl, hb, and_self, if_true]
  · rw [if_pos (by omega), if_neg hL]
    simp only [hpos, if_true]
    rw [if_pos (by omega), if_neg (by omega), if_neg (by simp only; omega)]

/-- The last character decides whether anything of a line can be kept. -/
theorem lastBytes_eq_nil_iff {init : List Char} {c : Char} :
    lastBytes B (init ++ [c]) = [] ↔ B < (utf8Char c).length := by
  constructor
  · intro h
    obtain ⟨front, heq, -, hmax⟩ := lastBytes_split B (init ++ [c])
    rw [h, List.append_nil] at heq
    have := hmax init c heq.symm
    rwa [h] at this
  · intro h
    exact @lastBytes_append B init [] c h

/-- No line starts in the tail: the last line of the output goes beyond it. -/
theorem outcome_no_line {front kept : List Char} (hL : 1 ≤ L) (hB : 1 ≤ B)
    (hmax : ∀ init c, front = init ++ [c] → 2 * B < (utf8Char c).length + byteLength kept)
    (hfront : ¬EndsLine front) (hkept : '\n' ∉ kept) :
    snapshotOutcome L B kept =
      (collect L B (splitLinesForCounting (front ++ kept)).reverse [] 0).outcome L B ↔
      ¬(L = 1 ∧ byteLength kept ≤ B) := by
  obtain ⟨before, line, rfl, hbefore, hline⟩ := exists_endsLine front
  have hne : line ≠ [] := by
    intro hnil
    apply hfront
    rwa [hnil, List.append_nil]
  obtain ⟨init, c, rfl⟩ := (List.eq_nil_or_concat' line).resolve_left hne
  have hlong := hmax (before ++ init) c (by rw [List.append_assoc])
  have hmem : '\n' ∉ init ++ [c] ++ kept := by
    rw [List.mem_append, not_or]
    exact ⟨hline, hkept⟩
  have hlast : lastBytes B (init ++ [c] ++ kept) = lastBytes B kept := by
    rw [List.append_assoc, List.singleton_append]
    exact lastBytes_append (by omega)
  have hwhole : (collect L B (splitLinesForCounting (before ++ (init ++ [c]) ++ kept)).reverse [] 0).outcome L B =
      (lastBytes B kept, some (if L = 1 then .lines else .bytes)) := by
    rw [List.append_assoc, splitLines_append before hbefore, splitLines_single hmem (by simp), List.reverse_append,
      List.reverse_singleton, List.singleton_append, collect_part hL, hlast]
    rw [byteLength_append, byteLength_append, byteLength_cons]
    omega
  rw [hwhole]
  by_cases hfit : byteLength kept ≤ B
  · have hlines : (splitLinesForCounting kept).length ≤ L := by
      by_cases hk : kept = []
      · rw [hk]
        exact Nat.zero_le L
      · rw [splitLines_single hkept hk]
        exact hL
    rw [snapshotOutcome_within ⟨hlines, hfit⟩, lastBytes_of_le hfit]
    by_cases h1 : L = 1 <;> simp [h1, hfit]
  · have hk : kept ≠ [] := by
      intro hnil
      rw [hnil] at hfit
      exact hfit (Nat.zero_le B)
    have hsame : snapshotOutcome L B kept = (lastBytes B kept, some (if L = 1 then .lines else .bytes)) := by
      rw [snapshotOutcome_beyond fun h => hfit h.2, splitLines_single hkept hk, List.reverse_singleton,
        collect_part hL (Nat.lt_of_not_le hfit)]
    exact iff_of_true hsame fun h => hfit h.2

/-- A line starts in the tail: the whole lines of the tail are the last ones of the output, and
the line before them is too long to fit with them. -/
theorem outcome_lines {before line lines : List Char} (hL : 1 ≤ L) (hB : 1 ≤ B) (hbefore : EndsLine before)
    (hline : '\n' ∉ line) (hlong : 2 * B < byteLength line + 1 + byteLength lines) :
    snapshotOutcome L B lines =
      (collect L B (splitLinesForCounting (before ++ (line ++ '\n' :: lines))).reverse [] 0).outcome L B ↔
    if lines = [] then 1 < L ∧ lastBytes B line = []
    else ¬((splitLinesForCounting lines).length = L ∧ byteLength lines ≤ B) ∧
      ¬((splitLinesForCounting lines).length < L ∧ lines.getLast? = some '\n' ∧ byteLength lines ≤ B + 1) := by
  rw [splitLines_append before hbefore, splitLines_cons hline, List.reverse_append, List.reverse_cons, List.append_assoc,
    List.singleton_append]
  by_cases hnil : lines = []
  · -- only the line itself is left, and part of it is kept
    subst hnil
    have hline' : B < byteLength line := by
      have h0 : byteLength ([] : List Char) = 0 := rfl
      omega
    rw [if_pos rfl, snapshotOutcome_within ⟨Nat.zero_le L, Nat.zero_le B⟩]
    show _ = (collect L B (line :: _) [] 0).outcome L B ↔ _
    rw [collect_part hL hline', Prod.mk.injEq, Option.some.injEq]
    by_cases h1 : L = 1
    · simp [h1]
    · have h1' : 1 < L := by omega
      rw [if_neg h1]
      exact ⟨fun h => ⟨h1', h.1.symm⟩, fun h => ⟨h.2.symm, rfl⟩⟩
  · rw [if_neg hnil]
    have hbytes := byteLength_eq lines
    have hls := splitLines_ne_nil hnil
    set ls := splitLinesForCounting lines with hlsdef
    by_cases hfits : ls.length ≤ L ∧ joinBytes ls ≤ B
    · -- the lines of the tail are used up, and the line before them does not fit
      obtain ⟨hl, hb⟩ := hfits
      have hle : (if lines.getLast? = some '\n' then 1 else 0) ≤ 1 := by split <;> omega
      rw [collect_before hls hl hb (by omega)]
      by_cases hin : byteLength lines ≤ B
      · rw [snapshotOutcome_within ⟨hl, hin⟩, Prod.mk.injEq, Option.some.injEq]
        by_cases hfull : ls.length = L
        · simp [hfull, hin]
        · have hlt : ls.length < L := by omega
          have hjoin := joinLines_splitLines lines
          rw [← hlsdef] at hjoin
          have hend : lines = joinLines ls ↔ ¬lines.getLast? = some '\n' := by
            by_cases hn : lines.getLast? = some '\n'
            · rw [if_pos hn] at hjoin
              refine iff_of_false (fun he => ?_) fun h => h hn
              have := congrArg List.length hjoin
              rw [← he, List.length_append, List.length_singleton] at this
              omega
            · rw [if_neg hn, List.append_nil] at hjoin
              exact iff_of_true hjoin.symm hn
          have hin' : byteLength lines ≤ B + 1 := by omega
          simp [hfull, hlt, hend, hin']
      · -- the line end alone is beyond the limit
        have hn : lines.getLast? = some '\n' := by
          by_contra hn
          rw [if_neg hn] at hbytes
          omega
        rw [if_pos hn] at hbytes
        rw [snapshotOutcome_beyond fun h => hin h.2, ← hlsdef, collect_all hl hb, Prod.mk.injEq, Option.some.injEq]
        by_cases hfull : ls.length = L
        · simp [hfull, hin]
        · have hlt : ls.length < L := by omega
          have hin' : byteLength lines ≤ B + 1 := by omega
          simp [hfull, hlt, hn, hin']
    · have hstop := @collect_stops L B (line :: (splitLinesForCounting before).reverse)
        ls.reverse [] (Nat.zero_le L) (Nat.zero_le B) (by simpa using hfits)
      rw [collect_zero, hstop, ← collect_zero, snapshotOutcome_beyond fun h => hfits ⟨h.1, by omega⟩]
      refine iff_of_true rfl ⟨fun h => hfits ⟨h.1.le, by omega⟩, fun h => hfits ⟨h.1.le, ?_⟩⟩
      have hb := h.2.2
      rw [hbytes, if_pos h.2.1] at hb
      omega

end

/-! ### The snapshot -/

/-- The text with the whole lines of the tail at its end. -/
theorem wholeLines_split {B : ℕ} {front kept lines : List Char}
    (hmax : ∀ init c, front = init ++ [c] → 2 * B < (utf8Char c).length + byteLength kept) (hne : front ≠ [])
    (h : wholeLines front kept = some lines) : ∃ before line, front ++ kept = before ++ (line ++ '\n' :: lines) ∧
      EndsLine before ∧ '\n' ∉ line ∧ 2 * B < byteLength line + 1 + byteLength lines := by
  obtain ⟨init, c, rfl⟩ := (List.eq_nil_or_concat' front).resolve_left hne
  have hlong := hmax init c rfl
  unfold wholeLines at h
  by_cases hends : EndsLine (init ++ [c])
  · rw [if_pos hends, Option.some.injEq] at h
    subst h
    obtain rfl : c = '\n' := hends c (by simp)
    obtain ⟨before, line, rfl, hbefore, hline⟩ := exists_endsLine init
    refine ⟨before, line, by simp, hbefore, hline, ?_⟩
    have hone : (utf8Char '\n').length = 1 := rfl
    omega
  · rw [if_neg hends] at h
    obtain ⟨⟨p, rest⟩, hcut, rfl⟩ := Option.map_eq_some_iff.mp h
    have hkept := eq_of_cutAt hcut
    obtain ⟨before, line, hfront, hbefore, hline⟩ := exists_endsLine (init ++ [c])
    have hline' : line ≠ [] := by
      intro hnil
      apply hends
      rwa [hfront, hnil, List.append_nil]
    obtain ⟨line', d, rfl⟩ := (List.eq_nil_or_concat' line).resolve_left hline'
    obtain rfl : c = d := by
      have hlast := congrArg List.getLast? hfront
      rw [← List.append_assoc] at hlast
      simpa using hlast
    -- the part of the line in the tail has no line end, since the first one was cut at
    have hp : '\n' ∉ p := by
      intro hmem
      obtain ⟨a, b, rfl⟩ := List.append_of_mem hmem
      have hcut' : cutAt ['\n'] (a ++ ('\n' :: b ++ (['\n'] ++ rest))) = some (a ++ '\n' :: b, rest) := by
        rw [← List.append_assoc, ← hkept]
        exact hcut
      have hdrop := cutAt_drop a hcut'
      rw [List.cons_append, show ('\n' :: (b ++ (['\n'] ++ rest))) = ['\n'] ++ (b ++ (['\n'] ++ rest)) from rfl,
        cutAt_of_prefix _ (by simp)] at hdrop
      cases hdrop
    refine ⟨before, line' ++ [c] ++ p, ?_, hbefore, ?_, ?_⟩
    · rw [hfront, hkept]
      simp
    · rw [List.mem_append, not_or]
      exact ⟨hline, hp⟩
    · have hsum := congrArg byteLength hkept
      rw [byteLength_append, byteLength_append] at hsum
      have hone : byteLength ['\n'] = 1 := rfl
      have hc : byteLength [c] = (utf8Char c).length := by simp [byteLength, utf8]
      simp only
      rw [byteLength_append, byteLength_append, hc]
      omega

theorem getSnapshotText_eq {s : OutputAccumulator} {L B : ℕ} {text front kept : List Char}
    (h : Tracks s L B text front kept) : s.getSnapshotText = (wholeLines front kept).getD kept := by
  unfold getSnapshotText wholeLines
  rw [h.tailText]
  by_cases hb : EndsLine front
  · rw [if_pos (h.boundary.mpr hb), if_pos hb]
    rfl
  · rw [if_neg (mt h.boundary.mp hb), if_neg hb]
    cases cutAt ['\n'] kept with
    | none => rfl
    | some p => rfl

/-- The counts of a snapshot are those of the text; what can differ is what is shown. -/
theorem tracked_agrees_iff {s : OutputAccumulator} {L B : ℕ} {text front kept : List Char} (h : Tracks s L B text front kept) :
    Agrees (s.snapshot false).1 (truncateTail text L B) ↔
      (truncateTail s.getSnapshotText L B).content = (truncateTail text L B).content ∧
      (s.snapshot false).1.truncation.truncatedBy = (truncateTail text L B).truncatedBy := by
  have htruncated : (s.snapshot false).1.truncation.truncated = (truncateTail text L B).truncated := by
    show (decide (s.maxLines < s.totalLines) || decide (s.maxBytes < s.totalDecodedBytes)) = _
    rw [h.maxLines, h.maxBytes, h.lines, h.decoded]
    unfold truncateTail
    simp only
    split
    · rename_i hfit
      simp only [Bool.or_eq_false_iff, decide_eq_false_iff_not]
      omega
    · rename_i hfit
      simp only [Bool.or_eq_true, decide_eq_true_eq]
      omega
  have hlines : (truncateTail text L B).totalLines = (splitLinesForCounting text).length := by
    unfold truncateTail
    simp only
    split <;> rfl
  have hbytes : (truncateTail text L B).totalBytes = byteLength text := by
    unfold truncateTail
    simp only
    split <;> rfl
  have hcontent : (s.snapshot false).1.content = (truncateTail s.getSnapshotText L B).content := by
    show (truncateTail s.getSnapshotText s.maxLines s.maxBytes).content = _
    rw [h.maxLines, h.maxBytes]
  constructor
  · intro hagrees
    exact ⟨hcontent ▸ hagrees.content, hagrees.truncatedBy⟩
  · rintro ⟨hc, hby⟩
    exact ⟨hcontent.trans hc, htruncated, hby, h.lines.trans hlines.symm, h.decoded.trans hbytes.symm⟩

theorem snapshot_truncatedBy {s : OutputAccumulator} {L B : ℕ} {text front kept : List Char}
    (h : Tracks s L B text front kept) : (s.snapshot false).1.truncation.truncatedBy =
      if L < (splitLinesForCounting text).length ∨ B < byteLength text then
        some ((truncateTail s.getSnapshotText L B).truncatedBy.getD (if B < byteLength text then .bytes else .lines))
      else none := by
  show (if (decide (s.maxLines < s.totalLines) || decide (s.maxBytes < s.totalDecodedBytes)) = true then
    some ((truncateTail s.getSnapshotText s.maxLines s.maxBytes).truncatedBy.getD
      (if s.maxBytes < s.totalDecodedBytes then .bytes else .lines)) else none) = _
  rw [h.maxLines, h.maxBytes, h.lines, h.decoded]
  simp only [Bool.or_eq_true, decide_eq_true_eq]

/-- The snapshot of an accumulator that tracks a text agrees with the truncation of the text
exactly when the kept tail says what the text says. -/
theorem Tracks.agrees_iff_same {s : OutputAccumulator} {L B : ℕ} {text front kept : List Char}
    (h : Tracks s L B text front kept) (hL : 1 ≤ L) (hB : 1 ≤ B) :
    Agrees (s.snapshot false).1 (truncateTail text L B) ↔ SameTruncation L B front kept := by
  rw [tracked_agrees_iff h, snapshot_truncatedBy h]
  have hview := getSnapshotText_eq h
  by_cases hfront : front = []
  · -- nothing was dropped: the snapshot truncates the text itself
    have htext : s.getSnapshotText = text := by
      have hends : EndsLine ([] : List Char) := by
        intro c hc
        cases hc
      rw [hview, h.split, hfront, wholeLines, if_pos hends]
      rfl
    rw [htext]
    refine iff_of_true ⟨rfl, ?_⟩ (Or.inl hfront)
    by_cases hfit : (splitLinesForCounting text).length ≤ L ∧ byteLength text ≤ B
    · unfold truncateTail
      simp only
      rw [if_neg (by omega), if_pos hfit]
    · unfold truncateTail
      simp only
      rw [if_pos (by omega), if_neg hfit]
      rfl
  · have hlong : B < byteLength text := by
      obtain ⟨init, c, hc⟩ := (List.eq_nil_or_concat' front).resolve_left hfront
      have := h.maximal init c hc
      rw [h.split, hc, byteLength_append, byteLength_append, byteLength_cons]
      omega
    have hwhole := @truncateTail_beyond L B text (by omega)
    have hpair : ((truncateTail s.getSnapshotText L B).content = (truncateTail text L B).content ∧
        some ((truncateTail s.getSnapshotText L B).truncatedBy.getD .bytes) = (truncateTail text L B).truncatedBy) ↔
        snapshotOutcome L B s.getSnapshotText =
          (collect L B (splitLinesForCounting text).reverse [] 0).outcome L B := by
      rw [← hwhole, snapshotOutcome, Prod.mk.injEq]
    rw [if_pos (Or.inr hlong), if_pos hlong, hpair]
    unfold SameTruncation
    rw [or_iff_right hfront]
    cases hlines : wholeLines front kept with
    | none =>
      have hends : ¬EndsLine front := by
        intro hends
        rw [wholeLines, if_pos hends] at hlines
        cases hlines
      have hkept : '\n' ∉ kept := by
        rw [wholeLines, if_neg hends, Option.map_eq_none_iff, cutAt_eq_none_iff (by simp)] at hlines
        intro hmem
        apply hlines
        obtain ⟨a, b, rfl⟩ := List.append_of_mem hmem
        exact ⟨a, b, by simp⟩
      rw [hview, hlines, h.split]
      exact outcome_no_line hL hB h.maximal hends hkept
    | some lines =>
      obtain ⟨before, line, hsplit, hbefore, hline, hlong'⟩ := wholeLines_split h.maximal hfront hlines
      rw [hview, hlines, h.split, hsplit]
      refine (outcome_lines hL hB hbefore hline hlong').trans ?_
      simp only
      by_cases hnil : lines = []
      · subst hnil
        rw [if_pos rfl, if_pos rfl]
        have hne : line ≠ [] := by
          intro h0
          rw [h0] at hlong'
          have h1 : byteLength ([] : List Char) = 0 := rfl
          omega
        obtain ⟨init, c, rfl⟩ := (List.eq_nil_or_concat' line).resolve_left hne
        have hlast : (before ++ (init ++ [c] ++ ['\n'])).dropLast.getLast? = some c := by
          rw [← List.append_assoc, List.dropLast_concat, ← List.append_assoc]
          simp
        rw [hlast, lastBytes_eq_nil_iff]
        simp
      · rw [if_neg hnil, if_neg hnil]

/-- **A snapshot after `finish` says what `truncateTail` says of the whole decoded output
exactly when the rolling tail tells the same**: nothing was dropped from it, or its whole
lines run into a limit as the lines of the output do (`SameTruncation`). -/
theorem snapshot_agrees_iff (maxLines maxBytes : Option ℕ) (tempPath : String) (chunks : List (List ℕ))
    (hL : 1 ≤ maxLines.getD DEFAULT_MAX_LINES) (hB : 1 ≤ maxBytes.getD DEFAULT_MAX_BYTES) :
    ∃ s front, accumulate (.new maxLines maxBytes tempPath) chunks = .ok s ∧
      TextDecoder.decodeAll chunks.flatten =
        front ++ rollingTail (maxBytes.getD DEFAULT_MAX_BYTES) (TextDecoder.new.pieces chunks) ∧
      (Agrees (s.snapshot false).1 (truncateTail (TextDecoder.decodeAll chunks.flatten)
          (maxLines.getD DEFAULT_MAX_LINES) (maxBytes.getD DEFAULT_MAX_BYTES)) ↔
        SameTruncation (maxLines.getD DEFAULT_MAX_LINES) (maxBytes.getD DEFAULT_MAX_BYTES) front
          (rollingTail (maxBytes.getD DEFAULT_MAX_BYTES) (TextDecoder.new.pieces chunks))) := by
  have hnew : Tracks (.new maxLines maxBytes tempPath) (maxLines.getD DEFAULT_MAX_LINES)
      (maxBytes.getD DEFAULT_MAX_BYTES) [] [] [] := by
    refine ⟨rfl, rfl, ?_, rfl, rfl, rfl, Nat.zero_le _, ?_, ?_, rfl, rfl, ?_, rfl⟩
    · show max _ 1 = _
      omega
    · refine iff_of_true rfl fun c hc => ?_
      cases hc
    · intro init c hc
      simp at hc
    · exact iff_of_false Bool.false_ne_true fun h => h (Or.inl rfl)
  obtain ⟨s, front, hrun, htracks⟩ := hnew.accumulate chunks rfl
  have htext : ([] : List Char) ++ (TextDecoder.new.pieces chunks).flatten = TextDecoder.decodeAll chunks.flatten :=
    TextDecoder.flatten_pieces chunks .new
  have hdecoder : (OutputAccumulator.new maxLines maxBytes tempPath).decoder = TextDecoder.new := rfl
  rw [hdecoder, htext] at htracks
  exact ⟨s, front, hrun, htracks.split, htracks.agrees_iff_same hL hB⟩

/-- A short output. -/
theorem snapshot_agrees_iff_short : ∃ s front, accumulate (.new none none "pi-output.log") [[0x61], [0x0a]] = .ok s ∧
    TextDecoder.decodeAll [[0x61], [0x0a]].flatten = front ++ rollingTail 51200 (TextDecoder.new.pieces [[0x61], [0x0a]]) ∧
    (Agrees (s.snapshot false).1 (truncateTail (TextDecoder.decodeAll [[0x61], [0x0a]].flatten) 2000 51200) ↔
      SameTruncation 2000 51200 front (rollingTail 51200 (TextDecoder.new.pieces [[0x61], [0x0a]]))) :=
  snapshot_agrees_iff none none "pi-output.log" [[0x61], [0x0a]] (by decide) (by decide)

end Trek.Tools
