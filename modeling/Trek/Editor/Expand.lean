/-
# Expanded paste markers

`expandPasteMarkers` replaces the markers of one paste after the other, in a text that already holds the
contents of the pastes before. If every marker that it finds was typed, this is the same as replacing
the markers of all pastes at once (`expandPasteMarkers_eq`); a content that contains the marker of a
later paste is expanded again.
-/
import Mathlib.Data.List.TakeWhile
import Trek.Editor.State

namespace Trek.Editor

open Trek.Tui

/-! ### Markers as texts -/

/-- A text of digits. -/
def IsDigits (text : List ℕ) : Prop := text ≠ [] ∧ ∀ c ∈ text, isDigit c = true

/-- The end of a marker. -/
inductive IsMarkerTail : List ℕ → Prop
  | plain : IsMarkerTail [0x5d]
  | lines {digits : List ℕ} (h : IsDigits digits) : IsMarkerTail (0x20 :: 0x2b :: (digits ++ LINES_END))
  | chars {digits : List ℕ} (h : IsDigits digits) : IsMarkerTail (0x20 :: (digits ++ CHARS_END))

/-- A marker of a paste: `[paste #ID]`, `[paste #ID +N lines]` or `[paste #ID N chars]`. -/
def IsMarker (pasteId : ℕ) (text : List ℕ) : Prop :=
  ∃ tail, IsMarkerTail tail ∧ text = MARKER_START ++ (decimal pasteId ++ tail)

/-! ### All markers at once -/

/-- A character of the editor, or the content of a paste in the place of its marker. -/
inductive Piece where
  | typed (c : ℕ)
  | pasted (pasteContent : List ℕ)

/-- The text of a piece. -/
def Piece.text : Piece → List ℕ
  | typed c => [c]
  | pasted pasteContent => pasteContent

/-- The text of pieces. -/
def piecesText (pieces : List Piece) : List ℕ := pieces.flatMap Piece.text

/-- The content of the paste whose marker stands at the start of a text, and the length of the marker. -/
def markerAt (pastes : List (ℕ × List ℕ)) (text : List ℕ) : Option (List ℕ × ℕ) :=
  pastes.findSome? fun paste => (matchMarkerOf paste.1 text).map (paste.2, ·)

/-- Every marker of a stored paste is replaced at once: the text is read a single time, without as many
characters as are left of a marker. -/
def expandAtOnce (pastes : List (ℕ × List ℕ)) : ℕ → List ℕ → List Piece
  | _, [] => []
  | skip + 1, _ :: text => expandAtOnce pastes skip text
  | 0, c :: text =>
    match markerAt pastes (c :: text) with
    | some (pasteContent, length) => .pasted pasteContent :: expandAtOnce pastes (length - 1) text
    | none => .typed c :: expandAtOnce pastes 0 text

/-- The markers of a paste in a text are typed: no character of them comes from a content. -/
def MarkersTyped (pasteId : ℕ) (pieces : List Piece) : Prop :=
  ∀ front m back, IsMarker pasteId m → piecesText pieces = front ++ (m ++ back) →
    ∃ before after, pieces = before ++ (m.map Piece.typed ++ after) ∧ piecesText before = front

variable {pasteId : ℕ} {pasteContent text : List ℕ} {pastes : List (ℕ × List ℕ)}

/-! ### Matching a marker -/

theorem takeWhile_digits {digits rest : List ℕ} {c : ℕ} (hdigits : ∀ d ∈ digits, isDigit d = true) (hc : isDigit c = false) :
    (digits ++ c :: rest).takeWhile isDigit = digits := by
  rw [List.takeWhile_append_of_pos hdigits, List.takeWhile_cons_of_neg (by simp [hc]), List.append_nil]

theorem digitsLength_eq_some_iff {stop stop' : List ℕ} {c length : ℕ} (hstop : stop = c :: stop') (hc : isDigit c = false) :
    digitsLength stop text = some length ↔
      ∃ digits rest, text = digits ++ (stop ++ rest) ∧ IsDigits digits ∧ length = (digits ++ stop).length := by
  unfold digitsLength
  dsimp only
  constructor
  · intro h
    split at h
    · next hmatch =>
      obtain ⟨rest, hrest⟩ := List.isPrefixOf_iff_prefix.mp hmatch.2
      refine ⟨text.takeWhile isDigit, rest, ?_, ⟨hmatch.1, fun d hd => List.mem_takeWhile_imp hd⟩, ?_⟩
      · calc text
          _ = text.take (text.takeWhile isDigit).length ++ text.drop (text.takeWhile isDigit).length :=
            (List.take_append_drop _ _).symm
          _ = _ := by rw [← List.prefix_iff_eq_take.mp (List.takeWhile_prefix isDigit), hrest]
      · rw [List.length_append]
        exact (Option.some.inj h).symm
    · cases h
  · rintro ⟨digits, rest, rfl, hdigits, rfl⟩
    have htake : (digits ++ (stop ++ rest)).takeWhile isDigit = digits := hstop ▸ takeWhile_digits hdigits.2 hc
    rw [htake, List.drop_left, List.length_append]
    exact if_pos ⟨hdigits.1, List.isPrefixOf_iff_prefix.mpr (List.prefix_append _ _)⟩

theorem LINES_END_eq : LINES_END = 0x20 :: ascii "lines]" := rfl

theorem CHARS_END_eq : CHARS_END = 0x20 :: ascii "chars]" := rfl

theorem markerTailLength_eq_some_iff {length : ℕ} :
    markerTailLength text = some length ↔ ∃ tail rest, text = tail ++ rest ∧ IsMarkerTail tail ∧ length = tail.length := by
  constructor
  · intro h
    unfold markerTailLength at h
    split at h
    · obtain rfl := Option.some.inj h
      exact ⟨[0x5d], _, rfl, .plain, rfl⟩
    · obtain ⟨n, hn, rfl⟩ := Option.map_eq_some_iff.mp h
      obtain ⟨digits, rest, rfl, hdigits, rfl⟩ := (digitsLength_eq_some_iff LINES_END_eq rfl).mp hn
      exact ⟨_, rest, by simp, .lines hdigits, by simp⟩
    · obtain ⟨n, hn, rfl⟩ := Option.map_eq_some_iff.mp h
      obtain ⟨digits, rest, rfl, hdigits, rfl⟩ := (digitsLength_eq_some_iff CHARS_END_eq rfl).mp hn
      exact ⟨_, rest, by simp, .chars hdigits, by simp⟩
    · cases h
  · rintro ⟨tail, rest, rfl, htail, rfl⟩
    cases htail with
    | plain => rfl
    | @lines digits hdigits =>
      have hlength := (digitsLength_eq_some_iff LINES_END_eq rfl).mpr ⟨digits, rest, (List.append_assoc _ _ _), hdigits, rfl⟩
      exact congrArg (Option.map (· + 2)) hlength
    | @chars digits hdigits =>
      have hlength := (digitsLength_eq_some_iff CHARS_END_eq rfl).mpr ⟨digits, rest, (List.append_assoc _ _ _), hdigits, rfl⟩
      obtain ⟨d, digits, rfl⟩ := List.exists_cons_of_ne_nil hdigits.1
      have hd : d ≠ 0x2b := by
        rintro rfl
        exact absurd (hdigits.2 _ List.mem_cons_self) (by decide)
      change markerTailLength (0x20 :: (d :: (digits ++ CHARS_END ++ rest))) = _
      rw [markerTailLength]
      · exact congrArg (Option.map (· + 1)) hlength
      · intro text heq
        exact hd (List.cons.inj heq).1

theorem matchMarkerOf_eq_some_iff {length : ℕ} :
    matchMarkerOf pasteId text = some length ↔ ∃ m rest, text = m ++ rest ∧ IsMarker pasteId m ∧ length = m.length := by
  unfold matchMarkerOf
  dsimp only
  constructor
  · intro h
    split at h
    · next hstart =>
      obtain ⟨rest, rfl⟩ := List.isPrefixOf_iff_prefix.mp hstart
      obtain ⟨n, hn, rfl⟩ := Option.map_eq_some_iff.mp h
      rw [List.drop_left] at hn
      obtain ⟨tail, rest, rfl, htail, rfl⟩ := markerTailLength_eq_some_iff.mp hn
      exact ⟨_, rest, by simp, ⟨tail, htail, rfl⟩, by simp [Nat.add_assoc]⟩
    · cases h
  · rintro ⟨m, rest, rfl, ⟨tail, htail, rfl⟩, rfl⟩
    have htext : MARKER_START ++ (decimal pasteId ++ tail) ++ rest = (MARKER_START ++ decimal pasteId) ++ (tail ++ rest) := by simp
    have hlength := markerTailLength_eq_some_iff.mpr ⟨tail, rest, rfl, htail, rfl⟩
    rw [htext, if_pos (List.isPrefixOf_iff_prefix.mpr (List.prefix_append _ _)), List.drop_left, hlength]
    simp [Nat.add_assoc]

/-- A marker starts with a bracket. -/
theorem IsMarker.eq_cons {m : List ℕ} (h : IsMarker pasteId m) : ∃ rest, m = 0x5b :: rest ∧ 0x5b ∉ rest := by
  obtain ⟨tail, htail, rfl⟩ := h
  have hdecimal : 0x5b ∉ decimal pasteId := fun hmem => by
    obtain ⟨d, hd, hd'⟩ := List.mem_map.mp hmem
    have hdigit := Nat.isDigit_of_mem_toDigits (by decide) (by decide) hd
    obtain rfl : d = '[' := Char.toNat_inj.mp hd'
    exact absurd hdigit (by decide)
  have hdigits : ∀ {digits}, IsDigits digits → 0x5b ∉ digits := fun h hmem => absurd (h.2 _ hmem) (by decide)
  have htail' : 0x5b ∉ tail := by
    cases htail with
    | plain => decide
    | lines h =>
      have hend : 0x5b ∉ LINES_END := by decide
      simp [hdigits h, hend]
    | chars h =>
      have hend : 0x5b ∉ CHARS_END := by decide
      simp [hdigits h, hend]
  have hstart : MARKER_START = 0x5b :: ascii "paste #" := rfl
  have hstart' : 0x5b ∉ ascii "paste #" := by decide
  exact ⟨ascii "paste #" ++ (decimal pasteId ++ tail), by rw [hstart]; rfl, by simp [hstart', hdecimal, htail']⟩

/-! ### Reading without markers -/

theorem piecesText_cons (p : Piece) (pieces : List Piece) : piecesText (p :: pieces) = p.text ++ piecesText pieces :=
  List.flatMap_cons

theorem piecesText_typed (text : List ℕ) : piecesText (text.map Piece.typed) = text := by
  rw [piecesText, List.flatMap_map]
  exact List.flatMap_singleton' text

theorem piecesText_append (pieces pieces' : List Piece) : piecesText (pieces ++ pieces') = piecesText pieces ++ piecesText pieces' :=
  List.flatMap_append

theorem expandAtOnce_skip : ∀ (skipped : List ℕ) {rest : List ℕ},
    expandAtOnce pastes skipped.length (skipped ++ rest) = expandAtOnce pastes 0 rest
  | [], _ => rfl
  | c :: skipped, rest => by rw [List.length_cons, List.cons_append, expandAtOnce, expandAtOnce_skip skipped]

theorem replaceMarkers_skip : ∀ (skipped : List ℕ) {rest : List ℕ},
    replaceMarkers pasteId pasteContent skipped.length (skipped ++ rest) = replaceMarkers pasteId pasteContent 0 rest
  | [], _ => rfl
  | c :: skipped, rest => by rw [List.length_cons, List.cons_append, replaceMarkers, replaceMarkers_skip skipped]

/-- Where no bracket is, no marker starts. -/
theorem markerAt_eq_none {c : ℕ} (hc : c ≠ 0x5b) (text : List ℕ) : markerAt pastes (c :: text) = none := by
  rw [markerAt, List.findSome?_eq_none_iff]
  intro paste _
  rw [Option.map_eq_none_iff]
  by_contra hsome
  obtain ⟨length, hlength⟩ := Option.ne_none_iff_exists'.mp hsome
  obtain ⟨m, rest, heq, hm, -⟩ := matchMarkerOf_eq_some_iff.mp hlength
  obtain ⟨m, rfl, -⟩ := hm.eq_cons
  exact hc (List.cons.inj heq).1

theorem expandAtOnce_typed : ∀ {front : List ℕ} {rest : List ℕ}, 0x5b ∉ front →
    expandAtOnce pastes 0 (front ++ rest) = front.map Piece.typed ++ expandAtOnce pastes 0 rest
  | [], _, _ => rfl
  | c :: front, rest, h => by
    rw [List.mem_cons, not_or] at h
    rw [List.cons_append, expandAtOnce, markerAt_eq_none (Ne.symm h.1)]
    dsimp only
    rw [expandAtOnce_typed h.2, List.map_cons, List.cons_append]

/-- A marker of a stored paste is replaced. -/
theorem expandAtOnce_marker {m rest : List ℕ} (hm : IsMarker pasteId m)
    (h : markerAt pastes (m ++ rest) = some (pasteContent, m.length)) :
    expandAtOnce pastes 0 (m ++ rest) = .pasted pasteContent :: expandAtOnce pastes 0 rest := by
  obtain ⟨m, rfl, -⟩ := hm.eq_cons
  rw [List.cons_append] at h ⊢
  rw [expandAtOnce, h]
  exact congrArg (Piece.pasted pasteContent :: ·) (expandAtOnce_skip m)

theorem replaceMarkers_marker {m rest : List ℕ} (hm : IsMarker pasteId m) :
    replaceMarkers pasteId pasteContent 0 (m ++ rest) = pasteContent ++ replaceMarkers pasteId pasteContent 0 rest := by
  have hmatch := matchMarkerOf_eq_some_iff.mpr ⟨m, rest, rfl, hm, rfl⟩
  obtain ⟨m, rfl, -⟩ := hm.eq_cons
  rw [List.cons_append] at hmatch ⊢
  rw [replaceMarkers, hmatch]
  exact congrArg (pasteContent ++ ·) (replaceMarkers_skip m)

/-- A text in which no marker starts is kept. -/
theorem replaceMarkers_front : ∀ {front rest : List ℕ},
    (∀ a b, front = a ++ b → b ≠ [] → matchMarkerOf pasteId (b ++ rest) = none) →
    replaceMarkers pasteId pasteContent 0 (front ++ rest) = front ++ replaceMarkers pasteId pasteContent 0 rest
  | [], _, _ => rfl
  | c :: front, rest, h => by
    have hnone : matchMarkerOf pasteId (c :: (front ++ rest)) = none := h [] (c :: front) rfl (List.cons_ne_nil c front)
    rw [List.cons_append, replaceMarkers, hnone]
    dsimp only
    rw [replaceMarkers_front fun a b heq hne => h (c :: a) b (congrArg (c :: ·) heq) hne, List.cons_append]

/-- Markers of one more paste come after those of the others. -/
theorem markerAt_concat (paste : ℕ × List ℕ) (text : List ℕ) :
    markerAt (pastes ++ [paste]) text = (markerAt pastes text).or ((matchMarkerOf paste.1 text).map (paste.2, ·)) := by
  rw [markerAt, List.findSome?_append]
  cases h : matchMarkerOf paste.1 text <;> simp [markerAt, h]

theorem exists_of_markerAt {length : ℕ} (h : markerAt pastes text = some (pasteContent, length)) :
    ∃ pasteId m rest, text = m ++ rest ∧ IsMarker pasteId m ∧ length = m.length := by
  obtain ⟨paste, -, hpaste⟩ := List.exists_of_findSome?_eq_some h
  obtain ⟨n, hn, heq⟩ := Option.map_eq_some_iff.mp hpaste
  obtain ⟨-, rfl⟩ := Prod.mk.inj heq
  obtain ⟨m, rest, heq, hm, hlength⟩ := matchMarkerOf_eq_some_iff.mp hn
  exact ⟨paste.1, m, rest, heq, hm, hlength⟩

/-- Pieces that are typed come from the same characters of the text. -/
theorem exists_of_expandAtOnce_typed : ∀ {m text : List ℕ} {after : List Piece},
    expandAtOnce pastes 0 text = m.map Piece.typed ++ after → ∃ rest, text = m ++ rest
  | [], text, _, _ => ⟨text, rfl⟩
  | _ :: _, [], _, h => by cases h
  | d :: m, c :: text, after, h => by
    rw [expandAtOnce] at h
    split at h
    · cases (List.cons.inj h).1
    · obtain ⟨hc, hrest⟩ := List.cons.inj h
      obtain rfl := Piece.typed.inj hc
      obtain ⟨rest, rfl⟩ := exists_of_expandAtOnce_typed hrest
      exact ⟨rest, rfl⟩

/-! ### One paste after the other -/

/-- A marker that starts where pieces start is typed there. -/
theorem MarkersTyped.head {p : Piece} {pieces : List Piece} {m back : List ℕ} (h : MarkersTyped pasteId (p :: pieces))
    (hp : p.text ≠ []) (hm : IsMarker pasteId m) (heq : piecesText (p :: pieces) = m ++ back) :
    ∃ after, p :: pieces = m.map Piece.typed ++ after := by
  obtain ⟨before, after, hpieces, hbefore⟩ := h [] m back hm heq
  cases before with
  | nil => exact ⟨after, hpieces⟩
  | cons q before =>
    obtain ⟨rfl, -⟩ := List.cons.inj hpieces
    rw [piecesText_cons, List.append_eq_nil_iff] at hbefore
    exact absurd hbefore.1 hp

theorem MarkersTyped.tail {p : Piece} {pieces : List Piece} (h : MarkersTyped pasteId (p :: pieces)) :
    MarkersTyped pasteId pieces := by
  intro front m back hm heq
  obtain ⟨before, after, hpieces, hbefore⟩ := h (p.text ++ front) m back hm (by rw [piecesText_cons, heq, List.append_assoc])
  cases before with
  | nil =>
    -- the first piece would be the first character of the marker
    obtain ⟨m, rfl, -⟩ := hm.eq_cons
    obtain ⟨rfl, -⟩ := List.cons.inj hpieces
    exact absurd (List.append_eq_nil_iff.mp hbefore.symm).1 (List.cons_ne_nil _ _)
  | cons q before =>
    obtain ⟨rfl, hrest⟩ := List.cons.inj hpieces
    rw [piecesText_cons] at hbefore
    exact ⟨before, after, hrest, List.append_cancel_left hbefore⟩

theorem MarkersTyped.append {front pieces : List Piece} (h : MarkersTyped pasteId (front ++ pieces)) : MarkersTyped pasteId pieces := by
  induction front with
  | nil => exact h
  | cons p front ih => exact ih h.tail

/-- No marker starts inside of a content. -/
theorem MarkersTyped.pasted {pieces : List Piece} (h : MarkersTyped pasteId (.pasted pasteContent :: pieces)) (a b : List ℕ)
    (heq : pasteContent = a ++ b) (hb : b ≠ []) : matchMarkerOf pasteId (b ++ piecesText pieces) = none := by
  by_contra hsome
  obtain ⟨length, hlength⟩ := Option.ne_none_iff_exists'.mp hsome
  obtain ⟨m, back, hback, hm, -⟩ := matchMarkerOf_eq_some_iff.mp hlength
  obtain ⟨before, after, hpieces, hbefore⟩ := h a m back hm (by
    rw [piecesText_cons, ← hback, ← List.append_assoc, ← heq]
    rfl)
  cases before with
  | nil =>
    obtain ⟨m, rfl, -⟩ := hm.eq_cons
    cases (List.cons.inj hpieces).1
  | cons q before =>
    obtain ⟨rfl, -⟩ := List.cons.inj hpieces
    have hlength := congrArg List.length hbefore
    rw [piecesText_cons, List.length_append] at hlength
    have hcontent := congrArg List.length heq
    rw [List.length_append] at hcontent
    have hpos := List.length_pos_iff.mpr hb
    change pasteContent.length + _ = _ at hlength
    omega

/-- The markers of one more paste are replaced in a text where those of the others were replaced. The
induction is on the text, marker by marker and character by character. -/
theorem replaceMarkers_expandAtOnce (paste : ℕ × List ℕ) : ∀ (n : ℕ) {text : List ℕ}, text.length ≤ n →
    MarkersTyped paste.1 (expandAtOnce pastes 0 text) →
      replaceMarkers paste.1 paste.2 0 (piecesText (expandAtOnce pastes 0 text)) =
        piecesText (expandAtOnce (pastes ++ [paste]) 0 text)
  | _, [], _, _ => rfl
  | n + 1, c :: text, hn, h => by
    have hconcat := @markerAt_concat pastes paste (c :: text)
    cases hmarker : markerAt pastes (c :: text) with
    | some found =>
      obtain ⟨content, length⟩ := found
      obtain ⟨id, m, rest, heq, hm, rfl⟩ := exists_of_markerAt hmarker
      have hlonger : rest.length ≤ n := by
        obtain ⟨m, rfl, -⟩ := hm.eq_cons
        have hlength := congrArg List.length heq
        simp only [List.length_append, List.length_cons] at hlength hn
        omega
      rw [hmarker, Option.some_or] at hconcat
      rw [heq] at hmarker hconcat h ⊢
      rw [expandAtOnce_marker hm hmarker] at h ⊢
      rw [expandAtOnce_marker hm hconcat, piecesText_cons, piecesText_cons, ← replaceMarkers_expandAtOnce paste n hlonger h.tail]
      exact replaceMarkers_front h.pasted
    | none =>
      have htyped : expandAtOnce pastes 0 (c :: text) = .typed c :: expandAtOnce pastes 0 text := by rw [expandAtOnce, hmarker]
      rw [hmarker, Option.none_or] at hconcat
      cases hown : matchMarkerOf paste.1 (c :: text) with
      | some length =>
        obtain ⟨m, rest, heq, hm, rfl⟩ := matchMarkerOf_eq_some_iff.mp hown
        rw [hown, Option.map_some] at hconcat
        have hm' := hm
        obtain ⟨m, rfl, hbracket⟩ := hm'.eq_cons
        rw [List.cons_append] at heq
        obtain ⟨rfl, rfl⟩ := List.cons.inj heq
        have hlonger : rest.length ≤ n := by
          simp only [List.length_append, List.length_cons] at hn
          omega
        have hpieces : expandAtOnce pastes 0 (0x5b :: (m ++ rest)) =
            (0x5b :: m).map Piece.typed ++ expandAtOnce pastes 0 rest := by
          rw [htyped, expandAtOnce_typed hbracket]
          rfl
        have hrest : MarkersTyped paste.1 (expandAtOnce pastes 0 rest) := by
          rw [hpieces] at h
          exact h.append
        rw [hpieces, piecesText_append, piecesText_typed, replaceMarkers_marker hm,
          replaceMarkers_expandAtOnce paste n hlonger hrest, ← List.cons_append, expandAtOnce_marker hm hconcat, piecesText_cons]
        rfl
      | none =>
        rw [hown, Option.map_none] at hconcat
        rw [htyped] at h
        have hnone : matchMarkerOf paste.1 (c :: piecesText (expandAtOnce pastes 0 text)) = none := by
          by_contra hsome
          obtain ⟨length, hlength⟩ := Option.ne_none_iff_exists'.mp hsome
          obtain ⟨m, back, hback, hm, -⟩ := matchMarkerOf_eq_some_iff.mp hlength
          obtain ⟨after, hpieces⟩ := h.head (List.cons_ne_nil c []) hm hback
          obtain ⟨rest, hrest⟩ := exists_of_expandAtOnce_typed (htyped.trans hpieces)
          rw [hrest, matchMarkerOf_eq_some_iff.mpr ⟨m, rest, rfl, hm, rfl⟩] at hown
          cases hown
        have htext : piecesText (.typed c :: expandAtOnce pastes 0 text) = c :: piecesText (expandAtOnce pastes 0 text) := rfl
        have hlonger : text.length ≤ n := by simpa using hn
        rw [htyped, htext, replaceMarkers, hnone]
        dsimp only
        rw [replaceMarkers_expandAtOnce paste n hlonger h.tail]
        conv_rhs => rw [expandAtOnce, hconcat]
        rfl

theorem expandAtOnce_nil : ∀ text : List ℕ, expandAtOnce [] 0 text = text.map Piece.typed
  | [] => rfl
  | c :: text => congrArg (Piece.typed c :: ·) (expandAtOnce_nil text)

/-- The pastes that are left are expanded after those that are done. -/
theorem expandPasteMarkers_append : ∀ (pastes done : List (ℕ × List ℕ)),
    (∀ before paste after, pastes = before ++ paste :: after → MarkersTyped paste.1 (expandAtOnce (done ++ before) 0 text)) →
      expandPasteMarkers pastes (piecesText (expandAtOnce done 0 text)) = piecesText (expandAtOnce (done ++ pastes) 0 text)
  | [], done, _ => by rw [List.append_nil]; rfl
  | paste :: pastes, done, h => by
    have hfirst := h [] paste pastes rfl
    rw [List.append_nil] at hfirst
    have hrest : ∀ before paste' after, pastes = before ++ paste' :: after →
        MarkersTyped paste'.1 (expandAtOnce ((done ++ [paste]) ++ before) 0 text) := fun before paste' after heq => by
      rw [List.append_assoc]
      exact h (paste :: before) paste' after (congrArg (paste :: ·) heq)
    calc expandPasteMarkers (paste :: pastes) (piecesText (expandAtOnce done 0 text))
      _ = expandPasteMarkers pastes (replaceMarkers paste.1 paste.2 0 (piecesText (expandAtOnce done 0 text))) := rfl
      _ = expandPasteMarkers pastes (piecesText (expandAtOnce (done ++ [paste]) 0 text)) := by
        rw [replaceMarkers_expandAtOnce paste _ (le_refl _) hfirst]
      _ = piecesText (expandAtOnce ((done ++ [paste]) ++ pastes) 0 text) := expandPasteMarkers_append pastes _ hrest
      _ = _ := by rw [List.append_assoc]; rfl

/-- **One paste after the other, or all at once**: it is the same if the markers of every paste are typed,
in the text where the pastes before it are expanded. -/
theorem expandPasteMarkers_eq (h : ∀ before paste after, pastes = before ++ paste :: after →
    MarkersTyped paste.1 (expandAtOnce before 0 text)) :
    expandPasteMarkers pastes text = piecesText (expandAtOnce pastes 0 text) := by
  have hdone := expandPasteMarkers_append pastes [] h
  rwa [expandAtOnce_nil, piecesText_typed] at hdone

/-! ### The editor -/

/-- In the text of the editor no marker of a stored paste has a character that comes from the content of
another paste. -/
def PastesTyped (e : Editor) : Prop :=
  ∀ before paste after, e.pastes.pairs = before ++ paste :: after → MarkersTyped paste.1 (expandAtOnce before 0 e.getText)

/-- The text of the editor with every marker of a stored paste replaced by its content. -/
def contents (e : Editor) : List ℕ := piecesText (expandAtOnce e.pastes.pairs 0 e.getText)

/-- **Submitted text contains the pastes unchanged.** -/
theorem submitted_contents (e : Editor) (h : e.PastesTyped) :
    e.getExpandedText = e.contents ∧ e.submitValue.2 = trim e.contents := by
  have hexpand : expandPasteMarkers e.pastes.pairs e.getText = e.contents := expandPasteMarkers_eq h
  exact ⟨hexpand, congrArg trim hexpand⟩

theorem markersTyped_typed (pasteId : ℕ) (text : List ℕ) : MarkersTyped pasteId (text.map Piece.typed) := by
  intro front m back _ heq
  rw [piecesText_typed] at heq
  refine ⟨front.map Piece.typed, back.map Piece.typed, ?_, piecesText_typed front⟩
  rw [heq, List.map_append, List.map_append]

/-- An editor with one paste: ten line feeds, and what stands after them. -/
def editorWithPaste (text : String) : Editor := (Editor.new 0).handlePaste (List.replicate 10 NEWLINE ++ ascii text)

/-- A paste that contains a replacement pattern. -/
theorem submitted_contents_pattern : (editorWithPaste "$&[paste #1]").getExpandedText = (editorWithPaste "$&[paste #1]").contents ∧
    (editorWithPaste "$&[paste #1]").submitValue.2 = trim (editorWithPaste "$&[paste #1]").contents := by
  refine submitted_contents _ fun before paste after heq => ?_
  have hpairs : (editorWithPaste "$&[paste #1]").pastes.pairs = [(1, List.replicate 10 NEWLINE ++ ascii "$&[paste #1]")] := by
    decide
  have hbefore : before = [] := by
    rw [hpairs] at heq
    cases before with
    | nil => rfl
    | cons p before => cases before <;> cases heq
  rw [hbefore, expandAtOnce_nil]
  exact markersTyped_typed _ _

/-- The first paste contains a marker of the second one; and blanks are not submitted. -/
theorem submitted_contents_nested :
    ((editorWithPaste "[paste #2]").handlePaste (List.replicate 10 NEWLINE ++ ascii "x")).getExpandedText ≠
        ((editorWithPaste "[paste #2]").handlePaste (List.replicate 10 NEWLINE ++ ascii "x")).contents ∧
      ((Editor.new 0).insertCharacter (ascii "x ")).submitValue.2 ≠ ((Editor.new 0).insertCharacter (ascii "x ")).contents := by
  decide

end Trek.Editor
