/-
# Input cut into chunks

A text that arrives in chunks gives the events of the whole text exactly when no cut
falls on a bad place (`feed_eq_whole_iff`). There are two. A chunk that stops after
two escapes gives them away as one key, though the second begins the sequence that
comes next. And a chunk that stops inside the marker of a paste may complete, with
the first characters of the marker, an escape sequence that stood open before it:
the marker is then never seen.
-/
import Trek.Tui.Scan

namespace Trek.Tui

open StdinBuffer

/-! ### Cuts -/

/-- The cut stands after two escapes that the scan takes together, and the second begins a
sequence. -/
def SplitsEscapes (text rest : List ℕ) : Prop :=
  Reaches text [ESC, ESC] ∧ ∃ c ∈ sequenceOpeners, rest.head? = some c

/-- The cut stands inside the first paste marker, the text before the marker leaves a sequence
open, and what there is of the marker completes it. -/
def SplitsMarker (text rest : List ℕ) : Prop :=
  ∃ before after opened, cutAt BRACKETED_PASTE_START (text ++ rest) = some (before, after) ∧
    before.length < text.length ∧ Reaches before opened ∧ opened ≠ [] ∧ nextLength opened = none ∧
    nextLength (opened ++ text.drop before.length) ≠ none

/-- A bad place for a cut, in the text since the last paste. -/
def BadCut (text rest : List ℕ) : Prop := SplitsEscapes text rest ∨ SplitsMarker text rest

/-- After the input no paste is open, and `text` is what came since the last one. -/
inductive Outside : List ℕ → List ℕ → Prop
  | plain {input : List ℕ} (h : cutAt BRACKETED_PASTE_START input = none) : Outside input input
  | paste {input before rest content after text : List ℕ} (hstart : cutAt BRACKETED_PASTE_START input = some (before, rest))
    (hend : cutAt BRACKETED_PASTE_END rest = some (content, after)) (h : Outside after text) : Outside input text

/-- No cut between the chunks that come after `input` falls on a bad place. -/
def GoodCuts (input : List ℕ) (chunks : List (List ℕ)) : Prop :=
  ∀ fed rest, chunks = fed ++ rest → ∀ text, Outside (input ++ fed.flatten) text → ¬BadCut text rest.flatten

/-- `process` of one chunk after the other. -/
def StdinBuffer.feed (s : StdinBuffer) : List (List ℕ) → StdinBuffer × List Emission
  | [] => (s, [])
  | chunk :: chunks =>
    let (s, emissions) := s.processText chunk
    let (s, more) := s.feed chunks
    (s, emissions ++ more)

/-- An emission is a `data` or `paste` event. -/
def Emission.isEvent : Emission → Bool
  | .suppressed _ => false
  | _ => true

/-- What can be seen of a run: its events, and the remaining buffer. -/
def observed (r : StdinBuffer × List Emission) : List Emission × List ℕ := (r.2.filter Emission.isEvent, r.1.buffer)

/-! ### A chunk at a good place -/

/-- A run goes on with more chunks. -/
def feedOn (r : StdinBuffer × List Emission) (chunks : List (List ℕ)) : StdinBuffer × List Emission :=
  ((r.1.feed chunks).1, r.2 ++ (r.1.feed chunks).2)

/-- Emissions before a run. -/
def after (emissions : List Emission) (r : StdinBuffer × List Emission) : StdinBuffer × List Emission :=
  (r.1, emissions ++ r.2)

theorem feedOn_cons (r : StdinBuffer × List Emission) (c : List ℕ) (cs : List (List ℕ)) :
    feedOn r (c :: cs) = feedOn (after r.2 (r.1.processText c)) cs := by
  simp only [feedOn, after, StdinBuffer.feed, List.append_assoc]

theorem feedOn_after (e : List Emission) (r : StdinBuffer × List Emission) (cs : List (List ℕ)) :
    feedOn (after e r) cs = after e (feedOn r cs) := by
  simp only [feedOn, after, List.append_assoc]

theorem observed_after_inj {e : List Emission} {r r' : StdinBuffer × List Emission} :
    observed (after e r) = observed (after e r') ↔ observed r = observed r' := by
  simp [observed, after, List.filter_append]

theorem marker_ne_nil : BRACKETED_PASTE_START ≠ [] := by decide

theorem end_ne_nil : BRACKETED_PASTE_END ≠ [] := by decide

/-- A text outside a paste, scanned. -/
theorem scanText_of_none {text : List ℕ} (h : cutAt BRACKETED_PASTE_START text = none) : scanText none text =
    (⟨(extractCompleteSequences text).2, false, [], (emitAll none (extractCompleteSequences text).1).1⟩,
      (emitAll none (extractCompleteSequences text).1).2) := by
  rw [scanText_eq, h]

/-- A text with a paste in it, scanned. -/
theorem scanText_of_some {p : Option ℕ} {text before rest : List ℕ}
    (h : cutAt BRACKETED_PASTE_START text = some (before, rest)) : scanText p text =
      after (emitAll p (extractCompleteSequences before).1).2 (scanPaste rest) := by
  rw [scanText_eq, h]
  rfl

theorem scanPaste_of_some {text content rest : List ℕ} (h : cutAt BRACKETED_PASTE_END text = some (content, rest)) :
    scanPaste text = after [.paste content] (scanText none rest) := by
  rw [scanPaste, h]
  rfl

/-- The characters of a marker that a cut leaves before it open a sequence. -/
theorem nextLength_marker : ∀ n < 6, 0 < n → nextLength (BRACKETED_PASTE_START.take n) = none := by decide

theorem head_marker {n : ℕ} (h : 0 < n) : (BRACKETED_PASTE_START.take n).head? = some ESC := by
  obtain ⟨m, rfl⟩ : ∃ m, n = m + 1 := ⟨n - 1, by omega⟩
  rfl

/-- Where the marker of a text falls, if the text did not have it yet. -/
theorem marker_position {text c before rest : List ℕ} (hnone : cutAt BRACKETED_PASTE_START text = none)
    (hcut : cutAt BRACKETED_PASTE_START (text ++ c) = some (before, rest)) :
    (∃ x, before = text ++ x ∧ c = x ++ (BRACKETED_PASTE_START ++ rest)) ∨
    ∃ n, 0 < n ∧ n < 6 ∧ text = before ++ BRACKETED_PASTE_START.take n ∧
      BRACKETED_PASTE_START.drop n ++ rest = c := by
  have hlt : text.length < before.length + 6 := length_lt_of_cutAt_append marker_ne_nil hnone hcut
  have heq := eq_of_cutAt hcut
  rcases List.append_eq_append_iff.mp heq with ⟨x, hx, hc⟩ | ⟨y, hy, hc⟩
  · exact Or.inl ⟨x, hx, hc⟩
  · by_cases hy0 : y = []
    · subst hy0
      refine Or.inl ⟨[], ?_, ?_⟩
      · simpa using hy.symm
      · simpa using hc.symm
    · refine Or.inr ⟨y.length, List.length_pos_iff.mpr hy0, ?_, ?_, ?_⟩
      · have := congrArg List.length hy
        rw [List.length_append] at this
        omega
      · have hlen : y.length ≤ BRACKETED_PASTE_START.length := by
          have := congrArg List.length hy
          rw [List.length_append] at this
          show y.length ≤ 6
          omega
        rw [hy, ← @List.take_append_of_le_length _ _ rest _ hlen, hc, List.take_left]
      · have hlen : y.length ≤ BRACKETED_PASTE_START.length := by
          have := congrArg List.length hy
          rw [List.length_append] at this
          show y.length ≤ 6
          omega
        rw [← List.drop_append_of_le_length hlen, hc, List.drop_left]

/-- The scan of what stands before a marker, with some of the marker. -/
theorem extract_marker (before : List ℕ) {n : ℕ} (hn : 0 < n) :
    extractCompleteSequences (before ++ BRACKETED_PASTE_START.take n) =
      ((extractCompleteSequences before).1 ++
        (extractCompleteSequences ((extractCompleteSequences before).2 ++ BRACKETED_PASTE_START.take n)).1,
        (extractCompleteSequences ((extractCompleteSequences before).2 ++ BRACKETED_PASTE_START.take n)).2) := by
  refine extract_append _ _ fun _ c hc hhead => ?_
  rw [head_marker hn, Option.some.injEq] at hhead
  subst hhead
  exact absurd hc (by decide)

/-- What is left of the text before a marker waits still when some of the marker is there. -/
theorem nextLength_before_marker {before rest x : List ℕ} {n : ℕ} (hn : 0 < n) (hn6 : n < 6)
    (hgood : ¬SplitsMarker (before ++ BRACKETED_PASTE_START.take n) x)
    (hcut : cutAt BRACKETED_PASTE_START (before ++ BRACKETED_PASTE_START.take n ++ x) = some (before, rest)) :
    nextLength ((extractCompleteSequences before).2 ++ BRACKETED_PASTE_START.take n) = none := by
  by_cases hopen : (extractCompleteSequences before).2 = []
  · rw [hopen, List.nil_append]
    exact nextLength_marker n hn6 hn
  · by_contra hnext
    refine hgood ⟨before, rest, _, hcut, ?_, reaches_remainder before, hopen, nextLength_remainder before, ?_⟩
    · have hlen : (BRACKETED_PASTE_START.take n).length = n := by
        rw [List.length_take]
        show min n 6 = n
        omega
      rw [List.length_append, hlen]
      omega
    · rwa [List.drop_left]

/-- **A chunk at a good place** leaves the run where the whole text does. -/
theorem processText_good {text c x : List ℕ} (hc : c ≠ []) (hnone : cutAt BRACKETED_PASTE_START text = none)
    (hgood : ¬BadCut text (c ++ x)) :
    after (scanText none text).2 ((scanText none text).1.processText c) = scanText none (text ++ c) := by
  rw [BadCut, not_or] at hgood
  obtain ⟨hesc, hmark⟩ := hgood
  have hhead : ∀ y, (c ++ y).head? = c.head? := fun y => List.head?_append_of_ne_nil c hc
  have hesc' : ∀ y, (y = [] ∨ y.head? = c.head?) → Reaches text [ESC, ESC] → ∀ o ∈ sequenceOpeners, y.head? ≠ some o := by
    intro y hy hr o ho hyo
    rcases hy with rfl | hy
    · cases hyo
    · refine hesc ⟨hr, o, ho, ?_⟩
      rw [hhead, ← hy, hyo]
  have hflat := flatten_extract text
  rw [scanText_of_none hnone, processText_plain _ hc]
  cases hcut : cutAt BRACKETED_PASTE_START (text ++ c) with
  | none =>
    have hrem : cutAt BRACKETED_PASTE_START ((extractCompleteSequences text).2 ++ c) = none := by
      rw [cutAt_eq_none_iff marker_ne_nil] at hcut ⊢
      intro hin
      apply hcut
      rw [← hflat, List.append_assoc]
      exact hin.trans (List.suffix_append _ _).isInfix
    rw [scanText_of_none hcut, scanText_eq, hrem, extract_append c text (hesc' c (Or.inr rfl)), emitAll_append]
    rfl
  | some pair =>
    obtain ⟨before, rest⟩ := pair
    rw [scanText_of_some hcut]
    rcases marker_position hnone hcut with ⟨y, hbefore, hcy⟩ | ⟨n, hn, hn6, htext, hrest⟩
    · -- the marker comes after the text: the remainder and the text up to it are scanned
      have hrem : cutAt BRACKETED_PASTE_START ((extractCompleteSequences text).2 ++ c) =
          some ((extractCompleteSequences text).2 ++ y, rest) := by
        apply cutAt_drop (extractCompleteSequences text).1.flatten
        rw [← List.append_assoc, hflat, ← List.append_assoc, hflat, hcut, hbefore]
      have hy : y = [] ∨ y.head? = c.head? := by
        by_cases hy0 : y = []
        · exact Or.inl hy0
        · rw [hcy, List.head?_append_of_ne_nil y hy0]
          exact Or.inr rfl
      rw [scanText_of_some hrem, hbefore, extract_append y text (hesc' y hy), emitAll_append]
      simp only [after, List.append_assoc]
    · -- the cut is inside the marker: the part of it that is there waits in the buffer
      subst htext
      have hcut' : cutAt BRACKETED_PASTE_START (before ++ BRACKETED_PASTE_START.take n ++ (c ++ x)) =
          some (before, rest ++ x) := by
        rw [← List.append_assoc]
        exact cutAt_append marker_ne_nil x hcut
      have hwait := nextLength_before_marker hn hn6 hmark hcut'
      have hscan := extract_marker before hn
      rw [extract_of_none hwait, List.append_nil] at hscan
      have hopen := extract_of_none (nextLength_remainder before)
      have hrem : cutAt BRACKETED_PASTE_START
          ((extractCompleteSequences before).2 ++ BRACKETED_PASTE_START.take n ++ c) =
            some ((extractCompleteSequences before).2, rest) := by
        apply cutAt_drop (extractCompleteSequences before).1.flatten
        rw [← List.append_assoc, ← List.append_assoc, flatten_extract, hcut]
      rw [hscan]
      simp only
      rw [scanText_of_some hrem, hopen]
      simp [after, emitAll]

/-! ### A cut at a bad place -/

/-- The visible part of a run that a text begins is not lost when more is fed. -/
theorem events_feedOn (r : StdinBuffer × List Emission) (cs : List (List ℕ)) :
    ∃ more, (observed (feedOn r cs)).1 = (observed r).1 ++ more :=
  ⟨_, List.filter_append _ _⟩

/-- Two runs that differ after the same events. -/
theorem observed_ne {r r' : StdinBuffer × List Emission} {shared more more' : List Emission} {a : Emission}
    (h : (observed r).1 = shared ++ a :: more) (h' : (observed r').1 = shared ++ more')
    (hne : more'.head? ≠ some a) : observed r ≠ observed r' := by
  intro he
  have heq := congrArg Prod.fst he
  rw [h, h', List.append_cancel_left_eq] at heq
  rw [← heq] at hne
  exact hne rfl

theorem filter_emit_escape {p : Option ℕ} (hp : Printable p) {q : List ℕ} (hq : q.head? = some ESC)
    (qs : List (List ℕ)) :
    ∃ more, (emitAll p (q :: qs)).2.filter Emission.isEvent = .data q :: more := by
  refine ⟨(emitAll (emitDataSequence p q).1 qs).2.filter Emission.isEvent, ?_⟩
  show List.filter _ ((emitDataSequence p q).2 :: _) = _
  rw [emit_escape hp hq]
  rfl

/-- The events of a text whose scan goes on with an escape sequence. -/
theorem filter_emitAll_append {qs rs : List (List ℕ)} {q : List ℕ} (hq : q.head? = some ESC) :
    ∃ more, (emitAll none (qs ++ q :: rs)).2.filter Emission.isEvent =
      (emitAll none qs).2.filter Emission.isEvent ++ Emission.data q :: more := by
  have hp : Printable (emitAll none qs).1 := printable_emitAll qs fun c hc => by cases hc
  obtain ⟨more, hmore⟩ := filter_emit_escape hp hq rs
  exact ⟨more, by rw [emitAll_append, List.filter_append, hmore]⟩

/-- A text that starts with an escape has a first sequence that starts with it. -/
theorem head_first_sequence {t : List ℕ} {n : ℕ} (h : nextLength t = some n) (ht : t.head? = some ESC) :
    (t.take n).head? = some ESC := by
  obtain ⟨h0, -⟩ := nextLength_bounds h
  rw [List.head?_take, if_neg (by omega), ht]

theorem events_scanPaste (text : List ℕ) : (observed (scanPaste text)).1.head? ≠ some (.data q) := by
  unfold scanPaste observed
  cases cutAt BRACKETED_PASTE_END text with
  | none => simp
  | some p => simp [Emission.isEvent]

/-- A cut inside a marker: an escape sequence is emitted where the whole text has the paste. -/
theorem observed_splitsMarker {text rest : List ℕ} (cs : List (List ℕ))
    (hnone : cutAt BRACKETED_PASTE_START text = none) (h : SplitsMarker text rest) :
    observed (feedOn (scanText none text) cs) ≠ observed (scanText none (text ++ rest)) := by
  obtain ⟨before, tail, opened, hcut, hlt, hreach, hopen, hwait, hnext⟩ := h
  obtain ⟨n, hn, htext⟩ : ∃ n, 0 < n ∧ text = before ++ BRACKETED_PASTE_START.take n := by
    rcases marker_position hnone hcut with ⟨x, hx, -⟩ | ⟨n, hn, -, htext, -⟩
    · rw [hx, List.length_append] at hlt
      omega
    · exact ⟨n, hn, htext⟩
  rw [htext, List.drop_left] at hnext
  obtain rfl : opened = (extractCompleteSequences before).2 := hreach.eq_remainder hwait
  obtain ⟨k, hk⟩ := Option.ne_none_iff_exists'.mp hnext
  have hhead : ((extractCompleteSequences before).2 ++ BRACKETED_PASTE_START.take n).head? = some ESC := by
    rw [List.head?_append_of_ne_nil _ hopen]
    exact head_of_nextLength_none hwait hopen
  have hscan := extract_marker before hn
  rw [extract_of_some hk] at hscan
  obtain ⟨more, hmore⟩ := @filter_emitAll_append (extractCompleteSequences before).1
    (extractCompleteSequences (((extractCompleteSequences before).2 ++ BRACKETED_PASTE_START.take n).drop k)).1 _ (head_first_sequence hk hhead)
  obtain ⟨more', hmore'⟩ := events_feedOn (scanText none text) cs
  have hevents : (observed (scanText none text)).1 = (emitAll none (extractCompleteSequences before).1).2.filter
      Emission.isEvent ++ .data (((extractCompleteSequences before).2 ++ BRACKETED_PASTE_START.take n).take k) :: more := by
    rw [scanText_of_none hnone, htext, hscan]
    exact hmore
  rw [hevents, List.append_assoc] at hmore'
  refine @observed_ne _ _ _ _ (observed (scanPaste tail)).1 _ hmore' ?_ (events_scanPaste tail)
  rw [scanText_of_some hcut]
  exact List.filter_append _ _

/-- A cut after two escapes that falls inside a marker completes a sequence before it. -/
theorem SplitsEscapes.splitsMarker {text rest before tail : List ℕ} {n : ℕ} (h : SplitsEscapes text rest)
    (hn : 0 < n) (hn6 : n < 6) (htext : text = before ++ BRACKETED_PASTE_START.take n)
    (hcut : cutAt BRACKETED_PASTE_START (text ++ rest) = some (before, tail)) : SplitsMarker text rest := by
  by_contra hnot
  subst htext
  have hwait := nextLength_before_marker hn hn6 hnot hcut
  have hscan := extract_marker before hn
  rw [extract_of_none hwait] at hscan
  -- but the scan leaves nothing of a text that ends with two escapes
  obtain ⟨sequences, hx⟩ := h.1.extract_before
  have hnil := hx []
  rw [List.append_nil, List.append_nil, hscan] at hnil
  have hlast := congrArg Prod.snd hnil
  simp only [show (extractCompleteSequences [ESC, ESC]).2 = [] by decide, List.append_eq_nil_iff] at hlast
  have hhead := head_marker hn
  rw [hlast.2] at hhead
  cases hhead

/-- A cut after two escapes: they are one key, where the whole text has the first alone. -/
theorem observed_splitsEscapes {text rest : List ℕ} (cs : List (List ℕ))
    (hnone : cutAt BRACKETED_PASTE_START text = none) (h : SplitsEscapes text rest) (hnot : ¬SplitsMarker text rest) :
    observed (feedOn (scanText none text) cs) ≠ observed (scanText none (text ++ rest)) := by
  obtain ⟨hreach, c, hc, hhead⟩ := id h
  obtain ⟨sequences, hx⟩ := hreach.extract_before
  have hdata : ∃ more, (observed (scanText none text)).1 =
      (emitAll none sequences).2.filter Emission.isEvent ++ Emission.data [ESC, ESC] :: more := by
    have hscan := hx []
    rw [List.append_nil, List.append_nil] at hscan
    rw [scanText_of_none hnone, hscan, show (extractCompleteSequences [ESC, ESC]).1 = [[ESC, ESC]] by decide]
    exact filter_emitAll_append (by rfl)
  obtain ⟨more, hmore⟩ := hdata
  obtain ⟨more', hmore'⟩ := events_feedOn (scanText none text) cs
  rw [hmore, List.append_assoc] at hmore'
  -- the whole text has the first escape alone, whatever comes before the next marker
  have hlone : ∀ y, y.head? = some c → ∃ rs, extractCompleteSequences (text ++ y) =
      (sequences ++ [ESC] :: rs, (extractCompleteSequences ([ESC, ESC] ++ y)).2) := by
    intro y hy
    obtain ⟨d, y, rfl⟩ := List.exists_cons_of_ne_nil (l := y) (by intro h0; rw [h0] at hy; cases hy)
    rw [List.head?_cons, Option.some.injEq] at hy
    subst hy
    have hnext : nextLength ([ESC, ESC] ++ d :: y) = some 1 := by
      have hend : sequenceEnd ([ESC, ESC] ++ d :: y) = some 2 := by
        have h2 : sequenceEnd [ESC, ESC] = some 2 := by decide
        exact sequenceEnd_append _ h2
      unfold nextLength
      rw [if_pos (by rfl), hend, Option.map_some, if_pos ⟨by rfl, d, hc, by rfl⟩]
    rw [hx, extract_of_some hnext]
    exact ⟨_, rfl⟩
  have hother : ∀ y, y.head? = some c → ∃ m, (emitAll none (extractCompleteSequences (text ++ y)).1).2.filter
      Emission.isEvent = (emitAll none sequences).2.filter Emission.isEvent ++ Emission.data [ESC] :: m := by
    intro y hy
    obtain ⟨rs, hrs⟩ := hlone y hy
    rw [hrs]
    exact filter_emitAll_append (by rfl)
  cases hcut : cutAt BRACKETED_PASTE_START (text ++ rest) with
  | none =>
    obtain ⟨m, hm⟩ := hother rest hhead
    refine @observed_ne _ _ _ _ (.data [ESC] :: m) _ hmore' ?_ (by simp)
    rw [scanText_of_none hcut]
    exact hm
  | some pair =>
    obtain ⟨before, tail⟩ := pair
    rcases marker_position hnone hcut with ⟨y, hbefore, hrest⟩ | ⟨n, hn, hn6, htext, -⟩
    · have hy : y.head? = some c := by
        by_cases hy0 : y = []
        · -- the marker itself would come next, and it begins with an escape
          rw [hrest, hy0] at hhead
          obtain rfl : ESC = c := Option.some.inj hhead
          exact absurd hc (by decide)
        · rwa [hrest, List.head?_append_of_ne_nil y hy0] at hhead
      obtain ⟨m, hm⟩ := hother y hy
      refine @observed_ne _ _ _ _ (.data [ESC] :: (m ++ (observed (scanPaste tail)).1)) _ hmore' ?_ (by simp)
      rw [scanText_of_some hcut, hbefore]
      show List.filter _ (_ ++ _) = _
      rw [List.filter_append, hm, List.append_assoc]
      rfl
    · exact absurd (h.splitsMarker hn hn6 htext hcut) hnot

theorem observed_badCut {text rest : List ℕ} (cs : List (List ℕ)) (hnone : cutAt BRACKETED_PASTE_START text = none)
    (h : BadCut text rest) : observed (feedOn (scanText none text) cs) ≠ observed (scanText none (text ++ rest)) := by
  by_cases hmark : SplitsMarker text rest
  · exact observed_splitsMarker cs hnone hmark
  · exact observed_splitsEscapes cs hnone (h.resolve_right hmark) hmark

/-! ### All cuts -/

theorem Outside.eq_of_none {input text : List ℕ} (h : Outside input text)
    (hnone : cutAt BRACKETED_PASTE_START input = none) : text = input := by
  cases h with
  | plain => rfl
  | paste hstart =>
    rw [hnone] at hstart
    cases hstart

theorem outside_iff_of_some {input before rest text : List ℕ}
    (hcut : cutAt BRACKETED_PASTE_START input = some (before, rest)) :
    Outside input text ↔ ∃ content after, cutAt BRACKETED_PASTE_END rest = some (content, after) ∧ Outside after text := by
  constructor
  · intro h
    cases h with
    | plain hnone =>
      rw [hcut] at hnone
      cases hnone
    | paste hstart hend h =>
      rw [hcut, Option.some.injEq, Prod.mk.injEq] at hstart
      exact ⟨_, _, by rw [hstart.2]; exact hend, h⟩
  · rintro ⟨content, after, hend, h⟩
    exact .paste hcut hend h

/-- No cut between the chunks that come after the start of a paste falls on a bad place. -/
def GoodCutsIn (input : List ℕ) (chunks : List (List ℕ)) : Prop :=
  ∀ fed rest, chunks = fed ++ rest → ∀ content after,
    cutAt BRACKETED_PASTE_END (input ++ fed.flatten) = some (content, after) → ∀ text, Outside after text →
      ¬BadCut text rest.flatten

theorem not_badCut_nil (text : List ℕ) (hnone : cutAt BRACKETED_PASTE_START text = none) : ¬BadCut text [] := by
  rintro (⟨-, c, -, hc⟩ | ⟨before, after, opened, hcut, -⟩)
  · cases hc
  · rw [List.append_nil, hnone] at hcut
    cases hcut

theorem goodCuts_cons {input c : List ℕ} {cs : List (List ℕ)} (hnone : cutAt BRACKETED_PASTE_START input = none)
    (hgood : ¬BadCut input (c :: cs).flatten) : GoodCuts input (c :: cs) ↔ GoodCuts (input ++ c) cs := by
  constructor
  · intro h fed rest hsplit text hout
    refine h (c :: fed) rest (by rw [hsplit]; rfl) text ?_
    rwa [List.flatten_cons, ← List.append_assoc]
  · intro h fed rest hsplit text hout
    cases fed with
    | nil =>
      rw [List.flatten_nil, List.append_nil] at hout
      obtain rfl := hout.eq_of_none hnone
      obtain rfl : c :: cs = rest := hsplit
      exact hgood
    | cons d fed =>
      obtain ⟨rfl, rfl⟩ := List.cons.inj hsplit
      refine h fed rest rfl text ?_
      rwa [List.flatten_cons, ← List.append_assoc] at hout

theorem goodCuts_of_some {input before rest : List ℕ} {cs : List (List ℕ)}
    (hcut : cutAt BRACKETED_PASTE_START input = some (before, rest)) : GoodCuts input cs ↔ GoodCutsIn rest cs := by
  have hiff : ∀ (fed : List (List ℕ)) (text : List ℕ), Outside (input ++ fed.flatten) text ↔ ∃ content after,
      cutAt BRACKETED_PASTE_END (rest ++ fed.flatten) = some (content, after) ∧ Outside after text :=
    fun fed text => outside_iff_of_some (cutAt_append marker_ne_nil _ hcut)
  constructor
  · intro h fed more hsplit content after hend text hout
    exact h fed more hsplit text ((hiff fed text).mpr ⟨content, after, hend, hout⟩)
  · intro h fed more hsplit text hout
    obtain ⟨content, after, hend, hout⟩ := (hiff fed text).mp hout
    exact h fed more hsplit content after hend text hout

theorem goodCutsIn_of_some {input content after : List ℕ} {cs : List (List ℕ)}
    (hcut : cutAt BRACKETED_PASTE_END input = some (content, after)) : GoodCutsIn input cs ↔ GoodCuts after cs := by
  have hiff : ∀ fed : List (List ℕ),
      cutAt BRACKETED_PASTE_END (input ++ fed.flatten) = some (content, after ++ fed.flatten) :=
    fun fed => cutAt_append end_ne_nil _ hcut
  constructor
  · intro h fed rest hsplit text hout
    exact h fed rest hsplit content _ (hiff fed) text hout
  · intro h fed rest hsplit content' after' hend text hout
    rw [hiff fed, Option.some.injEq, Prod.mk.injEq] at hend
    exact h fed rest hsplit text (by rw [hend.2]; exact hout)

theorem goodCutsIn_cons {input c : List ℕ} {cs : List (List ℕ)} (hnone : cutAt BRACKETED_PASTE_END input = none) :
    GoodCutsIn input (c :: cs) ↔ GoodCutsIn (input ++ c) cs := by
  constructor
  · intro h fed rest hsplit content after hend
    refine h (c :: fed) rest (by rw [hsplit]; rfl) content after ?_
    rwa [List.flatten_cons, ← List.append_assoc]
  · intro h fed rest hsplit content after hend
    cases fed with
    | nil =>
      rw [List.flatten_nil, List.append_nil, hnone] at hend
      cases hend
    | cons d fed =>
      obtain ⟨rfl, rfl⟩ := List.cons.inj hsplit
      refine h fed rest rfl content after ?_
      rwa [List.flatten_cons, ← List.append_assoc] at hend

theorem feedOn_nil (r : StdinBuffer × List Emission) : feedOn r [] = r := by
  simp [feedOn, StdinBuffer.feed]

/-- Chunks that come after a text, outside a paste and inside one. The induction is on what is
left to read: a chunk that is taken, or a text that loses a marker. -/
theorem observed_feedOn : ∀ (n : ℕ) (input : List ℕ) (chunks : List (List ℕ)), (∀ c ∈ chunks, c ≠ []) →
    input.length + chunks.flatten.length + chunks.length < n →
    (observed (feedOn (scanText none input) chunks) = observed (scanText none (input ++ chunks.flatten)) ↔
      GoodCuts input chunks) ∧
    (observed (feedOn (scanPaste input) chunks) = observed (scanPaste (input ++ chunks.flatten)) ↔
      GoodCutsIn input chunks)
  | 0, _, _, _, hn => absurd hn (Nat.not_lt_zero _)
  | n + 1, input, chunks, hchunks, hn => by
    refine ⟨?_, ?_⟩
    · cases hcut : cutAt BRACKETED_PASTE_START input with
      | some pair =>
        obtain ⟨before, rest⟩ := pair
        have hlen := length_cut hcut
        have hstart : BRACKETED_PASTE_START.length = 6 := rfl
        rw [scanText_of_some hcut, scanText_of_some (cutAt_append marker_ne_nil _ hcut), feedOn_after,
          observed_after_inj, goodCuts_of_some hcut]
        exact (observed_feedOn n rest chunks hchunks (by omega)).2
      | none =>
        cases chunks with
        | nil =>
          rw [feedOn_nil, List.flatten_nil, List.append_nil]
          refine iff_of_true rfl fun fed rest hsplit text hout => ?_
          obtain ⟨rfl, rfl⟩ := List.append_eq_nil_iff.mp hsplit.symm
          rw [List.flatten_nil, List.append_nil] at hout
          obtain rfl := hout.eq_of_none hcut
          exact not_badCut_nil _ hcut
        | cons c cs =>
          by_cases hbad : BadCut input (c :: cs).flatten
          · refine iff_of_false (observed_badCut _ hcut hbad) fun h => ?_
            exact h [] (c :: cs) rfl input (by simpa using Outside.plain hcut) hbad
          · have hc : c ≠ [] := hchunks c List.mem_cons_self
            rw [feedOn_cons, processText_good hc hcut (by rwa [List.flatten_cons] at hbad), goodCuts_cons hcut hbad,
              List.flatten_cons, ← List.append_assoc]
            refine (observed_feedOn n (input ++ c) cs (fun d hd => hchunks d (List.mem_cons_of_mem c hd)) ?_).1
            simp only [List.flatten_cons, List.length_append, List.length_cons] at hn ⊢
            omega
    · cases hcut : cutAt BRACKETED_PASTE_END input with
      | some pair =>
        obtain ⟨content, after⟩ := pair
        have hlen := length_cut hcut
        have hend : BRACKETED_PASTE_END.length = 6 := rfl
        rw [scanPaste_of_some hcut, scanPaste_of_some (cutAt_append end_ne_nil _ hcut), feedOn_after,
          observed_after_inj, goodCutsIn_of_some hcut]
        exact (observed_feedOn n after chunks hchunks (by omega)).1
      | none =>
        cases chunks with
        | nil =>
          rw [feedOn_nil, List.flatten_nil, List.append_nil]
          refine iff_of_true rfl fun fed rest hsplit content after hend => ?_
          obtain ⟨rfl, rfl⟩ := List.append_eq_nil_iff.mp hsplit.symm
          rw [List.flatten_nil, List.append_nil, hcut] at hend
          cases hend
        | cons c cs =>
          have hc : c ≠ [] := hchunks c List.mem_cons_self
          have hpaste : scanPaste input = (⟨[], true, input, none⟩, []) := by rw [scanPaste, hcut]
          have hstep : after (scanPaste input).2 ((scanPaste input).1.processText c) = scanPaste (input ++ c) := by
            rw [hpaste, processText_paste hc]
            rfl
          rw [feedOn_cons, hstep, goodCutsIn_cons hcut, List.flatten_cons, ← List.append_assoc]
          refine (observed_feedOn n (input ++ c) cs (fun d hd => hchunks d (List.mem_cons_of_mem c hd)) ?_).2
          simp only [List.flatten_cons, List.length_append, List.length_cons] at hn ⊢
          omega

/-- **Chunks give the events and the remaining buffer of the whole text exactly when there is
a chunk and no cut falls on a bad place**: after two escapes the second of which begins a
sequence, or inside the marker of a paste where it completes a sequence that stood open. -/
theorem feed_eq_whole_iff (chunks : List (List ℕ)) (hchunks : ∀ c ∈ chunks, c ≠ []) :
    observed (new.feed chunks) = observed (new.feed [chunks.flatten]) ↔ chunks ≠ [] ∧ GoodCuts [] chunks := by
  cases chunks with
  | nil => exact iff_of_false (by decide) fun h => h.1 rfl
  | cons c cs =>
    have hne : (c :: cs).flatten ≠ [] := by
      rw [List.flatten_cons]
      intro h
      exact hchunks c List.mem_cons_self (List.append_eq_nil_iff.mp h).1
    have hstart : feedOn (scanText none []) (c :: cs) = new.feed (c :: cs) := by
      simp [feedOn, scanText, new]
    have hwhole : scanText none (c :: cs).flatten = new.feed [(c :: cs).flatten] := by
      rw [scanText, if_neg hne]
      simp [StdinBuffer.feed, new]
    have hall := (observed_feedOn _ [] (c :: cs) hchunks (Nat.lt_succ_self _)).1
    rw [hstart, List.nil_append, hwhole] at hall
    rw [hall]
    exact ⟨fun h => ⟨List.cons_ne_nil c cs, h⟩, fun h => h.2⟩

/-- A mouse report in the middle. -/
theorem feed_eq_whole_mouse :
    observed (new.feed [[ESC], [0x5b, 0x3c, 0x33], [0x3b, 0x31, 0x3b, 0x31, 0x4d]]) =
      observed (new.feed [[ESC, 0x5b, 0x3c, 0x33, 0x3b, 0x31, 0x3b, 0x31, 0x4d]]) ↔
    [[ESC], [0x5b, 0x3c, 0x33], [0x3b, 0x31, 0x3b, 0x31, 0x4d]] ≠ ([] : List (List ℕ)) ∧
      GoodCuts [] [[ESC], [0x5b, 0x3c, 0x33], [0x3b, 0x31, 0x3b, 0x31, 0x4d]] :=
  feed_eq_whole_iff [[ESC], [0x5b, 0x3c, 0x33], [0x3b, 0x31, 0x3b, 0x31, 0x4d]] (by decide)

/-- The press of the escape key and the sequence of its release, cut between them. -/
theorem feed_ne_whole_release :
    observed (new.feed [[ESC, ESC], [0x5b, 0x32, 0x37, 0x3b, 0x31, 0x3a, 0x33, 0x75]]) ≠
      observed (new.feed [[ESC, ESC, 0x5b, 0x32, 0x37, 0x3b, 0x31, 0x3a, 0x33, 0x75]]) := by decide

end Trek.Tui
