/-
# Scanning a text for sequences

What the splitter does to a text does not depend on how the text arrives, as far as
the scan goes: a text that grows keeps the sequences it has (`extract_append`). The
one place where more text matters is a text that ends with two escapes, because the
second may begin a sequence of its own.
-/
import Trek.Tui.StdinBuffer

namespace Trek.Tui

/-! ### One sequence -/

theorem isPrefixOf_esc {t : List ℕ} : [ESC].isPrefixOf t = true ↔ t.head? = some ESC := by
  cases t with
  | nil => simp
  | cons c t =>
    rw [List.head?_cons, Option.some.injEq, eq_comm (a := c)]
    simp [List.isPrefixOf]

theorem sequenceEnd_bounds {t : List ℕ} {k : ℕ} (h : sequenceEnd t = some k) : 0 < k ∧ k ≤ t.length := by
  have hmem := List.mem_of_find?_eq_some h
  rw [List.mem_range'_1] at hmem
  omega

theorem nextLength_bounds {t : List ℕ} {n : ℕ} (h : nextLength t = some n) : 0 < n ∧ n ≤ t.length := by
  unfold nextLength at h
  split at h
  · obtain ⟨k, hk, rfl⟩ := Option.map_eq_some_iff.mp h
    have hb := sequenceEnd_bounds hk
    split <;> omega
  · split at h
    · cases h
    · rename_i hne
      cases h
      exact ⟨Nat.one_pos, List.length_pos_iff.mpr hne⟩

theorem find?_congr_mem {p q : ℕ → Bool} : ∀ {l : List ℕ}, (∀ a ∈ l, p a = q a) → l.find? p = l.find? q
  | [], _ => rfl
  | a :: l, h => by
    rw [List.find?_cons, List.find?_cons, h a List.mem_cons_self,
      find?_congr_mem fun b hb => h b (List.mem_cons_of_mem a hb)]

/-- A longer text has the sequence end of the text. -/
theorem sequenceEnd_append {t : List ℕ} {k : ℕ} (x : List ℕ) (h : sequenceEnd t = some k) :
    sequenceEnd (t ++ x) = some k := by
  have hb := sequenceEnd_bounds h
  unfold sequenceEnd at h ⊢
  rw [List.length_append, ← List.range'_append_1, List.find?_append]
  have hsame : (List.range' 1 t.length).find? (fun e => isCompleteSequence ((t ++ x).take e) ≠ .incomplete) =
      (List.range' 1 t.length).find? fun e => isCompleteSequence (t.take e) ≠ .incomplete := by
    refine find?_congr_mem fun e he => ?_
    rw [List.mem_range'_1] at he
    rw [List.take_append_of_le_length (by omega)]
  rw [hsame, h]
  rfl

/-- A longer text has the next sequence of the text, unless it stops after two escapes. -/
theorem nextLength_append {t x : List ℕ} {n : ℕ} (h : nextLength t = some n)
    (hesc : t = [ESC, ESC] → ∀ c ∈ sequenceOpeners, x.head? ≠ some c) : nextLength (t ++ x) = some n := by
  have hb := nextLength_bounds h
  have hne : t ≠ [] := by
    intro ht
    rw [ht] at hb
    simp only [List.length_nil] at hb
    omega
  have hhead : (t ++ x).head? = t.head? := List.head?_append_of_ne_nil t hne
  unfold nextLength at h ⊢
  simp only [isPrefixOf_esc, hhead, List.append_eq_nil_iff, hne, false_and, if_false] at h ⊢
  by_cases he : t.head? = some ESC
  · rw [if_pos he] at h ⊢
    obtain ⟨k, hk, hn⟩ := Option.map_eq_some_iff.mp h
    rw [sequenceEnd_append x hk, Option.map_some, ← hn, List.take_append_of_le_length (sequenceEnd_bounds hk).2]
    by_cases htwo : t.take k = [ESC, ESC]
    · have hk2 : k = 2 := by
        have hlen := congrArg List.length htwo
        rw [List.length_take, Nat.min_eq_left (sequenceEnd_bounds hk).2] at hlen
        exact hlen
      subst hk2
      by_cases hlen : 2 < t.length
      · rw [List.getElem?_append_left hlen]
      · have ht : t = [ESC, ESC] := by rw [← htwo, List.take_of_length_le (by omega)]
        have hx : (t ++ x)[2]? = x.head? := by
          subst ht
          cases x <;> rfl
        have hnone : t[2]? = none := List.getElem?_eq_none (by omega)
        have h1 : ¬∃ c ∈ sequenceOpeners, x.head? = some c := by
          rintro ⟨c, hc, hxc⟩
          exact hesc ht c hc hxc
        have h2 : ¬∃ c ∈ sequenceOpeners, (none : Option ℕ) = some c := by
          rintro ⟨c, -, hc⟩
          cases hc
        rw [hx, hnone, if_neg (fun h => h1 h.2), if_neg (fun h => h2 h.2)]
    · rw [if_neg (fun h => htwo h.1), if_neg (fun h => htwo h.1)]
  · rw [if_neg he] at h ⊢
    exact h

/-- A text that waits for more is empty or starts with an escape. -/
theorem head_of_nextLength_none {t : List ℕ} (h : nextLength t = none) (hne : t ≠ []) : t.head? = some ESC := by
  by_contra hh
  unfold nextLength at h
  rw [if_neg (mt isPrefixOf_esc.mp hh), if_neg hne] at h
  cases h

/-! ### All sequences -/

theorem extractFrom_fuel : ∀ (n m : ℕ) (t : List ℕ), t.length ≤ n → t.length ≤ m → extractFrom n t = extractFrom m t
  | 0, 0, _, _, _ => rfl
  | 0, m + 1, t, hn, _ => by
    obtain rfl : t = [] := List.length_eq_zero_iff.mp (by omega)
    rfl
  | n + 1, 0, t, _, hm => by
    obtain rfl : t = [] := List.length_eq_zero_iff.mp (by omega)
    rfl
  | n + 1, m + 1, t, hn, hm => by
    unfold extractFrom
    cases hnext : nextLength t with
    | none => rfl
    | some k =>
      have hb := nextLength_bounds hnext
      have hlen : (t.drop k).length = t.length - k := List.length_drop
      simp only [extractFrom_fuel n m (t.drop k) (by omega) (by omega)]

/-- The loop of `extractCompleteSequences`, without the fuel. -/
theorem extract_of_some {t : List ℕ} {n : ℕ} (h : nextLength t = some n) :
    extractCompleteSequences t =
      (t.take n :: (extractCompleteSequences (t.drop n)).1, (extractCompleteSequences (t.drop n)).2) := by
  have hb := nextLength_bounds h
  have hlen : (t.drop n).length = t.length - n := List.length_drop
  obtain ⟨k, hk⟩ : ∃ k, t.length = k + 1 := ⟨t.length - 1, by omega⟩
  have hfuel := extractFrom_fuel k (t.drop n).length (t.drop n) (by omega) (le_refl _)
  unfold extractCompleteSequences
  rw [hk, extractFrom, h]
  simp only [hfuel]

theorem extract_of_none {t : List ℕ} (h : nextLength t = none) : extractCompleteSequences t = ([], t) := by
  unfold extractCompleteSequences
  cases t with
  | nil => rfl
  | cons c t =>
    rw [List.length_cons, extractFrom, h]

/-- A scan goes sequence by sequence: a property of texts that one step carries back holds of
every text. -/
theorem scan_induction {motive : List ℕ → Prop} (none : ∀ t, nextLength t = none → motive t)
    (some : ∀ t n, nextLength t = some n → motive (t.drop n) → motive t) (t : List ℕ) : motive t := by
  induction hlen : t.length using Nat.strong_induction_on generalizing t with
  | _ k ih =>
    cases h : nextLength t with
    | none => exact none t h
    | some n =>
      have hb := nextLength_bounds h
      refine some t n h (ih (t.drop n).length ?_ _ rfl)
      rw [List.length_drop]
      omega

theorem flatten_extract (t : List ℕ) :
    (extractCompleteSequences t).1.flatten ++ (extractCompleteSequences t).2 = t := by
  induction t using scan_induction with
  | none t h => rw [extract_of_none h]; rfl
  | some t n h ih => rw [extract_of_some h, List.flatten_cons, List.append_assoc, ih, List.take_append_drop]

/-- The remainder waits for more. -/
theorem nextLength_remainder (t : List ℕ) : nextLength (extractCompleteSequences t).2 = none := by
  induction t using scan_induction with
  | none t h => rw [extract_of_none h]; exact h
  | some t n h ih => rw [extract_of_some h]; exact ih

/-- The scan of a text gets to a place where the text `r` is left. -/
inductive Reaches : List ℕ → List ℕ → Prop
  | refl (t : List ℕ) : Reaches t t
  | step {t r : List ℕ} {n : ℕ} (h : nextLength t = some n) (hr : Reaches (t.drop n) r) : Reaches t r

theorem reaches_remainder (t : List ℕ) : Reaches t (extractCompleteSequences t).2 := by
  induction t using scan_induction with
  | none t h => rw [extract_of_none h]; exact .refl t
  | some t n h ih => rw [extract_of_some h]; exact .step h ih

/-- What waits for more, at the end of a scan, is the remainder. -/
theorem Reaches.eq_remainder {t r : List ℕ} (h : Reaches t r) (hr : nextLength r = none) :
    r = (extractCompleteSequences t).2 := by
  induction h with
  | refl t => rw [extract_of_none hr]
  | step hn _ ih => rw [extract_of_some hn]; exact ih hr

theorem Reaches.eq_nil {r : List ℕ} (h : Reaches [] r) : r = [] := by
  cases h with
  | refl => rfl
  | step hn =>
    have hb := nextLength_bounds hn
    simp only [List.length_nil] at hb
    omega

/-- **A text that grows keeps its sequences**, unless it stops after two escapes. -/
theorem extract_append (x : List ℕ) (t : List ℕ)
    (hesc : Reaches t [ESC, ESC] → ∀ c ∈ sequenceOpeners, x.head? ≠ some c) :
    extractCompleteSequences (t ++ x) =
      ((extractCompleteSequences t).1 ++ (extractCompleteSequences ((extractCompleteSequences t).2 ++ x)).1,
        (extractCompleteSequences ((extractCompleteSequences t).2 ++ x)).2) := by
  induction t using scan_induction with
  | none t h => rw [extract_of_none h]; rfl
  | some t n h ih =>
    have hgrow : nextLength (t ++ x) = some n := nextLength_append h fun ht => hesc (ht ▸ .refl t)
    have hle := (nextLength_bounds h).2
    rw [extract_of_some hgrow, extract_of_some h, List.take_append_of_le_length hle, List.drop_append_of_le_length hle,
      ih fun hr => hesc (.step h hr)]
    rfl

/-- A text that stops after two escapes has the same sequences before them whatever follows. -/
theorem Reaches.extract_before {t : List ℕ} (h : Reaches t [ESC, ESC]) :
    ∃ sequences, ∀ x, extractCompleteSequences (t ++ x) =
      (sequences ++ (extractCompleteSequences ([ESC, ESC] ++ x)).1, (extractCompleteSequences ([ESC, ESC] ++ x)).2) := by
  generalize hr : [ESC, ESC] = r at h
  induction h with
  | refl t => exact ⟨[], fun x => rfl⟩
  | @step t r n hn hrest ih =>
    obtain ⟨sequences, hx⟩ := ih hr
    have hle := (nextLength_bounds hn).2
    refine ⟨t.take n :: sequences, fun x => ?_⟩
    have hgrow : nextLength (t ++ x) = some n := by
      refine nextLength_append hn fun ht => ?_
      -- the step would take both escapes, and then they are not reached
      subst ht hr
      obtain rfl : n = 2 := by
        have h2 : nextLength [ESC, ESC] = some 2 := by decide
        exact Option.some.inj (hn.symm.trans h2)
      cases hrest.eq_nil
    rw [extract_of_some hgrow, List.take_append_of_le_length hle, List.drop_append_of_le_length hle, hx x]
    rfl

/-! ### Emitting -/

namespace StdinBuffer

theorem emitAll_append (p : Option ℕ) : ∀ (qs rs : List (List ℕ)), emitAll p (qs ++ rs) =
    ((emitAll (emitAll p qs).1 rs).1, (emitAll p qs).2 ++ (emitAll (emitAll p qs).1 rs).2)
  | [], _ => rfl
  | q :: qs, rs => by
    have ih := emitAll_append (emitDataSequence p q).1 qs rs
    simp only [List.cons_append, emitAll, ih]

/-- A pending key is a printable one. -/
def Printable (pending : Option ℕ) : Prop := ∀ c, pending = some c → 32 ≤ c

theorem printable_parse (q : List ℕ) : Printable (parseUnmodifiedKittyPrintableCodepoint q) := by
  intro c hc
  have hchecked : ∀ (d : List ℕ) (n : ℕ) (b : Bool),
      (if isDigits d && b && 32 ≤ n then some n else none) = some c → 32 ≤ c := by
    intro d n b h
    split at h
    · rename_i hif
      cases h
      simp only [Bool.and_eq_true, decide_eq_true_eq] at hif
      exact hif.2
    · cases h
  unfold parseUnmodifiedKittyPrintableCodepoint at hc
  split at hc
  · simp only at hc
    split at hc
    · exact hchecked _ _ _ hc
    · exact hchecked _ _ _ hc
    · exact hchecked _ _ _ hc
    · cases hc
  · cases hc

theorem printable_emitAll : ∀ (qs : List (List ℕ)) {p : Option ℕ}, Printable p → Printable (emitAll p qs).1
  | [], _, hp => hp
  | q :: qs, p, _ => by
    show Printable (emitAll (emitDataSequence p q).1 qs).1
    apply printable_emitAll qs
    unfold emitDataSequence
    simp only
    generalize (if q.length = 1 then q.head? else none) = raw
    split
    · intro c hc
      cases hc
    · exact printable_parse q

/-- A sequence that starts with an escape is always emitted. -/
theorem emit_escape {p : Option ℕ} (hp : Printable p) {q : List ℕ} (hq : q.head? = some ESC) :
    (emitDataSequence p q).2 = .data q := by
  unfold emitDataSequence
  rw [if_neg]
  rintro ⟨hne, heq⟩
  by_cases hlen : q.length = 1
  · rw [if_pos hlen, hq] at heq
    exact absurd (hp ESC heq.symm) (by decide)
  · exact hne (if_neg hlen)

/-! ### A text after the other -/

theorem endPaste_congr {f g : StdinBuffer → List ℕ → StdinBuffer × List Emission} {s : StdinBuffer}
    (h : ∀ p rest, cutAt BRACKETED_PASTE_END s.pasteBuffer = some (p, rest) →
      f ⟨s.buffer, false, [], none⟩ rest = g ⟨s.buffer, false, [], none⟩ rest) : endPaste f s = endPaste g s := by
  unfold endPaste
  split
  · rfl
  · rename_i p rest hcut
    simp only [h p rest hcut]

theorem length_cut {pattern text before after : List ℕ} (h : cutAt pattern text = some (before, after)) :
    text.length = before.length + pattern.length + after.length := by
  have := congrArg List.length (eq_of_cutAt h)
  simp only [List.length_append] at this
  omega

theorem processFrom_fuel : ∀ (n m : ℕ) (s : StdinBuffer) (str : List ℕ),
    s.buffer.length + s.pasteBuffer.length + str.length < n → s.buffer.length + s.pasteBuffer.length + str.length < m →
    processFrom n s str = processFrom m s str
  | 0, _, _, _, hn, _ => absurd hn (Nat.not_lt_zero _)
  | _ + 1, 0, _, _, _, hm => absurd hm (Nat.not_lt_zero _)
  | n + 1, m + 1, s, str, hn, hm => by
    have hend : BRACKETED_PASTE_END.length = 6 := rfl
    have hstart : BRACKETED_PASTE_START.length = 6 := rfl
    unfold processFrom
    split
    · rfl
    · simp only
      split
      · refine endPaste_congr fun p rest hcut => processFrom_fuel n m _ _ ?_ ?_
        all_goals
          have := length_cut hcut
          simp only [List.length_append, List.length_nil] at this ⊢
          omega
      · split
        · rename_i before rest hcut
          have hlen := length_cut hcut
          simp only [List.length_append] at hlen
          have heq : endPaste (processFrom n) ⟨[], true, rest, none⟩ = endPaste (processFrom m) ⟨[], true, rest, none⟩ := by
            refine endPaste_congr fun p rest' hcut' => processFrom_fuel n m _ _ ?_ ?_
            all_goals
              have := length_cut hcut'
              simp only [List.length_nil] at this ⊢
              omega
          rw [heq]
        · rfl

/-- A text from the start, with a pending key. -/
def scanText (pending : Option ℕ) (text : List ℕ) : StdinBuffer × List Emission :=
  if text = [] then (⟨[], false, [], pending⟩, []) else processText ⟨[], false, [], pending⟩ text

/-- What is in an open paste so far. -/
def scanPaste (text : List ℕ) : StdinBuffer × List Emission :=
  match cutAt BRACKETED_PASTE_END text with
  | none => (⟨[], true, text, none⟩, [])
  | some (content, rest) => ((scanText none rest).1, .paste content :: (scanText none rest).2)

theorem endPaste_eq {n : ℕ} {text : List ℕ} (hn : text.length ≤ n + 5) :
    endPaste (processFrom n) ⟨[], true, text, none⟩ = scanPaste text := by
  unfold endPaste scanPaste
  cases hcut : cutAt BRACKETED_PASTE_END text with
  | none => rfl
  | some p =>
    obtain ⟨content, rest⟩ := p
    have hlen := length_cut hcut
    have hend : BRACKETED_PASTE_END.length = 6 := rfl
    simp only [scanText]
    by_cases hrest : rest = []
    · simp [hrest]
    · have hfuel := processFrom_fuel n (rest.length + 1) ⟨[], false, [], none⟩ rest (by simp; omega) (by simp)
      have hproc : processText ⟨[], false, [], none⟩ rest = processFrom n ⟨[], false, [], none⟩ rest := by
        rw [hfuel]
        simp [processText]
      simp [hrest, hproc]

theorem processText_eq {buffer c : List ℕ} (p : Option ℕ) (hne : ¬(c = [] ∧ buffer = [])) :
    processText ⟨buffer, false, [], p⟩ c =
    match cutAt BRACKETED_PASTE_START (buffer ++ c) with
    | some (before, rest) =>
      ((scanPaste rest).1, (emitAll p (extractCompleteSequences before).1).2 ++ (scanPaste rest).2)
    | none =>
      (⟨(extractCompleteSequences (buffer ++ c)).2, false, [], (emitAll p (extractCompleteSequences (buffer ++ c)).1).1⟩,
        (emitAll p (extractCompleteSequences (buffer ++ c)).1).2) := by
  rw [processText, processFrom, if_neg hne]
  simp only [Bool.false_eq_true, if_false]
  cases hcut : cutAt BRACKETED_PASTE_START (buffer ++ c) with
  | none => rfl
  | some pair =>
    obtain ⟨before, rest⟩ := pair
    have hlen := length_cut hcut
    have hstart : BRACKETED_PASTE_START.length = 6 := rfl
    rw [List.length_append] at hlen
    simp only
    rw [endPaste_eq (by simp only [List.length_nil]; omega)]

/-- A text with a paste in it, and a text without one. -/
theorem scanText_eq (p : Option ℕ) (text : List ℕ) : scanText p text =
    match cutAt BRACKETED_PASTE_START text with
    | some (before, rest) =>
      ((scanPaste rest).1, (emitAll p (extractCompleteSequences before).1).2 ++ (scanPaste rest).2)
    | none =>
      (⟨(extractCompleteSequences text).2, false, [], (emitAll p (extractCompleteSequences text).1).1⟩,
        (emitAll p (extractCompleteSequences text).1).2) := by
  unfold scanText
  by_cases htext : text = []
  · subst htext
    rfl
  · rw [if_neg htext, processText_eq p (fun h => htext h.1), List.nil_append]

/-- A chunk outside a paste goes on with the text that waits in the buffer. -/
theorem processText_plain {buffer c : List ℕ} (p : Option ℕ) (hc : c ≠ []) :
    processText ⟨buffer, false, [], p⟩ c = scanText p (buffer ++ c) := by
  rw [processText_eq p (fun h => hc h.1), scanText_eq]

/-- A chunk inside a paste. -/
theorem processText_paste {text c : List ℕ} (hc : c ≠ []) :
    processText ⟨[], true, text, none⟩ c = scanPaste (text ++ c) := by
  rw [processText, processFrom, if_neg (fun h => hc h.1)]
  simp only [List.nil_append, if_true]
  refine endPaste_eq ?_
  simp only [List.length_nil, List.length_append]
  omega

end StdinBuffer
end Trek.Tui
