/-
# What the splitter loses

Everything that goes into a `StdinBuffer` comes out or waits, with one exception: an
escape sequence that is not complete when the marker of a paste comes is dropped
(`run_lossless_iff`). The text before a marker is split, and the remainder of the
split is not used.
-/
import Trek.Tui.Scan

namespace Trek.Tui

open StdinBuffer

/-! ### Accounts -/

/-- The input behind an emission. -/
def Emission.text : Emission → List ℕ
  | .data sequence => sequence
  | .suppressed sequence => sequence
  | .paste content => BRACKETED_PASTE_START ++ (content ++ BRACKETED_PASTE_END)

/-- What waits: the buffer, or an open paste with its marker. -/
def StdinBuffer.held (s : StdinBuffer) : List ℕ :=
  s.buffer ++ if s.pasteMode then BRACKETED_PASTE_START ++ s.pasteBuffer else []

/-- What came out of a run, and what waits after it. -/
def accounted (r : StdinBuffer × List Emission) : List ℕ := r.2.flatMap Emission.text ++ r.1.held

/-- A chunk, or a timeout. -/
inductive Input
  | chunk (data : Data)
  | timeout

variable (decode : List UInt8 → List ℕ)

/-- The text of an input. -/
def Input.text : Input → List ℕ
  | .chunk data => data.str decode
  | .timeout => []

/-- One input. -/
def StdinBuffer.step (s : StdinBuffer) : Input → StdinBuffer × List Emission
  | .chunk data => s.process decode data
  | .timeout => s.timeout

/-- One input after the other. -/
def StdinBuffer.run (s : StdinBuffer) : List Input → StdinBuffer × List Emission
  | [] => (s, [])
  | input :: inputs =>
    let (s, emissions) := s.step decode input
    let (s, more) := s.run inputs
    (s, emissions ++ more)

/-! ### When nothing is lost -/

/-- `plain` is a stretch of the text outside pastes that the marker of a paste ends. -/
inductive BeforePaste : List ℕ → List ℕ → Prop
  | here {text plain rest : List ℕ} (h : cutAt BRACKETED_PASTE_START text = some (plain, rest)) : BeforePaste text plain
  | later {text before rest content after plain : List ℕ} (hstart : cutAt BRACKETED_PASTE_START text = some (before, rest))
    (hend : cutAt BRACKETED_PASTE_END rest = some (content, after)) (h : BeforePaste after plain) :
    BeforePaste text plain

/-- Every stretch of the text that a paste ends is made of complete sequences. -/
def Closed (text : List ℕ) : Prop := ∀ plain, BeforePaste text plain → Reaches plain []

/-- The same of a text inside a paste: what comes after its end. -/
def ClosedAfter (text : List ℕ) : Prop :=
  ∀ content after, cutAt BRACKETED_PASTE_END text = some (content, after) → Closed after

/-- No escape sequence is open where a paste begins, in what the buffer has and a text. -/
def StdinBuffer.KeepsText (s : StdinBuffer) (str : List ℕ) : Prop :=
  if s.pasteMode then ClosedAfter (s.pasteBuffer ++ str) else Closed (s.buffer ++ str)

/-- The condition on an input. -/
def StdinBuffer.Keeps (s : StdinBuffer) : Input → Prop
  | .chunk data => s.KeepsText (data.str decode)
  | .timeout => True

/-- Every input of a run meets the condition in its state. -/
def StdinBuffer.KeepsAll (s : StdinBuffer) : List Input → Prop
  | [] => True
  | input :: inputs => s.Keeps decode input ∧ (s.step decode input).1.KeepsAll inputs

/-- A text is accounted for, or some of it is lost, as a condition says. -/
structure Account (r : StdinBuffer × List Emission) (text : List ℕ) (condition : Prop) : Prop where
  kept : condition → accounted r = text
  lost : ¬condition → (accounted r).length < text.length

/-! ### One text -/

variable {decode}

theorem emitDataSequence_text (p : Option ℕ) (q : List ℕ) : (emitDataSequence p q).2.text = q := by
  unfold emitDataSequence
  simp only
  split <;> split <;> rfl

theorem emitAll_text : ∀ (qs : List (List ℕ)) (p : Option ℕ), (emitAll p qs).2.flatMap Emission.text = qs.flatten
  | [], _ => rfl
  | q :: qs, p => by
    show ((emitDataSequence p q).2 :: (emitAll (emitDataSequence p q).1 qs).2).flatMap Emission.text = _
    rw [List.flatMap_cons, emitDataSequence_text, emitAll_text qs, List.flatten_cons]

theorem closed_of_none {text : List ℕ} (h : cutAt BRACKETED_PASTE_START text = none) : Closed text := by
  intro plain hp
  cases hp with
  | here hcut =>
    rw [h] at hcut
    cases hcut
  | later hcut =>
    rw [h] at hcut
    cases hcut

theorem closed_of_some {text before rest : List ℕ} (h : cutAt BRACKETED_PASTE_START text = some (before, rest)) :
    Closed text ↔ Reaches before [] ∧ ClosedAfter rest := by
  constructor
  · intro hc
    exact ⟨hc before (.here h), fun content after hend plain hp => hc plain (.later h hend hp)⟩
  · rintro ⟨hbefore, hafter⟩ plain hp
    cases hp with
    | here hcut =>
      rw [h, Option.some.injEq, Prod.mk.injEq] at hcut
      rw [← hcut.1]
      exact hbefore
    | later hcut hend hp =>
      rw [h, Option.some.injEq, Prod.mk.injEq] at hcut
      rw [← hcut.2] at hend
      exact hafter _ _ hend _ hp

theorem reaches_nil_iff {text : List ℕ} : Reaches text [] ↔ (extractCompleteSequences text).2 = [] := by
  constructor
  · intro h
    exact (h.eq_remainder (by decide)).symm
  · intro h
    rw [← h]
    exact reaches_remainder text

/-- **A text is accounted for exactly when no sequence is open where a paste begins**, and so is
what follows the start of a paste. -/
theorem account_scan : ∀ (n : ℕ) (text : List ℕ), text.length < n →
    (∀ p, Account (scanText p text) text (Closed text)) ∧
    Account (scanPaste text) (BRACKETED_PASTE_START ++ text) (ClosedAfter text)
  | 0, _, hn => absurd hn (Nat.not_lt_zero _)
  | n + 1, text, hn => by
    refine ⟨fun p => ?_, ?_⟩
    · cases hcut : cutAt BRACKETED_PASTE_START text with
      | none =>
        have hall : accounted (scanText p text) = text := by
          rw [scanText_eq, hcut]
          show (emitAll p _).2.flatMap Emission.text ++ ((extractCompleteSequences text).2 ++ []) = text
          rw [emitAll_text, List.append_nil, flatten_extract]
        exact ⟨fun _ => hall, fun h => absurd (closed_of_none hcut) h⟩
      | some pair =>
        obtain ⟨before, rest⟩ := pair
        have hlen := length_cut hcut
        have hstart : BRACKETED_PASTE_START.length = 6 := rfl
        have hrest := (account_scan n rest (by omega)).2
        have heq : accounted (scanText p text) =
            (extractCompleteSequences before).1.flatten ++ accounted (scanPaste rest) := by
          rw [scanText_eq, hcut]
          show ((emitAll p _).2 ++ _).flatMap Emission.text ++ _ = _
          rw [List.flatMap_append, emitAll_text, List.append_assoc]
          rfl
        have hle : (accounted (scanPaste rest)).length ≤ (BRACKETED_PASTE_START ++ rest).length := by
          by_cases hc : ClosedAfter rest
          · rw [hrest.kept hc]
          · exact Nat.le_of_lt (hrest.lost hc)
        have hsplit := congrArg List.length (flatten_extract before)
        rw [List.length_append] at hsplit
        refine ⟨fun hc => ?_, fun hc => ?_⟩
        · rw [closed_of_some hcut, reaches_nil_iff] at hc
          have hflat := flatten_extract before
          rw [hc.1, List.append_nil] at hflat
          rw [heq, hrest.kept hc.2, hflat]
          exact (eq_of_cutAt hcut).symm
        · rw [closed_of_some hcut, reaches_nil_iff, not_and_or] at hc
          rw [heq, List.length_append, hlen]
          rw [List.length_append] at hle
          rcases hc with hopen | hc
          · have hpos := List.length_pos_iff.mpr hopen
            omega
          · have hlost := hrest.lost hc
            rw [List.length_append] at hlost
            omega
    · cases hcut : cutAt BRACKETED_PASTE_END text with
      | none =>
        have hall : accounted (scanPaste text) = BRACKETED_PASTE_START ++ text := by
          rw [scanPaste, hcut]
          rfl
        refine ⟨fun _ => hall, fun h => absurd (fun content after hend => ?_) h⟩
        rw [hcut] at hend
        cases hend
      | some pair =>
        obtain ⟨content, rest⟩ := pair
        have hlen := length_cut hcut
        have hend : BRACKETED_PASTE_END.length = 6 := rfl
        have hrest := (account_scan n rest (by omega)).1 none
        have heq : accounted (scanPaste text) =
            BRACKETED_PASTE_START ++ (content ++ BRACKETED_PASTE_END) ++ accounted (scanText none rest) := by
          rw [scanPaste, hcut]
          show Emission.text (.paste content) ++ _ ++ _ = _
          rw [List.append_assoc]
          rfl
        have hiff : ClosedAfter text ↔ Closed rest := by
          constructor
          · intro h
            exact h content rest hcut
          · intro h content' after hend'
            rw [hcut, Option.some.injEq, Prod.mk.injEq] at hend'
            rw [← hend'.2]
            exact h
        refine ⟨fun hc => ?_, fun hc => ?_⟩
        · rw [heq, hrest.kept (hiff.mp hc), eq_of_cutAt hcut]
          simp only [List.append_assoc]
        · have hlost := hrest.lost fun h => hc (hiff.mpr h)
          rw [heq]
          simp only [List.length_append] at hlost ⊢
          omega

/-! ### A run -/

/-- The two modes of a buffer. Outside a paste the paste buffer is empty, and inside one nothing
else is kept. -/
inductive Modes : StdinBuffer → Prop
  | plain (buffer : List ℕ) (pending : Option ℕ) : Modes ⟨buffer, false, [], pending⟩
  | paste (text : List ℕ) (h : cutAt BRACKETED_PASTE_END text = none) : Modes ⟨[], true, text, none⟩

theorem modes_scan : ∀ (n : ℕ) (text : List ℕ), text.length < n →
    (∀ p, Modes (scanText p text).1) ∧ Modes (scanPaste text).1
  | 0, _, hn => absurd hn (Nat.not_lt_zero _)
  | n + 1, text, hn => by
    refine ⟨fun p => ?_, ?_⟩
    · rw [scanText_eq]
      cases hcut : cutAt BRACKETED_PASTE_START text with
      | none => exact .plain _ _
      | some pair =>
        obtain ⟨before, rest⟩ := pair
        have hlen := length_cut hcut
        have hstart : BRACKETED_PASTE_START.length = 6 := rfl
        exact (modes_scan n rest (by omega)).2
    · rw [scanPaste]
      cases hcut : cutAt BRACKETED_PASTE_END text with
      | none => exact .paste text hcut
      | some pair =>
        obtain ⟨content, rest⟩ := pair
        have hlen := length_cut hcut
        have hend : BRACKETED_PASTE_END.length = 6 := rfl
        exact (modes_scan n rest (by omega)).1 none

/-- A chunk, in either mode, is scanned with what waits. An empty one changes nothing that
counts. -/
theorem chunk_account {s : StdinBuffer} (hs : Modes s) (str : List ℕ) :
    Modes (s.processText str).1 ∧ Account (s.processText str) (s.held ++ str) (s.KeepsText str) := by
  unfold StdinBuffer.KeepsText
  cases hs with
  | plain buffer pending =>
    have hheld : held ⟨buffer, false, [], pending⟩ = buffer := List.append_nil buffer
    rw [hheld]
    by_cases hempty : str = [] ∧ buffer = []
    · obtain ⟨rfl, rfl⟩ := hempty
      exact ⟨.plain _ _, fun _ => rfl, fun h => absurd (closed_of_none (show cutAt BRACKETED_PASTE_START [] = none by decide)) h⟩
    · have hstep : processText ⟨buffer, false, [], pending⟩ str = scanText pending (buffer ++ str) := by
        rw [processText_eq pending hempty, scanText_eq]
      rw [hstep]
      exact ⟨(modes_scan _ _ (Nat.lt_succ_self _)).1 pending, (account_scan _ _ (Nat.lt_succ_self _)).1 pending⟩
  | paste text hopen =>
    have hheld : held ⟨[], true, text, none⟩ = BRACKETED_PASTE_START ++ text := rfl
    rw [hheld, List.append_assoc]
    by_cases hempty : str = []
    · subst hempty
      have hclosed : ClosedAfter (text ++ []) := by
        intro content after hend
        rw [List.append_nil, hopen] at hend
        cases hend
      refine ⟨.paste text hopen, fun _ => ?_, fun h => absurd hclosed h⟩
      rw [List.append_nil]
      rfl
    · rw [processText_paste hempty]
      exact ⟨(modes_scan _ _ (Nat.lt_succ_self _)).2, (account_scan _ _ (Nat.lt_succ_self _)).2⟩

/-- A timeout emits what waits. -/
theorem timeout_account {s : StdinBuffer} (hs : Modes s) :
    Modes s.timeout.1 ∧ accounted s.timeout = s.held := by
  unfold StdinBuffer.timeout flush
  cases hs with
  | plain buffer pending =>
    by_cases hb : buffer = []
    · subst hb
      exact ⟨.plain _ _, rfl⟩
    · rw [if_neg hb]
      refine ⟨.plain _ _, ?_⟩
      show List.flatMap Emission.text (emitAll none [buffer]).2 ++ [] = buffer ++ []
      rw [emitAll_text, List.flatten_singleton]
  | paste text hopen => exact ⟨.paste text hopen, rfl⟩

/-- What one input does. -/
theorem step_account {s : StdinBuffer} (hs : Modes s) (input : Input) :
    Modes (s.step decode input).1 ∧
      Account (s.step decode input) (s.held ++ input.text decode) (s.Keeps decode input) := by
  cases input with
  | chunk data => exact chunk_account hs (data.str decode)
  | timeout =>
    obtain ⟨hmodes, hheld⟩ := timeout_account hs
    refine ⟨hmodes, fun _ => ?_, fun h => absurd trivial h⟩
    rw [Input.text, List.append_nil]
    exact hheld

/-- What a run does: from what waited before it and the text of its inputs nothing is lost, or
something is. -/
theorem run_account : ∀ (inputs : List Input) {s : StdinBuffer}, Modes s →
    Account (s.run decode inputs) (s.held ++ inputs.flatMap (Input.text decode)) (s.KeepsAll decode inputs)
  | [], s, _ => by
    refine ⟨fun _ => ?_, fun h => absurd trivial h⟩
    rw [List.flatMap_nil, List.append_nil]
    rfl
  | input :: inputs, s, hs => by
    obtain ⟨hmodes, hstep⟩ := @step_account decode s hs input
    have hrest := run_account inputs hmodes
    set s' := (s.step decode input).1 with hs'
    have heq : accounted (s.run decode (input :: inputs)) =
        (s.step decode input).2.flatMap Emission.text ++ accounted (s'.run decode inputs) := by
      show ((s.step decode input).2 ++ (s'.run decode inputs).2).flatMap Emission.text ++ _ = _
      rw [List.flatMap_append, List.append_assoc]
      rfl
    have hone : accounted (s.step decode input) = (s.step decode input).2.flatMap Emission.text ++ s'.held := rfl
    have hle : (accounted (s.step decode input)).length ≤ (s.held ++ input.text decode).length := by
      by_cases hk : s.Keeps decode input
      · rw [hstep.kept hk]
      · exact Nat.le_of_lt (hstep.lost hk)
    have hle' : (accounted (s'.run decode inputs)).length ≤ (s'.held ++ inputs.flatMap (Input.text decode)).length := by
      by_cases hk : s'.KeepsAll decode inputs
      · rw [hrest.kept hk]
      · exact Nat.le_of_lt (hrest.lost hk)
    rw [List.flatMap_cons]
    refine ⟨fun hk => ?_, fun hk => ?_⟩
    · calc accounted (s.run decode (input :: inputs))
        _ = (s.step decode input).2.flatMap Emission.text ++ (s'.held ++ inputs.flatMap (Input.text decode)) := by
          rw [heq, hrest.kept hk.2]
        _ = accounted (s.step decode input) ++ inputs.flatMap (Input.text decode) := by
          rw [hone, List.append_assoc]
        _ = s.held ++ (input.text decode ++ inputs.flatMap (Input.text decode)) := by
          rw [hstep.kept hk.1, List.append_assoc]
    · have hnot : ¬s.Keeps decode input ∨ ¬s'.KeepsAll decode inputs := not_and_or.mp hk
      rw [heq]
      rw [hone] at hle
      simp only [List.length_append] at hle hle' ⊢
      rcases hnot with hk | hk
      · have hlost := hstep.lost hk
        rw [hone] at hlost
        simp only [List.length_append] at hlost
        omega
      · have hlost := hrest.lost hk
        simp only [List.length_append] at hlost
        omega

variable (decode)

/-- **The input of a run is what it emitted and suppressed and what waits after it, exactly
when no escape sequence is open where a paste begins**, in what the buffer has and the chunk,
at any chunk of the run. -/
theorem run_lossless_iff (inputs : List Input) :
    accounted (new.run decode inputs) = inputs.flatMap (Input.text decode) ↔ new.KeepsAll decode inputs := by
  have hrun := @run_account decode inputs _ (.plain [] none)
  constructor
  · intro h
    by_contra hk
    have hlost := hrun.lost hk
    have hsame := congrArg List.length h
    exact absurd hsame (Nat.ne_of_lt hlost)
  · intro hk
    exact hrun.kept hk

/-- The escape key and a paste in one chunk: the key is lost. -/
theorem run_loses_escape :
    let input := [ESC] ++ (BRACKETED_PASTE_START ++ [0x61] ++ BRACKETED_PASTE_END)
    accounted (new.run (fun _ => []) [.chunk (.text input)]) ≠ input := by decide

end Trek.Tui
