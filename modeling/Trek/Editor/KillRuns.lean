/-
# Runs of kills

Kills one after the other are kept as one entry of the kill ring. The entry, put before the cursor where
the run has ended, gives back the text before the run (`Accumulated`), unless the run has started with a
word kill that was stuck: that one puts nothing into the ring, but the kill after it joins its text to
the entry of an older run (`kill_yank_inverse_iff`).
-/
import Trek.Editor.KillSpecs

namespace Trek.Editor

open Trek.Tui

/-- Kills one after the other. -/
def runKills (wordSegmenter : Segmenter) (ops : List KillOp) (e : Editor) : Editor :=
  ops.foldl (fun e op => op.run wordSegmenter e) e

/-- The last entry of the kill ring, put before the cursor, gives back the text before a run of kills. A run
that has killed nothing has left the text as it was. -/
def Restores (e e' : Editor) : Prop :=
  e'.getText = e.getText ∨ ∃ entry, e'.killRing.peek = some entry ∧ (e'.insertYankedText entry).getText = e.getText

/-- A kill that takes text away. -/
def Deletes (wordSegmenter : Segmenter) (e : Editor) (op : KillOp) : Prop := ¬ op.Idle e ∧ ¬ op.Stuck wordSegmenter e

/-- The first kill that is not idle is stuck, a later one takes text away, and there is an older entry. -/
def JoinsOlderEntry (wordSegmenter : Segmenter) (e : Editor) (ops : List KillOp) : Prop :=
  e.killRing ≠ [] ∧ (∃ op, ops.find? (¬ ·.Idle e) = some op ∧ op.Stuck wordSegmenter e) ∧ ∃ op ∈ ops, Deletes wordSegmenter e op

/-- An entry has grown on both sides of `base`, from text on both sides of the cursor. -/
def Accumulated (before after base : List ℕ) (older : KillRing) (e : Editor) : Prop :=
  ∃ before' after' killedBefore killedAfter, e.state.At before' after' ∧ before = before' ++ killedBefore ∧
    after = killedAfter ++ after' ∧ e.killRing = (killedBefore ++ (base ++ killedAfter)) :: older ∧ e.lastAction = some .kill ∧
      killedBefore ++ killedAfter ≠ []

variable {e : Editor} {before after base text : List ℕ} {older : KillRing} {wordSegmenter : Segmenter} {op : KillOp} {ops : List KillOp}

/-! ### Kills that take nothing away -/

theorem pastes_run (wordSegmenter : Segmenter) (op : KillOp) (e : Editor) : (op.run wordSegmenter e).pastes = e.pastes := by
  cases op with
  | deleteToStartOfLine =>
    change e.deleteToStartOfLine.pastes = _
    unfold Editor.deleteToStartOfLine
    dsimp only
    split
    · rfl
    · split <;> rfl
  | deleteToEndOfLine =>
    change e.deleteToEndOfLine.pastes = _
    unfold Editor.deleteToEndOfLine
    dsimp only
    split
    · rfl
    · split <;> rfl
  | deleteWordBackwards =>
    change (e.deleteWordBackwards wordSegmenter).pastes = _
    unfold Editor.deleteWordBackwards
    dsimp only
    split
    · split <;> rfl
    · rfl
  | deleteWordForward =>
    change (e.deleteWordForward wordSegmenter).pastes = _
    unfold Editor.deleteWordForward
    dsimp only
    split
    · split <;> rfl
    · rfl

/-- A kill that is idle or stuck leaves the text, the pastes and the ring. -/
theorem run_of_not_deletes (h : e.state.At before after) (hop : ¬ Deletes wordSegmenter e op) :
    (op.run wordSegmenter e).state = e.state ∧ (op.run wordSegmenter e).killRing = e.killRing ∧
      (op.run wordSegmenter e).lastAction = if op.Idle e then e.lastAction else some .kill := by
  by_cases hidle : op.Idle e
  · rw [KillOp.run_idle hidle, if_pos hidle]
    exact ⟨rfl, rfl, rfl⟩
  · obtain ⟨killed, hkills, hstuck⟩ := @KillOp.run_kills e before after wordSegmenter op h hidle
    have hkilled : killed = [] := hstuck.mpr (by_contra fun hnot => hop ⟨hidle, hnot⟩)
    rw [if_neg hidle]
    refine ⟨?_, hkills.killRing.trans (if_pos hkilled), hkills.lastAction⟩
    have hstate := hkills.state
    rw [hkilled] at hstate
    split at hstate
    · obtain ⟨before', hbefore, hat⟩ := hstate
      rw [List.append_nil] at hbefore
      exact hat.unique (hbefore ▸ h)
    · obtain ⟨after', hafter, hat⟩ := hstate
      rw [List.nil_append] at hafter
      exact hat.unique (hafter ▸ h)

/-- What a kill would do depends on the text, the cursor and the pastes. -/
theorem idle_congr {e' : Editor} (hstate : e'.state = e.state) (op : KillOp) : op.Idle e' ↔ op.Idle e := by
  unfold KillOp.Idle
  rw [hstate]

theorem stuck_congr {e' : Editor} (hstate : e'.state = e.state) (hpastes : e'.pastes = e.pastes) (op : KillOp) :
    op.Stuck wordSegmenter e' ↔ op.Stuck wordSegmenter e := by
  have hsegment : e'.segment wordSegmenter = e.segment wordSegmenter := by
    unfold Editor.segment Editor.validPasteIds
    rw [hpastes]
  cases op <;> simp only [KillOp.Stuck, hsegment, hstate]

theorem deletes_congr {e' : Editor} (hstate : e'.state = e.state) (hpastes : e'.pastes = e.pastes) (op : KillOp) :
    Deletes wordSegmenter e' op ↔ Deletes wordSegmenter e op :=
  and_congr (not_congr (idle_congr hstate op)) (not_congr (stuck_congr hstate hpastes op))

/-! ### Kills that take text away -/

/-- The first text of a run that goes into the ring starts a new entry, or joins the last one. -/
theorem accumulated_first (h : e.state.At before after) (hop : Deletes wordSegmenter e op)
    (hring : if e.lastAction = some .kill ∧ e.killRing ≠ [] then e.killRing = base :: older else base = [] ∧ older = e.killRing) :
    Accumulated before after base older (op.run wordSegmenter e) := by
  obtain ⟨killed, hkills, hstuck⟩ := @KillOp.run_kills e before after wordSegmenter op h hop.1
  have hne : killed ≠ [] := fun hnil => hop.2 (hstuck.mp hnil)
  have hpush : (op.run wordSegmenter e).killRing =
      (if op.isBackward then killed ++ base else base ++ killed) :: older := by
    rw [hkills.killRing]
    unfold KillRing.push
    rw [if_neg hne]
    split at hring
    · next hkill =>
      rw [hring]
      dsimp only
      rw [if_pos (decide_eq_true hkill.1)]
    · next hkill =>
      obtain ⟨rfl, rfl⟩ := hring
      cases hkillRing : e.killRing with
      | nil => simp
      | cons last rest =>
        rw [hkillRing] at hkill
        have hlast : e.lastAction ≠ some .kill := fun hlast => hkill ⟨hlast, List.cons_ne_nil _ _⟩
        simp [hlast]
  have hstate := hkills.state
  cases hback : op.isBackward with
  | true =>
    rw [hback, if_pos rfl] at hstate hpush
    obtain ⟨before', rfl, hat⟩ := hstate
    refine ⟨before', after, killed, [], hat, rfl, rfl, ?_, hkills.lastAction, by simpa using hne⟩
    rw [hpush, List.append_nil]
  | false =>
    rw [hback] at hstate hpush
    obtain ⟨after', rfl, hat⟩ := hstate
    exact ⟨before, after', [], killed, hat, (List.append_nil _).symm, rfl, hpush, hkills.lastAction, by simpa using hne⟩

/-- The entry goes on growing. -/
theorem Accumulated.run (h : Accumulated before after base older e) (op : KillOp) :
    Accumulated before after base older (op.run wordSegmenter e) := by
  obtain ⟨before', after', killedBefore, killedAfter, hat, rfl, rfl, hring, hlast, hne⟩ := h
  by_cases hop : Deletes wordSegmenter e op
  · have hfirst : Accumulated before' after' (killedBefore ++ (base ++ killedAfter)) older (op.run wordSegmenter e) := by
      refine accumulated_first hat hop ?_
      rw [if_pos ⟨hlast, hring ▸ List.cons_ne_nil _ _⟩]
      exact hring
    obtain ⟨before'', after'', killedBefore', killedAfter', hat', rfl, rfl, hring', hlast', hne'⟩ := hfirst
    refine ⟨before'', after'', killedBefore' ++ killedBefore, killedAfter ++ killedAfter', hat', ?_, ?_, ?_, hlast', ?_⟩
    · rw [List.append_assoc]
    · rw [List.append_assoc]
    · rw [hring']
      simp
    · intro hnil
      simp only [List.append_eq_nil_iff] at hnil
      exact hne' (List.append_eq_nil_iff.mpr ⟨hnil.1.1, hnil.2.2⟩)
  · obtain ⟨hstate, hring', hlast'⟩ := run_of_not_deletes hat hop
    refine ⟨before', after', killedBefore, killedAfter, hstate ▸ hat, rfl, rfl, hring'.trans hring, ?_, hne⟩
    rw [hlast']
    split
    · exact hlast
    · rfl

theorem Accumulated.runKills : ∀ (ops : List KillOp) {e : Editor}, Accumulated before after base older e →
    Accumulated before after base older (Editor.runKills wordSegmenter ops e)
  | [], _, h => h
  | op :: ops, _, h => runKills ops (h.run op)

/-- The entry gives back the text if it has grown from nothing. -/
theorem Accumulated.restores_iff {e' : Editor} (h : Accumulated before after base older e') (htext : e.getText = before ++ after) :
    Restores e e' ↔ base = [] := by
  obtain ⟨before', after', killedBefore, killedAfter, hat, rfl, rfl, hring, -, hne⟩ := h
  have hpeek : e'.killRing.peek = some (killedBefore ++ (base ++ killedAfter)) := by rw [hring]; rfl
  have hyank := (insertYankedText_at hat (killedBefore ++ (base ++ killedAfter))).getText
  unfold Restores
  rw [htext, hat.getText]
  constructor
  · rintro (hsame | ⟨entry, hentry, hrestored⟩)
    · have hlength := congrArg List.length hsame
      have hpos := List.length_pos_iff.mpr hne
      simp only [List.length_append] at hlength hpos
      omega
    · obtain rfl := Option.some.inj (hpeek.symm.trans hentry)
      have hlength := congrArg List.length (hyank.symm.trans hrestored)
      simp only [List.length_append] at hlength
      exact List.length_eq_zero_iff.mp (by omega)
  · rintro rfl
    refine Or.inr ⟨_, hpeek, hyank.trans ?_⟩
    simp

/-! ### Runs -/

theorem restores_congr {e₀ e' : Editor} (h : e₀.state = e.state) : Restores e₀ e' ↔ Restores e e' := by
  have htext : e₀.getText = e.getText := by rw [Editor.getText, h]; rfl
  rw [Restores, htext]
  rfl

/-- Of a kill that takes nothing away and others the others are left. -/
theorem exists_deletes_cons {e' : Editor} (hstate : e'.state = e.state) (hpastes : e'.pastes = e.pastes)
    (hop : ¬ Deletes wordSegmenter e op) :
    (∃ op' ∈ op :: ops, Deletes wordSegmenter e op') ↔ ∃ op' ∈ ops, Deletes wordSegmenter e' op' := by
  simp only [List.mem_cons, exists_eq_or_imp, hop, false_or, deletes_congr hstate hpastes]

/-- A run that goes on from a kill: the first text that it takes away joins the last entry. -/
theorem restores_of_kill_iff : ∀ (ops : List KillOp) {e : Editor}, e.state.At before after → e.lastAction = some .kill →
    [] ∉ e.killRing → (Restores e (runKills wordSegmenter ops e) ↔
      ¬ (e.killRing ≠ [] ∧ ∃ op ∈ ops, Deletes wordSegmenter e op))
  | [], e, _, _, _ => iff_of_true (Or.inl rfl) fun h => by simp at h
  | op :: ops, e, h, hlast, hring => by
    change Restores e (runKills wordSegmenter ops (op.run wordSegmenter e)) ↔ _
    by_cases hop : Deletes wordSegmenter e op
    · have hsome : ∃ op' ∈ op :: ops, Deletes wordSegmenter e op' := ⟨op, List.mem_cons_self, hop⟩
      cases hkillRing : e.killRing with
      | nil =>
        have hfirst : Accumulated before after [] [] (op.run wordSegmenter e) :=
          accumulated_first h hop (by rw [if_neg (fun hand => hand.2 hkillRing)]; exact ⟨rfl, hkillRing.symm⟩)
        exact ((Accumulated.runKills ops hfirst).restores_iff h.getText).trans (iff_of_true rfl fun hand => hand.1 rfl)
      | cons last rest =>
        have hfirst : Accumulated before after last rest (op.run wordSegmenter e) :=
          accumulated_first h hop (by rw [if_pos ⟨hlast, hkillRing ▸ List.cons_ne_nil _ _⟩]; exact hkillRing)
        have hne : last ≠ [] := fun hnil => hring (by rw [hkillRing, hnil]; exact List.mem_cons_self)
        exact ((Accumulated.runKills ops hfirst).restores_iff h.getText).trans
          (iff_of_false hne (not_not.mpr ⟨List.cons_ne_nil _ _, hsome⟩))
    · obtain ⟨hstate, hkillRing, hlast'⟩ := run_of_not_deletes h hop
      have hkill : (op.run wordSegmenter e).lastAction = some .kill := by
        rw [hlast', hlast]
        exact ite_self _
      have ih := restores_of_kill_iff ops (hstate ▸ h) hkill (hkillRing ▸ hring)
      rw [restores_congr hstate] at ih
      rw [ih, hkillRing, exists_deletes_cons hstate (pastes_run wordSegmenter op e) hop]

/-- A run that starts a new entry. -/
theorem restores_iff : ∀ (ops : List KillOp) {e : Editor}, e.state.At before after → e.lastAction ≠ some .kill →
    [] ∉ e.killRing → (Restores e (runKills wordSegmenter ops e) ↔ ¬ JoinsOlderEntry wordSegmenter e ops)
  | [], e, _, _, _ => iff_of_true (Or.inl rfl) fun ⟨_, ⟨op, hop, _⟩, _⟩ => by cases hop
  | op :: ops, e, h, hlast, hring => by
    change Restores e (runKills wordSegmenter ops (op.run wordSegmenter e)) ↔ _
    by_cases hop : Deletes wordSegmenter e op
    · have hfirst : Accumulated before after [] e.killRing (op.run wordSegmenter e) :=
        accumulated_first h hop (by rw [if_neg (fun hand => hlast hand.1)]; exact ⟨rfl, rfl⟩)
      refine ((Accumulated.runKills ops hfirst).restores_iff h.getText).trans (iff_of_true rfl ?_)
      rintro ⟨-, ⟨op', hfind, hstuck⟩, -⟩
      rw [List.find?_cons_of_pos (by simpa using hop.1)] at hfind
      obtain rfl := Option.some.inj hfind
      exact hop.2 hstuck
    · obtain ⟨hstate, hkillRing, hlast'⟩ := run_of_not_deletes h hop
      have hpastes := pastes_run wordSegmenter op e
      by_cases hidle : op.Idle e
      · rw [if_pos hidle] at hlast'
        have ih := restores_iff ops (hstate ▸ h) (hlast' ▸ hlast) (hkillRing ▸ hring)
        rw [restores_congr hstate] at ih
        have hfind : ∀ op', ops.find? (¬ ·.Idle (op.run wordSegmenter e)) = some op' ↔
            (op :: ops).find? (¬ ·.Idle e) = some op' := by
          intro op'
          rw [List.find?_cons_of_neg (by simpa using hidle)]
          simp only [idle_congr hstate]
        rw [ih, JoinsOlderEntry, JoinsOlderEntry, hkillRing, exists_deletes_cons hstate hpastes hop]
        simp only [hfind, stuck_congr hstate hpastes]
      · -- the first kill is stuck: the rest of the run joins the last entry
        have hstuck : op.Stuck wordSegmenter e := by_contra fun hnot => hop ⟨hidle, hnot⟩
        rw [if_neg hidle] at hlast'
        have hkill := @restores_of_kill_iff before after wordSegmenter ops _ (hstate ▸ h) hlast' (hkillRing ▸ hring)
        rw [restores_congr hstate] at hkill
        have hfind : ∃ op', (op :: ops).find? (¬ ·.Idle e) = some op' ∧ op'.Stuck wordSegmenter e :=
          ⟨op, List.find?_cons_of_pos (by simpa using hidle), hstuck⟩
        rw [hkill, JoinsOlderEntry, hkillRing, exists_deletes_cons hstate hpastes hop, and_iff_right hfind]

/-! ### Kill and yank -/

theorem killRing_insertYankedText (e : Editor) (text : List ℕ) : (e.insertYankedText text).killRing = e.killRing := by
  unfold insertYankedText
  dsimp only
  split <;> rfl

theorem killRing_deleteYankedText (e : Editor) : e.deleteYankedText.killRing = e.killRing := by
  unfold deleteYankedText
  split
  · rfl
  · split
    · rfl
    · dsimp only
      split <;> rfl

theorem yankPop_of {text' : List ℕ} {rest : KillRing} (hlast : e.lastAction = some .yank) (hring : e.killRing = text :: text' :: rest) :
    e.yankPop = ({ e.pushUndoSnapshot.deleteYankedText with killRing := text' :: (rest ++ [text]) }.insertYankedText
      text').setLastAction (some .yank) := by
  have hkept : e.pushUndoSnapshot.deleteYankedText.killRing = text :: text' :: rest :=
    (killRing_deleteYankedText _).trans hring
  unfold yankPop
  rw [if_neg (by simp [hlast, hring])]
  dsimp only
  rw [hkept]
  rfl

/-- But after a yank, and with another entry, `yankPop` does nothing. -/
theorem yankPop_cases (e : Editor) :
    e.yankPop = e ∨ e.lastAction = some .yank ∧ ∃ text text' rest, e.killRing = text :: text' :: rest := by
  by_cases hguard : e.lastAction ≠ some .yank ∨ e.killRing.length ≤ 1
  · exact Or.inl (if_pos hguard)
  · obtain ⟨hlast, hlong⟩ := not_or.mp hguard
    refine Or.inr ⟨not_not.mp hlast, ?_⟩
    match hring : e.killRing with
    | [] => simp [hring] at hlong
    | [_] => simp [hring] at hlong
    | text :: text' :: rest => exact ⟨text, text', rest, rfl⟩

/-- After a yank the other text is put where the yanked text was. -/
theorem yankPop_at {text' : List ℕ} {rest : KillRing} (h : e.state.At (before ++ text) after) (hlast : e.lastAction = some .yank)
    (hring : e.killRing = text :: text' :: rest) : e.yankPop.state.At (before ++ text') after := by
  have hpeek : e.pushUndoSnapshot.killRing.peek = some text := by
    rw [KillRing.peek]
    simp [pushUndoSnapshot, hring]
  have hdelete := @deleteYankedText_at e.pushUndoSnapshot before after text hpeek h
  rw [yankPop_of hlast hring]
  exact @insertYankedText_at { e.pushUndoSnapshot.deleteYankedText with killRing := text' :: (rest ++ [text]) } before after
    hdelete text'

/-- **Pops go round the kill ring.** After a yank and any number of pops the text and the cursor are as if the entry they
have come to had been inserted. -/
theorem yankPops_cycle (h : e.state.WellFormed) (k : ℕ) {rest : KillRing}
    (hring : KillRing.rotate^[k] e.killRing = text :: rest) :
    (yankPop^[k] e.yank).killRing = text :: rest ∧ (yankPop^[k] e.yank).state = (e.insertYankedText text).state := by
  obtain ⟨before, after, hat⟩ := h.exists_at
  have hcycle : (yankPop^[k] e.yank).killRing = text :: rest ∧ (yankPop^[k] e.yank).lastAction = some .yank ∧
      (yankPop^[k] e.yank).state.At (before ++ text) after := by
    induction k generalizing text rest with
    | zero =>
      have hring : e.killRing = text :: rest := hring
      have hyank : e.yank = (e.pushUndoSnapshot.insertYankedText text).setLastAction (some .yank) := by
        rw [yank, hring]
        rfl
      rw [Function.iterate_zero_apply, hyank]
      exact ⟨(killRing_insertYankedText _ _).trans hring, rfl, @insertYankedText_at e.pushUndoSnapshot before after hat text⟩
    | succ k ih =>
      rw [Function.iterate_succ_apply'] at hring ⊢
      match hold : KillRing.rotate^[k] e.killRing with
      | [] => cases (hold ▸ hring :)
      | [first] =>
        obtain ⟨hkill, hlast, hstate⟩ := ih hold
        obtain ⟨rfl, rfl⟩ := List.cons.inj (hold ▸ hring :)
        rw [yankPop, if_pos (.inr (by rw [hkill]; rfl))]
        exact ⟨hkill, hlast, hstate⟩
      | first :: second :: others =>
        obtain ⟨hkill, hlast, hstate⟩ := ih hold
        obtain ⟨rfl, rfl⟩ := List.cons.inj (hold ▸ hring :)
        refine ⟨?_, by rw [yankPop_of hlast hkill]; rfl, yankPop_at hstate hlast hkill⟩
        rw [yankPop_of hlast hkill]
        exact killRing_insertYankedText _ _
  exact ⟨hcycle.1, hcycle.2.2.unique (insertYankedText_at hat text)⟩

/-- Kill and yank are inverse: what was yanked can be taken back, the text of the older entry stands in
its place after `yankPop`, and the entry of a run of kills gives back the text before it. -/
def KillYankInverse (wordSegmenter : Segmenter) (e : Editor) (ops : List KillOp) : Prop :=
  (∀ text rest, ({ e with killRing := text :: rest }.insertYankedText text).deleteYankedText.state = e.state) ∧
    (∀ text text' rest, { e with killRing := text :: text' :: rest }.yank.yankPop.state = (e.insertYankedText text').state) ∧
      (e.lastAction ≠ some .kill → Restores e (runKills wordSegmenter ops e))

/-- **Kill and yank are inverse if and only if no kill of the run joins an older entry.** -/
theorem kill_yank_inverse_iff (h : e.state.WellFormed) (hring : [] ∉ e.killRing) (wordSegmenter : Segmenter) (ops : List KillOp) :
    KillYankInverse wordSegmenter e ops ↔ (e.lastAction ≠ some .kill → ¬ JoinsOlderEntry wordSegmenter e ops) := by
  obtain ⟨before, after, hat⟩ := h.exists_at
  have hyank : ∀ text rest, ({ e with killRing := text :: rest }.insertYankedText text).deleteYankedText.state = e.state := by
    intro text rest
    have hinsert := @insertYankedText_at { e with killRing := text :: rest } before after hat text
    have hpeek : ({ e with killRing := text :: rest }.insertYankedText text).killRing.peek = some text := by
      rw [killRing_insertYankedText]
      rfl
    exact (deleteYankedText_at hpeek hinsert).unique hat
  have hpop : ∀ text text' rest, { e with killRing := text :: text' :: rest }.yank.yankPop.state = (e.insertYankedText text').state := by
    intro text text' rest
    have hinsert := @insertYankedText_at { e with killRing := text :: text' :: rest }.pushUndoSnapshot before after hat text
    have hring' : { e with killRing := text :: text' :: rest }.yank.killRing = text :: text' :: rest := killRing_insertYankedText _ _
    have hpop := @yankPop_at { e with killRing := text :: text' :: rest }.yank before after text text' rest hinsert rfl hring'
    exact hpop.unique (insertYankedText_at hat text')
  constructor
  · rintro ⟨-, -, hrestores⟩ hlast
    exact (restores_iff ops hat hlast hring).mp (hrestores hlast)
  · intro hnot
    exact ⟨hyank, hpop, fun hlast => (restores_iff ops hat hlast hring).mpr (hnot hlast)⟩

/-- A segmenter that takes every text as one word. -/
def oneWord : Segmenter where
  cut := fun text => if text = [] then [] else [(text, true)]
  flatten_cut := fun text => by split <;> simp_all
  cut_ne_nil := fun text s hs => by
    split at hs
    · cases hs
    · next hne =>
      obtain rfl := List.mem_singleton.mp hs
      exact hne

/-- An editor with a text behind the cursor and an older entry in the kill ring. -/
def editorAfterKill (killed text : List ℕ) : Editor :=
  ((Editor.new 0).insertCharacter killed).deleteToStartOfLine.insertCharacter text

theorem yankPops_cycle_one : (yankPop^[3] (editorAfterKill (ascii "a") []).yank).killRing = [ascii "a"] :=
  (yankPops_cycle (by constructor <;> decide) 3 (by decide)).1

/-- A word is killed, and the rest of the line. -/
theorem kill_yank_inverse_word :
    (editorAfterKill (ascii "a") (ascii "bc")).state.WellFormed ∧ [] ∉ (editorAfterKill (ascii "a") (ascii "bc")).killRing ∧
      KillYankInverse oneWord (editorAfterKill (ascii "a") (ascii "bc")) [.deleteWordBackwards, .deleteToEndOfLine] := by
  have hwell : (editorAfterKill (ascii "a") (ascii "bc")).state.WellFormed := by
    constructor <;> decide
  have hring : [] ∉ (editorAfterKill (ascii "a") (ascii "bc")).killRing := by decide
  refine ⟨hwell, hring, (kill_yank_inverse_iff hwell hring oneWord _).mpr fun _ => ?_⟩
  rintro ⟨-, ⟨op, hfind, hstuck⟩, -⟩
  have hfirst : [KillOp.deleteWordBackwards, .deleteToEndOfLine].find? (¬ ·.Idle (editorAfterKill (ascii "a") (ascii "bc"))) =
      some .deleteWordBackwards := by decide
  obtain rfl := Option.some.inj (hfirst.symm.trans hfind)
  exact absurd hstuck (by decide)

/-- A word that ends with punctuation: the motion to its start does not move, but what is killed after it is
put before the entry of an older kill. -/
theorem kill_yank_inverse_punctuation :
    ¬ KillYankInverse oneWord (editorAfterKill (ascii "a") [0x5d0, 0x27]) [.deleteWordBackwards, .deleteToStartOfLine] := by
  intro h
  have hpeek : (runKills oneWord [.deleteWordBackwards, .deleteToStartOfLine]
      (editorAfterKill (ascii "a") [0x5d0, 0x27])).killRing.peek = some [0x5d0, 0x27, 0x61] := by decide
  rcases h.2.2 (by decide) with hsame | ⟨entry, hentry, hrestored⟩
  · exact absurd hsame (by decide)
  · obtain rfl := Option.some.inj (hpeek.symm.trans hentry)
    exact absurd hrestored (by decide)

end Trek.Editor
