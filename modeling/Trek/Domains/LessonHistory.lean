/-
# The history of a lesson pattern is an undo stack

What the calls are for: a save puts a text into effect and keeps the one before it, a restore brings back
the last one that is kept (`Texts`). The files are this: the files of the history hold the versions of
an undo stack, the index its position, and the overlay its current version (`Sim`).

A text that is brought back has to be a pattern of the domain. The overlay that the project starts with
need not be one, so that a restore may refuse to bring it back (`restore_refused`).
-/
import Trek.Domains.Lessons
import Trek.Domains.History

namespace Trek.Domains.Lessons

/-! ### The texts in effect -/

/-- Whether the project has an overlay, the text in effect, and those before it that can be brought back,
the last one first. -/
structure Texts where
  saved : Bool
  text : Option String
  past : List String

section

variable (env : LessonEnv)

/-- A save of a pattern that differs in more than the white space at its ends puts the text in effect on
the stack. An empty text of the package is not kept. -/
def Texts.save (t : Texts) (yamlText : String) : Texts :=
  if isLessonId env.id = false ∨ isPattern env yamlText = false then t
  else
    match t.text with
    | none => ⟨true, some (ensureNewline yamlText), []⟩
    | some current =>
      if jsTrim current = jsTrim (ensureNewline yamlText) then
        if t.saved then t else ⟨true, some (ensureNewline yamlText), t.past⟩
      else if current = "" ∧ t.saved = false then ⟨true, some (ensureNewline yamlText), []⟩
      else ⟨true, some (ensureNewline yamlText), ensureNewline current :: t.past⟩

/-- A restore brings back the last of the texts, if it is a pattern. -/
def Texts.restore (t : Texts) : Texts :=
  match t.past with
  | [] => t
  | text :: past => if isPattern env text then ⟨true, some text, past⟩ else t

/-- A call. -/
def Texts.call (t : Texts) : LessonCall → Texts
  | .save yamlText _ _ => t.save env yamlText
  | .restore => t.restore env

/-- The texts after some calls. -/
def Texts.run (t : Texts) (calls : List LessonCall) : Texts := calls.foldl (Texts.call env) t

/-- The texts before the first call. -/
def Texts.start (overlay : Option String) : Texts := ⟨overlay.isSome, overlay.or env.bundled, []⟩

/-- So many restores, none of which throws. -/
def restores : ℕ → LessonFiles → Option LessonFiles
  | 0, s => some s
  | k + 1, s =>
    match s.restoreLessonOverlay env with
    | (s', .ok ()) => restores k s'
    | (_, .error _) => none

end

/-! ### White space -/

/-- A final newline is white space at the end of a text. -/
theorem jsTrim_ensureNewline (text : String) : jsTrim (ensureNewline text) = jsTrim text := by
  unfold ensureNewline
  split
  · rfl
  · have hspace : isJsSpace '\n' = true := by decide
    have hlast : ∀ l : List Char, ((l ++ ['\n']).dropWhile isJsSpace).reverse.dropWhile isJsSpace =
        (l.dropWhile isJsSpace).reverse.dropWhile isJsSpace := by
      intro l
      rw [List.dropWhile_append]
      split
      · rename_i h
        rw [List.isEmpty_iff.mp h, List.dropWhile_cons_of_pos hspace, List.dropWhile_nil]
      · rw [List.reverse_append, List.reverse_singleton, List.singleton_append, List.dropWhile_cons_of_pos hspace]
    have hchars : (text ++ "\n").toList = text.toList ++ ['\n'] := String.toList_append
    rw [jsTrim, hchars, hlast, jsTrim]

theorem ensureNewline_ensureNewline (text : String) : ensureNewline (ensureNewline text) = ensureNewline text :=
  ensureNewline_of (endsWithNewline_ensureNewline text)

/-! ### Files that hold versions -/

/-- The files of the names hold the texts. -/
structure Holds (history : OrdMap String String) (order texts : List String) : Prop where
  nodup : order.Nodup
  files : order.map history.get? = texts.map some
  newline : ∀ text ∈ texts, endsWithNewline text = true

section

variable {history history' : OrdMap String String} {order texts : List String}

theorem Holds.length (h : Holds history order texts) : order.length = texts.length := by
  simpa using congrArg List.length h.files

theorem Holds.getElem? (h : Holds history order texts) {n : ℕ} {text : String} (ht : texts[n]? = some text) :
    ∃ file, order[n]? = some file ∧ history.get? file = some text := by
  have hn := congrArg (·[n]?) h.files
  simp only [List.getElem?_map, ht, Option.map_some] at hn
  exact Option.map_eq_some_iff.mp hn

theorem Holds.congr (h : Holds history order texts) (hget : ∀ file ∈ order, history'.get? file = history.get? file) :
    Holds history' order texts := ⟨h.nodup, (List.map_congr_left hget).trans h.files, h.newline⟩

theorem get?_foldl_delete {file : String} : ∀ (names : List String) (history : OrdMap String String), file ∉ names →
    (names.foldl OrdMap.delete history).get? file = history.get? file
  | [], _, _ => rfl
  | name :: names, history, h => by
    rw [List.mem_cons, not_or] at h
    rw [List.foldl_cons, get?_foldl_delete names _ h.2, OrdMap.get?_delete, if_neg h.1]

/-- The versions that stay, when the files of the others are unlinked. -/
theorem Holds.drop (h : Holds history order texts) (n : ℕ) :
    Holds ((order.drop n).foldl OrdMap.delete history) (order.take n) (texts.take n) := by
  have htake : Holds history (order.take n) (texts.take n) := by
    refine ⟨h.nodup.sublist (List.take_sublist n order), ?_, fun text ht => h.newline text (List.mem_of_mem_take ht)⟩
    rw [List.map_take, List.map_take, h.files]
  refine htake.congr fun file hfile => get?_foldl_delete _ _ fun hdrop => ?_
  exact List.disjoint_take_drop h.nodup (Nat.le_refl n) hfile hdrop

/-- A version in a new file. -/
theorem Holds.append (h : Holds history order texts) {file text : String} (hnew : history.get? file = none)
    (hnewline : endsWithNewline text = true) : Holds (history.set file text) (order ++ [file]) (texts ++ [text]) := by
  have hne : file ∉ order := by
    intro hfile
    have hmem : history.get? file ∈ order.map history.get? := List.mem_map_of_mem hfile
    rw [h.files, hnew] at hmem
    obtain ⟨_, -, ht⟩ := List.mem_map.mp hmem
    cases ht
  have hold : Holds (history.set file text) order texts := h.congr fun f hf =>
    OrdMap.get?_set_ne history text fun he => hne (he ▸ hf)
  refine ⟨?_, ?_, fun t ht => ?_⟩
  · rw [List.nodup_append]
    refine ⟨h.nodup, List.nodup_singleton file, fun a ha b hb => ?_⟩
    rw [List.mem_singleton.mp hb]
    rintro rfl
    exact hne ha
  · rw [List.map_append, List.map_append, hold.files, List.map_singleton, OrdMap.get?_set_self, List.map_singleton]
  · rcases List.mem_append.mp ht with ht | ht
    · exact h.newline t ht
    · rw [List.mem_singleton.mp ht]
      exact hnewline

theorem lessonFileName_inj (stamp : String) {m n : ℕ} (h : lessonFileName stamp m = lessonFileName stamp n) : m = n := by
  have h := congrArg String.toList h
  simp only [lessonFileName, String.toList_append] at h
  exact sfx_inj (String.toList_inj.mp (List.append_cancel_left h))

/-- Whatever the date is, a version gets a file of its own. -/
theorem writeLessonFile_spec (history : OrdMap String String) (stamp text : String) :
    ∃ file, writeLessonFile history stamp text = (history.set file (ensureNewline text), file) ∧ history.get? file = none := by
  have hfree := OrdMap.has_firstFree history (lessonFileName stamp) (n := 1) fun _ _ _ _ => lessonFileName_inj stamp
  refine ⟨_, rfl, ?_⟩
  rwa [OrdMap.has, Option.isSome_eq_false_iff, Option.isNone_iff_eq_none] at hfree

end

/-! ### The simulation -/

/-- The history is an undo stack, of which the overlay is the current version. -/
structure HistoryOf (s : LessonFiles) (index : HistoryIndex) (stack : UndoStack String) : Prop where
  holds : Holds s.history index.order stack.versions
  position : index.position = stack.position
  current : s.overlay.map ensureNewline = some stack.current

/-- The files are what the texts say. -/
structure Sim (env : LessonEnv) (s : LessonFiles) (t : Texts) : Prop where
  saved : t.saved = s.overlay.isSome
  text : t.text = s.overlay.or env.bundled
  bare : s.index = none → t.past = []
  history : ∀ index, s.index = some index →
    isLessonId env.id = true ∧ ∃ stack, HistoryOf s index stack ∧ stack.past = t.past

variable {env : LessonEnv} {s : LessonFiles} {t : Texts}

theorem sim_start (env : LessonEnv) (overlay : Option String) : Sim env (.start overlay) (.start env overlay) :=
  ⟨rfl, rfl, fun _ => rfl, fun _ h => by cases h⟩

theorem HistoryOf.readHistory {index : HistoryIndex} {stack : UndoStack String} (h : HistoryOf s index stack)
    (hindex : s.index = some index) : s.readHistory = some index := by
  rw [LessonFiles.readHistory, hindex, Option.filter_some, if_pos]
  rw [decide_eq_true_eq, h.position, h.holds.length]
  exact stack.length_versions

/-- The end of a backup, when the stack before it is known. -/
theorem save_versions {history : OrdMap String String} (index : HistoryIndex) {stack : UndoStack String}
    (hholds : Holds history index.order stack.versions) (hposition : index.position = stack.position) (text stamp : String) :
    ∃ file, writeLessonFile ((index.order.drop (index.position + 1)).foldl OrdMap.delete history) stamp text =
        (((index.order.drop (index.position + 1)).foldl OrdMap.delete history).set file (ensureNewline text), file) ∧
      Holds (((index.order.drop (index.position + 1)).foldl OrdMap.delete history).set file (ensureNewline text))
        (index.order.take (index.position + 1) ++ [file]) (stack.save (ensureNewline text)).versions ∧
      (index.order.take (index.position + 1) ++ [file]).length - 1 = (stack.save (ensureNewline text)).position := by
  obtain ⟨file, hwrite, hnew⟩ :=
    writeLessonFile_spec ((index.order.drop (index.position + 1)).foldl OrdMap.delete history) stamp text
  refine ⟨file, hwrite, ?_, ?_⟩
  · rw [UndoStack.versions_save, ← hposition]
    exact (hholds.drop _).append hnew (endsWithNewline_ensureNewline text)
  · have hlength := stack.length_versions
    rw [← hholds.length] at hlength
    rw [List.length_append, List.length_singleton, List.length_take, UndoStack.position_save]
    omega

/-- **A backup is the stack's save.** -/
theorem backup_spec (h : Sim env s t) {overlay : Option String} {current : String} (hoverlay : overlay = some current)
    (hsame : s.index ≠ none → s.overlay = overlay) (text firstStamp stamp : String) :
    ∃ (history : OrdMap String String) (index : HistoryIndex) (stack : UndoStack String), s.backupLessonFile current text firstStamp stamp = { s with history, index := some index } ∧
      Holds history index.order (stack.save (ensureNewline text)).versions ∧
      index.position = (stack.save (ensureNewline text)).position ∧ stack.current = ensureNewline current ∧
      stack.past = t.past := by
  unfold LessonFiles.backupLessonFile
  cases hindex : s.index with
  | none =>
    have hnone : s.readHistory = none := by rw [LessonFiles.readHistory, hindex]; rfl
    obtain ⟨first, hwrite, hnew⟩ := writeLessonFile_spec s.history firstStamp current
    have hempty : Holds s.history [] [] := ⟨List.nodup_nil, rfl, fun _ ht => absurd ht List.not_mem_nil⟩
    have hholds : Holds (s.history.set first (ensureNewline current)) [first]
        (UndoStack.versions ⟨[], ensureNewline current, []⟩) := hempty.append hnew (endsWithNewline_ensureNewline current)
    obtain ⟨file, hfile, hsaved, hlength⟩ := save_versions ⟨[first], 0⟩ hholds rfl text stamp
    refine ⟨_, ⟨[first].take 1 ++ [file], ([first].take 1 ++ [file]).length - 1⟩, ⟨[], ensureNewline current, []⟩, ?_, hsaved,
      hlength, rfl, (h.bare hindex).symm⟩
    rw [hnone, Option.getD_none]
    dsimp only
    rw [if_pos rfl, hwrite]
    dsimp only
    rw [hfile]
  | some index =>
    obtain ⟨-, stack, hstack, hpast⟩ := h.history index hindex
    have hne : index.order ≠ [] := by
      intro horder
      have hlength := stack.length_versions
      rw [← hstack.holds.length, horder] at hlength
      exact absurd hlength (Nat.not_lt_zero _)
    obtain ⟨file, hfile, hsaved, hlength⟩ := save_versions index hstack.holds hstack.position text stamp
    refine ⟨_, ⟨index.order.take (index.position + 1) ++ [file],
      (index.order.take (index.position + 1) ++ [file]).length - 1⟩, stack, ?_, hsaved, hlength, ?_, hpast⟩
    · rw [hstack.readHistory hindex, Option.getD_some]
      dsimp only
      rw [if_neg hne]
      dsimp only
      rw [hfile]
    · have hcurrent := hstack.current
      rw [hsame (by rw [hindex]; exact Option.some_ne_none index), hoverlay, Option.map_some] at hcurrent
      exact (Option.some.inj hcurrent).symm

/-- A save: it throws and changes nothing, or does to the files what it does to the texts. -/
theorem Sim.save (h : Sim env s t) (yamlText firstStamp stamp : String) :
    Sim env (s.call env (.save yamlText firstStamp stamp)).1 (t.save env yamlText) ∧
      ((s.call env (.save yamlText firstStamp stamp)).2 = false → (s.call env (.save yamlText firstStamp stamp)).1 = s) := by
  dsimp only [LessonFiles.call]
  unfold LessonFiles.saveLessonOverlay Texts.save
  by_cases hid : isLessonId env.id = false
  · rw [if_pos hid, if_pos (Or.inl hid)]
    exact ⟨h, fun _ => rfl⟩
  rw [if_neg hid]
  by_cases hpattern : isPattern env yamlText = false
  · rw [if_pos hpattern, if_pos (Or.inr hpattern)]
    exact ⟨h, fun _ => rfl⟩
  rw [if_neg hpattern, if_neg (not_or.mpr ⟨hid, hpattern⟩)]
  dsimp only
  have hthrow : ∀ {r : LessonFiles × Except String Bool} {b : Bool}, r.2 = .ok b → (r.2.toBool = false → r.1 = s) := by
    intro r b hr hfalse
    rw [hr] at hfalse
    cases hfalse
  have hread : (s.readLessonPatternYaml env).toOption = s.overlay.or env.bundled := by
    rw [LessonFiles.readLessonPatternYaml, if_neg hid]
    cases s.overlay with
    | some _ => rfl
    | none => cases env.bundled <;> rfl
  have hbacked : ∀ {overlay : Option String} (current : String), overlay = some current →
      (s.index ≠ none → s.overlay = overlay) → Sim env
        { s.backupLessonFile current (ensureNewline yamlText) firstStamp stamp with overlay := some (ensureNewline yamlText) }
        ⟨true, some (ensureNewline yamlText), ensureNewline current :: t.past⟩ := by
    intro overlay current hoverlay hsame
    obtain ⟨history, index, stack, hbackup, hholds, hposition, hcurrent, hpast⟩ :=
      backup_spec h hoverlay hsame (ensureNewline yamlText) firstStamp stamp
    rw [hbackup]
    refine ⟨rfl, rfl, fun hnone => (by cases hnone), fun index' hindex => ?_⟩
    obtain rfl := Option.some.inj hindex
    refine ⟨by simpa using hid, _, ⟨hholds, hposition, rfl⟩, ?_⟩
    rw [UndoStack.save, hcurrent, hpast]
  rw [hread, h.text]
  cases hoverlay : s.overlay with
  | some current =>
    have hsaved : t.saved = true := by rw [h.saved, hoverlay]; rfl
    dsimp only [Option.some_or]
    by_cases hsame : jsTrim current = jsTrim (ensureNewline yamlText)
    · rw [if_pos hsame, if_pos hsame, if_pos hsaved]
      refine ⟨?_, hthrow rfl⟩
      have hs : ({ s with overlay := some current } : LessonFiles) = s := by rw [← hoverlay]
      rw [hs]
      exact h
    · have hkept : ¬(current = "" ∧ t.saved = false) := fun hempty => by rw [hsaved] at hempty; cases hempty.2
      rw [if_neg hsame, if_neg hsame, if_neg hkept]
      exact ⟨hbacked current hoverlay fun _ => rfl, hthrow rfl⟩
  | none =>
    have hsaved : t.saved = false := by rw [h.saved, hoverlay]; rfl
    have hbare : s.index = none := by
      by_contra hne
      obtain ⟨index, hindex⟩ := Option.ne_none_iff_exists'.mp hne
      obtain ⟨-, stack, hstack, -⟩ := h.history index hindex
      have hcurrent := hstack.current
      rw [hoverlay] at hcurrent
      cases hcurrent
    have hpast := h.bare hbare
    -- without a backup the text is written, and there is no history
    have hwritten : Sim env { s with overlay := some (ensureNewline yamlText) } ⟨true, some (ensureNewline yamlText), []⟩ :=
      ⟨rfl, rfl, fun _ => rfl, fun index hindex => by rw [hbare] at hindex; cases hindex⟩
    cases hbundled : env.bundled with
    | none => exact ⟨hwritten, hthrow rfl⟩
    | some current =>
      dsimp only [Option.none_or]
      by_cases hsame : jsTrim current = jsTrim (ensureNewline yamlText)
      · rw [Option.filter_some, if_neg (by simp [hsame]), if_pos hsame, if_neg (by rw [hsaved]; exact Bool.false_ne_true), hpast]
        exact ⟨hwritten, hthrow rfl⟩
      · rw [if_neg hsame]
        by_cases hempty : current = ""
        · rw [Option.filter_some, if_neg (by simp [hempty]), if_pos ⟨hempty, hsaved⟩]
          exact ⟨hwritten, hthrow rfl⟩
        · have hdiffers : ¬jsTrim (ensureNewline current) = jsTrim (ensureNewline yamlText) := by
            rw [jsTrim_ensureNewline current]
            exact hsame
          rw [Option.filter_some, if_pos (by simp [hempty, hsame]), if_neg fun he => hempty he.1]
          dsimp only [Option.map_some]
          rw [if_neg hdiffers]
          have hs := hbacked (ensureNewline current) rfl fun hne => absurd hbare hne
          rw [ensureNewline_ensureNewline] at hs
          exact ⟨hs, hthrow rfl⟩

/-- A restore with nothing to bring back throws. -/
theorem Sim.restore_nil (h : Sim env s t) (hpast : t.past = []) :
    ∃ e, s.restoreLessonOverlay env = (s, .error e) := by
  unfold LessonFiles.restoreLessonOverlay
  by_cases hid : isLessonId env.id = false
  · exact ⟨_, if_pos hid⟩
  rw [if_neg hid]
  cases hindex : s.index with
  | none =>
    rw [LessonFiles.readHistory, hindex]
    exact ⟨_, rfl⟩
  | some index =>
    obtain ⟨-, stack, hstack, hsame⟩ := h.history index hindex
    have hposition : index.position = 0 := by rw [hstack.position, UndoStack.position, hsame, hpast, List.length_nil]
    rw [hstack.readHistory hindex]
    dsimp only
    rw [if_pos hposition]
    exact ⟨_, rfl⟩

/-- **A restore is the stack's restore**, or throws and changes nothing if the text is no pattern. -/
theorem Sim.restore_cons (h : Sim env s t) {text : String} {past : List String} (hpast : t.past = text :: past) :
    (isPattern env text = true → ∃ s', s.restoreLessonOverlay env = (s', .ok ()) ∧ s'.overlay = some text ∧
      Sim env s' ⟨true, some text, past⟩) ∧
    (isPattern env text = false → ∃ e, s.restoreLessonOverlay env = (s, .error e)) := by
  cases hindex : s.index with
  | none =>
    rw [h.bare hindex] at hpast
    cases hpast
  | some index =>
    obtain ⟨hid, stack, hstack, hsame⟩ := h.history index hindex
    obtain ⟨stackPast, current, redo⟩ := stack
    obtain rfl : stackPast = text :: past := hsame.trans hpast
    have hposition : index.position = past.length + 1 := hstack.position
    have hversion : (UndoStack.versions ⟨text :: past, current, redo⟩)[index.position - 1]? = some text := by
      simp [UndoStack.versions, hposition]
    obtain ⟨file, hfile, hget⟩ := hstack.holds.getElem? hversion
    have hnewline : ensureNewline text = text := ensureNewline_of (hstack.holds.newline text (List.mem_of_getElem? hversion))
    have hrun : s.restoreLessonOverlay env = if isPattern env text = false then
        (s, .error s!"{env.id} lessons.yaml is not a valid pattern") else
        ({ s with overlay := some text, index := some ⟨index.order, index.position - 1⟩ }, .ok ()) := by
      have hne : index.position ≠ 0 := by omega
      unfold LessonFiles.restoreLessonOverlay
      rw [if_neg (by rw [hid]; exact Bool.noConfusion), hstack.readHistory hindex]
      dsimp only
      rw [if_neg hne, hfile, Option.getD_some, hget]
      dsimp only
      rw [hnewline]
    constructor
    · intro hpattern
      refine ⟨_, hrun.trans (if_neg (by rw [hpattern]; exact Bool.noConfusion)), rfl, rfl, rfl, fun hnone => (by cases hnone),
        fun index' hindex' => ?_⟩
      obtain rfl := Option.some.inj hindex'
      refine ⟨hid, ⟨past, text, current :: redo⟩, ⟨?_, ?_, congrArg some hnewline⟩, rfl⟩
      · have hversions : UndoStack.versions ⟨past, text, current :: redo⟩ =
            UndoStack.versions ⟨text :: past, current, redo⟩ := by simp [UndoStack.versions]
        rw [hversions]
        exact hstack.holds
      · rw [hposition]
        rfl
    · exact fun hpattern => ⟨_, hrun.trans (if_pos hpattern)⟩

/-- A call: it throws and changes nothing, or does to the files what it does to the texts. -/
theorem Sim.call (h : Sim env s t) (c : LessonCall) :
    Sim env (s.call env c).1 (t.call env c) ∧ ((s.call env c).2 = false → (s.call env c).1 = s) := by
  cases c with
  | save yamlText firstStamp stamp => exact h.save yamlText firstStamp stamp
  | restore =>
    have herror : ∀ {e : String}, s.restoreLessonOverlay env = (s, .error e) → (s.call env .restore).1 = s := fun he =>
      congrArg Prod.fst he
    unfold Texts.call Texts.restore
    cases hpast : t.past with
    | nil =>
      obtain ⟨e, he⟩ := h.restore_nil hpast
      rw [herror he]
      exact ⟨h, fun _ => rfl⟩
    | cons text past =>
      dsimp only
      cases hpattern : isPattern env text with
      | false =>
        obtain ⟨e, he⟩ := (h.restore_cons hpast).2 hpattern
        rw [herror he]
        exact ⟨h, fun _ => rfl⟩
      | true =>
        obtain ⟨s', hs', -, hsim⟩ := (h.restore_cons hpast).1 hpattern
        have hcall : s.call env .restore = (s', true) := by
          rw [LessonFiles.call, hs']
          rfl
        rw [hcall]
        exact ⟨hsim, fun hthrow => by cases hthrow⟩

/-- So many restores bring back the text of so many steps before. -/
theorem Sim.restores : ∀ (k : ℕ) {s : LessonFiles} {t : Texts}, Sim env s t → k < t.past.length →
    (∀ text ∈ t.past.take (k + 1), isPattern env text = true) → ∃ s', restores env (k + 1) s = some s' ∧
      s'.overlay = t.past[k]? ∧ Sim env s' ⟨true, t.past[k]?, t.past.drop (k + 1)⟩
  | k, s, t, h, hk, hpatterns => by
    cases hpast : t.past with
    | nil =>
      rw [hpast] at hk
      exact absurd hk (Nat.not_lt_zero k)
    | cons text past =>
      rw [hpast, List.take_succ_cons] at hpatterns
      obtain ⟨hpattern, hrest⟩ := List.forall_mem_cons.mp hpatterns
      obtain ⟨s₁, hs₁, hoverlay, h₁⟩ := (h.restore_cons hpast).1 hpattern
      rw [Lessons.restores, hs₁]
      match k with
      | 0 => exact ⟨s₁, rfl, hoverlay, h₁⟩
      | k + 1 =>
        rw [hpast, List.length_cons] at hk
        exact Sim.restores k h₁ (Nat.lt_of_succ_lt_succ hk) hrest

/-! ### Runs -/

/-- The history is an undo stack of the texts. -/
structure Undoes (env : LessonEnv) (s : LessonFiles) (t : Texts) : Prop where
  inEffect : s.overlay.or env.bundled = t.text
  /-- The version at the position of the index is the overlay. -/
  version : ∀ index, s.index = some index → ∃ file overlay, index.order[index.position]? = some file ∧
    s.overlay = some overlay ∧ s.history.get? file = some (ensureNewline overlay)
  /-- So many restores bring back the text of so many steps before, if they are patterns. -/
  restores : ∀ k, k < t.past.length → (∀ text ∈ t.past.take (k + 1), isPattern env text = true) →
    ∃ s', restores env (k + 1) s = some s' ∧ s'.overlay = t.past[k]?
  /-- Behind the oldest one, and at a text that is no pattern, a restore throws. -/
  refused : (∀ text ∈ t.past.head?, isPattern env text = false) → ∃ e, s.restoreLessonOverlay env = (s, .error e)
  /-- A call that throws changes neither the overlay nor the history. -/
  throws : ∀ c, (s.call env c).2 = false → (s.call env c).1 = s

theorem Sim.undoes (h : Sim env s t) : Undoes env s t := by
  refine ⟨h.text.symm, fun index hindex => ?_, fun k hk hpatterns => ?_, fun hrefused => ?_, fun c => (h.call c).2⟩
  · obtain ⟨-, stack, hstack, -⟩ := h.history index hindex
    obtain ⟨file, hfile, hget⟩ := hstack.holds.getElem? stack.getElem?_position
    obtain ⟨overlay, hoverlay, hcurrent⟩ := Option.map_eq_some_iff.mp hstack.current
    exact ⟨file, overlay, hstack.position ▸ hfile, hoverlay, hcurrent ▸ hget⟩
  · obtain ⟨s', hs', hoverlay, -⟩ := h.restores k hk hpatterns
    exact ⟨s', hs', hoverlay⟩
  · cases hpast : t.past with
    | nil => exact h.restore_nil hpast
    | cons text past => exact (h.restore_cons hpast).2 (hrefused text (by rw [hpast]; rfl))

/-- **After every run of saves and restores the history is an undo stack of the texts in effect.** -/
theorem lessons_undo (env : LessonEnv) (overlay : Option String) (calls : List LessonCall) :
    Undoes env ((LessonFiles.start overlay).run env calls) ((Texts.start env overlay).run env calls) := by
  have hrun : ∀ (calls : List LessonCall) {s : LessonFiles} {t : Texts}, Sim env s t →
      Sim env (s.run env calls) (t.run env calls) := by
    intro calls
    induction calls with
    | nil => exact id
    | cons c calls ih => exact fun h => ih (h.call c).1
  exact (hrun calls (sim_start env overlay)).undoes

/-- A domain whose project has the overlay `a: 1`. -/
def plainEnv : LessonEnv where
  id := "ai"
  yaml := fun text =>
    if jsTrim text = "domain: ai\ncategories: [c]" then
      some (.obj [("domain", .str "ai"), ("categories", .arr [.str "c"])])
    else if jsTrim text = "a: 1" then some (.obj [("a", .num 1)])
    else none
  isRegExp := fun _ => true
  bundled := none

/-- A restore does not bring back an overlay that is no pattern. -/
theorem overlay_refused : ¬∀ (env : LessonEnv) (overlay : Option String) (current yamlText firstStamp stamp : String),
    overlay.or env.bundled = some current →
    ((LessonFiles.start overlay).saveLessonOverlay env yamlText (some current) firstStamp stamp).2 = .ok true →
    ∃ s', restores env 1 ((LessonFiles.start overlay).saveLessonOverlay env yamlText (some current) firstStamp stamp).1 = some s' ∧
      s'.overlay.map ensureNewline = some (ensureNewline current) := by
  intro h
  obtain ⟨s', hs', -⟩ := h plainEnv (some "a: 1\n") "a: 1\n" "domain: ai\ncategories: [c]\n" "20260101T000000Z"
    "20260101T000000Z" rfl (by decide)
  have hnone : (restores plainEnv 1 ((LessonFiles.start (some "a: 1\n")).saveLessonOverlay plainEnv
      "domain: ai\ncategories: [c]\n" (some "a: 1\n") "20260101T000000Z" "20260101T000000Z").1).isSome = false := by
    decide
  rw [hs'] at hnone
  cases hnone

end Trek.Domains.Lessons
