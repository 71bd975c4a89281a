/-
# The session file holds the session

Nothing is written before the first assistant message; that message writes the
session in one go, and from then on, and in a file that was opened, every entry
is appended. Over any run of operations the file then reads back as the session
(`SessionReach.faithful`), as long as no entry is appended to a line that was
left unfinished: opening a file accepts such a line, and what is appended to it
is lost with it.
-/
import Trek.Session.Open

namespace Trek

open World

/-! ### Operations -/

/-- The operations of a session manager that writes files. -/
inductive SessionOp
  | tree (op : TreeOp)
  | newSession (id parentSession : Option String)
  | setSessionFile (sessionFile : String)
  | createBranchedSession (leafId : String)
  /-- The timer of `_writeJsonlChunk`, or `dispose`. -/
  | closeFile

/-- A manager with the disk, and whether its session was begun without a file. -/
structure SessionRun where
  world : World
  isNew : Bool

/-- What an operation does, also when it throws. `none` if it never returns. -/
def SessionOp.step (r : SessionRun) (d : Draws) : SessionOp → Option SessionRun
  | .tree op => some { r with world := (op.step r.world d).1 }
  | .newSession id parentSession =>
    match r.world.newSession d id parentSession with
    | (w, none) => some ⟨w, true⟩
    | (w, some _) => some ⟨w, r.isNew⟩
  | .setSessionFile path => some ⟨r.world.setSessionFile d path, (r.world.disk path).isNone⟩
  | .createBranchedSession leafId =>
    match r.world.createBranchedSession d leafId with
    | none => none
    | some (w, none) => some ⟨w, true⟩
    | some (w, some _) => some ⟨w, r.isNew⟩
  | .closeFile => some { r with world := r.world.closeFile }

/-- The states of a manager that writes files, made for a new session or for a file,
by steps that satisfy `P`. -/
inductive SessionReach (P : World → Draws → SessionOp → Prop) : SessionRun → Prop
  | create (disk : Disk) (cwd sessionDir : String) (d : Draws) (id parentSession : Option String) :
    id.all validSessionId = true → P ⟨.blank cwd sessionDir true, disk⟩ d (.newSession id parentSession) →
    SessionReach P ⟨(newSession ⟨.blank cwd sessionDir true, disk⟩ d id parentSession).1, true⟩
  | openFile (disk : Disk) (cwd sessionDir : String) (d : Draws) (path : String) :
    P ⟨.blank cwd sessionDir true, disk⟩ d (.setSessionFile path) →
    SessionReach P ⟨setSessionFile ⟨.blank cwd sessionDir true, disk⟩ d path, (disk path).isNone⟩
  | step {r r' : SessionRun} (d : Draws) (op : SessionOp) : SessionReach P r → P r.world d op →
    op.step r d = some r' → SessionReach P r'

/-- Loading the file with `setSessionFile`, by any manager, gives the session. -/
structure Reloads (getTime : String → ℤ) (w : World) (path : String) : Prop where
  entries : ∀ m d, (setSessionFile ⟨m, w.disk⟩ d path).manager.entries = w.manager.entries
  labelsById : ∀ m d, (setSessionFile ⟨m, w.disk⟩ d path).manager.labelsById = w.manager.labelsById
  context : ∀ m d leafId,
    let loaded := (setSessionFile ⟨m, w.disk⟩ d path).manager
    buildSessionContext getTime loaded.entries leafId loaded.byId =
      buildSessionContext getTime w.manager.entries leafId w.manager.byId

/-- What persistence promises. -/
structure Faithful (getTime : String → ℤ) (r : SessionRun) : Prop where
  /-- With an assistant message the file holds one header and the entries in memory. -/
  held : r.world.manager.entries.any (·.isAssistant) = true → ∃ path, r.world.manager.sessionFile = some path ∧
    (∃ header, loadEntriesFromFile r.world.disk path = .session header :: r.world.manager.entries.map .entry) ∧
    Reloads getTime r.world path
  /-- Before it, a session that was begun without a file has none. -/
  absent : r.isNew = true → r.world.manager.entries.any (·.isAssistant) = false →
    ∃ path, r.world.manager.sessionFile = some path ∧ r.world.disk path = none

/-! ### The condition -/

/-- The operation adds entries. -/
def TreeOp.appends (w : World) : TreeOp → Bool
  | .appendCustomEntries records => !records.isEmpty
  | .appendLabelChange targetId _ => w.manager.byId.has targetId
  | .branchWithSummary branchFromId _ _ _ => branchFromId.all w.manager.byId.has
  | .branch _ | .resetLeaf => false
  | _ => true

/-- The file the manager appends to ends its last line. -/
def LastLineEnds (w : World) : Prop :=
  w.manager.flushed = true → ∀ path, w.manager.sessionFile = some path → ∀ text, w.disk path = some text →
    endsLine text = true

/-- What an operation needs: entries are not appended to an unfinished line, a session
that is begun gets a file name that is not in use, and a file that is opened has one
header. -/
def SessionOp.Ready (w : World) (d : Draws) : SessionOp → Prop
  | .tree op => op.appends w = true → LastLineEnds w
  | .newSession id _ =>
    id.all validSessionId = true →
      w.disk (sessionFilePath w.manager.sessionDir d.now (id.getD d.sessionId)) = none
  | .setSessionFile path => ((loadEntriesFromFile w.disk path).filterMap FileEntry.header?).length ≤ 1
  | .createBranchedSession leafId =>
    ∀ path, w.manager.getBranch (some leafId) = some path → path.any (·.isAssistant) = false →
      w.disk (sessionFilePath w.manager.sessionDir d.now d.sessionId) = none
  | .closeFile => True

/-! ### The index and the labels -/

/-- What an entry does to the labels. -/
def noteLabel (labelsById : OrdMap String String) (e : SessionEntry) : OrdMap String String :=
  match e.body with
  | .label targetId label =>
    match label.filter truthy with
    | some l => labelsById.set targetId l
    | none => labelsById.delete targetId
  | _ => labelsById

/-- The labels that some entries set. -/
def labelsOf (es : List SessionEntry) : OrdMap String String := es.foldl noteLabel .empty

theorem noteLabel_of_not_label {e : SessionEntry} (h : e.isLabel = false) (labels : OrdMap String String) :
    noteLabel labels e = labels := by
  unfold SessionEntry.isLabel at h
  unfold noteLabel
  split
  · rename_i hb
    rw [hb] at h
    cases h
  · rfl

theorem recordLabel_eq (m : SessionManager) {e : SessionEntry} {targetId : String} {label : Option String}
    (h : e.body = .label targetId label) (timestamp : String) : ∃ times, m.recordLabel targetId label timestamp =
      { m with labelsById := noteLabel m.labelsById e, labelTimestampsById := times } := by
  unfold SessionManager.recordLabel noteLabel
  cases hl : label.filter truthy with
  | some l =>
    simp only [h, hl]
    exact ⟨_, rfl⟩
  | none =>
    simp only [h, hl]
    exact ⟨_, rfl⟩

theorem labelsOf_append_of_not_label (es : List SessionEntry) :
    ∀ {xs : List SessionEntry}, (∀ e ∈ xs, e.isLabel = false) → labelsOf (es ++ xs) = labelsOf es := by
  intro xs
  induction xs using List.reverseRecOn with
  | nil => intro _; rw [List.append_nil]
  | append_singleton xs x ih =>
    intro h
    rw [← List.append_assoc, labelsOf, List.foldl_append, List.foldl_cons, List.foldl_nil,
      noteLabel_of_not_label (h x (by simp))]
    exact ih fun e he => h e (List.mem_append_left _ he)

/-- Appending in memory. -/
theorem foldl_pushEntry_eq : ∀ (es : List SessionEntry) (m : SessionManager), es.foldl World.pushEntry m =
    { m with
      fileEntries := m.fileEntries ++ es.map .entry
      byId := es.foldl (fun b e => b.set e.id e) m.byId
      leafId := (es.getLast?.map (·.id)).or m.leafId
      hasAssistant := m.hasAssistant || es.any (·.isAssistant) }
  | [], m => by simp
  | e :: es, m => by
    rw [List.foldl_cons, foldl_pushEntry_eq es]
    cases es <;> simp [World.pushEntry, SessionManager.noteEntry, List.getLast?_cons, Bool.or_assoc]

/-- What `_buildIndex` makes of the entries, also of the labels. -/
theorem buildIndex_facts (m : SessionManager) : m.buildIndex.hasAssistant = m.entries.any (·.isAssistant) ∧
    m.buildIndex.labelsById = labelsOf m.entries ∧ m.buildIndex.fileEntries = m.fileEntries ∧
    m.buildIndex.sessionFile = m.sessionFile ∧ m.buildIndex.appendFd = m.appendFd ∧
    m.buildIndex.persist = m.persist := by
  have key : ∀ (es : List SessionEntry) (m : SessionManager),
      (es.foldl SessionManager.indexEntry m).hasAssistant = (m.hasAssistant || es.any (·.isAssistant)) ∧
      (es.foldl SessionManager.indexEntry m).labelsById = es.foldl noteLabel m.labelsById ∧
      (es.foldl SessionManager.indexEntry m).fileEntries = m.fileEntries ∧
      (es.foldl SessionManager.indexEntry m).sessionFile = m.sessionFile ∧
      (es.foldl SessionManager.indexEntry m).appendFd = m.appendFd ∧
      (es.foldl SessionManager.indexEntry m).persist = m.persist := by
    intro es
    induction es with
    | nil => intro m; simp
    | cons e es ih =>
      intro m
      have hstep : (m.indexEntry e).hasAssistant = (m.hasAssistant || e.isAssistant) ∧
          (m.indexEntry e).labelsById = noteLabel m.labelsById e ∧ (m.indexEntry e).fileEntries = m.fileEntries ∧
          (m.indexEntry e).sessionFile = m.sessionFile ∧ (m.indexEntry e).appendFd = m.appendFd ∧
          (m.indexEntry e).persist = m.persist := by
        unfold SessionManager.indexEntry SessionManager.recordLabel SessionManager.noteEntry noteLabel
        repeat' split
        all_goals simp_all
      obtain ⟨h1, h2, h3, h4, h5, h6⟩ := ih (m.indexEntry e)
      simp only [List.foldl_cons, h1, h2, h3, h4, h5, h6, hstep, List.any_cons, Bool.or_assoc, and_self]
  have := key m.entries
    { m with byId := .empty, labelsById := .empty, labelTimestampsById := .empty, leafId := none, hasAssistant := false }
  simpa [SessionManager.buildIndex, labelsOf] using this

/-! ### The invariant -/

/-- The index and `hasAssistant` fit the entries, which follow a header of the current
version. -/
structure Indexed (m : SessionManager) : Prop where
  persist : m.persist = true
  header : ∃ h v, h.version = some v ∧ CURRENT_SESSION_VERSION ≤ v ∧
    m.fileEntries = .session h :: m.entries.map .entry
  byId : m.byId = indexById m.entries
  assistant : m.hasAssistant = m.entries.any (·.isAssistant)

/-- The session is in the file, or has no file and no assistant message yet. -/
structure Stored (w : World) (isNew : Bool) : Prop where
  indexed : Indexed w.manager
  file : ∃ path, w.manager.sessionFile = some path ∧ (∀ fd, w.manager.appendFd = some fd → fd = path) ∧
    (w.manager.flushed = true → loadEntriesFromFile w.disk path = w.manager.fileEntries) ∧
    (w.manager.flushed = false → w.manager.hasAssistant = false ∧ w.disk path = none)
  new : isNew = true → w.manager.flushed = true → w.manager.hasAssistant = true

theorem loadEntriesFromFile_eq_cons {disk : Disk} {path : String} {h : SessionHeader} {es : List FileEntry} :
    loadEntriesFromFile disk path = .session h :: es ↔
      ∃ text, disk path = some text ∧ parseLines text = .session h :: es := by
  unfold loadEntriesFromFile
  cases disk path with
  | none => simp
  | some text =>
    simp only [Option.some.injEq, exists_eq_left']
    split
    · rename_i heq
      rw [heq]
    · rename_i hne
      exact ⟨fun hc => (by cases hc), fun hp => absurd hp (hne _ _)⟩

/-- A written file is read back. -/
theorem loadEntriesFromFile_update (disk : Disk) (path : String) (h : SessionHeader) (es : List FileEntry) :
    loadEntriesFromFile (Function.update disk path (some (jsonLines (.session h :: es)))) path = .session h :: es :=
  loadEntriesFromFile_eq_cons.mpr ⟨_, Function.update_self _ _ _, parseLines_jsonLines _⟩

/-- Lines appended to a file that ended its last line are read back after the others. -/
theorem loadEntriesFromFile_append {disk : Disk} {path : String} {h : SessionHeader} {es : List FileEntry}
    (hload : loadEntriesFromFile disk path = .session h :: es)
    (hends : ∀ text, disk path = some text → endsLine text = true) (xs : List FileEntry) :
    loadEntriesFromFile (Function.update disk path (some ((disk path).getD [] ++ jsonLines xs))) path =
      .session h :: es ++ xs := by
  obtain ⟨text, htext, hparse⟩ := loadEntriesFromFile_eq_cons.mp hload
  rw [List.cons_append]
  refine loadEntriesFromFile_eq_cons.mpr ⟨_, Function.update_self _ _ _, ?_⟩
  rw [htext, Option.getD_some, parseLines_append (hends text htext), hparse, parseLines_jsonLines]
  rfl

/-- The lines of new entries, in a file that is open or to be opened. -/
theorem writeJsonlChunk_facts {m : SessionManager} {disk : Disk} {path : String} {h : SessionHeader}
    {old : List FileEntry} (es : List SessionEntry) (hfile : m.sessionFile = some path)
    (hfd : ∀ fd, m.appendFd = some fd → fd = path) (hload : loadEntriesFromFile disk path = .session h :: old)
    (hends : ∀ text, disk path = some text → endsLine text = true) :
    ((⟨m, disk⟩ : World).writeJsonlChunk es).manager = { m with appendFd := some path } ∧
      loadEntriesFromFile ((⟨m, disk⟩ : World).writeJsonlChunk es).disk path =
        .session h :: old ++ es.map .entry := by
  have hgetD : m.appendFd.getD path = path := by
    cases hm : m.appendFd with
    | none => rfl
    | some fd => exact hfd fd hm
  unfold World.writeJsonlChunk
  simp only [hfile, hgetD]
  exact ⟨trivial, loadEntriesFromFile_append hload hends _⟩

section

variable {w : World} {isNew : Bool}

/-- Persisting, for a manager that has a file. -/
theorem persistBatch_eq {path : String} {es : List SessionEntry} (hpersist : w.manager.persist = true)
    (hpath : w.manager.sessionFile = some path) (hes : es ≠ []) : w.persistBatch es =
      if w.manager.flushed then (w.writeJsonlChunk es, none)
      else if w.manager.hasAssistant then
        match w.disk path with
        | some _ => (w.closeFile, some s!"EEXIST: file already exists, open '{path}'")
        | none =>
          (⟨{ w.manager.closeAppendFd with flushed := true },
            Function.update w.disk path (some (jsonLines w.manager.fileEntries))⟩, none)
      else (w, none) := by
  unfold World.persistBatch
  rw [hpersist, hpath]
  cases es with
  | nil => exact absurd rfl hes
  | cons e es =>
    cases w.manager.hasAssistant <;> cases w.manager.flushed <;> rfl

theorem Indexed.push {m : SessionManager} (h : Indexed m) (es : List SessionEntry) :
    Indexed (es.foldl World.pushEntry m) ∧ (es.foldl World.pushEntry m).entries = m.entries ++ es := by
  obtain ⟨hd, v, hv, hle, hentries⟩ := h.header
  have hpush := foldl_pushEntry_eq es m
  set m' := es.foldl World.pushEntry m
  have hfile : m'.fileEntries = .session hd :: (m.entries ++ es).map .entry := by
    rw [hpush, List.map_append]
    exact congrArg (· ++ es.map FileEntry.entry) hentries
  have hmem : m'.entries = m.entries ++ es := by
    rw [SessionManager.entries, hfile, sessionEntries_session, sessionEntries_map]
  refine ⟨⟨?_, ⟨hd, v, hv, hle, ?_⟩, ?_, ?_⟩, hmem⟩
  · rw [hpush]
    exact h.persist
  · rw [hfile, hmem]
  · rw [hmem, hpush, indexById, List.foldl_append]
    exact congrArg (es.foldl _) h.byId
  · rw [hmem, hpush, List.any_append, ← h.assistant]

/-- New entries, in memory and in the file. -/
theorem Stored.appendEntries (h : Stored w isNew) (es : List SessionEntry) (hready : es ≠ [] → LastLineEnds w) :
    Stored (w.appendEntries es).1 isNew ∧ (w.appendEntries es).2 = none ∧
      (w.appendEntries es).1.manager.entries = w.manager.entries ++ es ∧
      (w.appendEntries es).1.manager.labelsById = w.manager.labelsById := by
  obtain ⟨path, hpath, hfd, hflushed, hunflushed⟩ := h.file
  by_cases hes : es = []
  · subst hes
    have : w.appendEntries [] = (w, none) := by
      unfold World.appendEntries World.persistBatch
      rw [List.foldl_nil]
      split <;> simp_all
    rw [this]
    exact ⟨h, rfl, (List.append_nil _).symm, rfl⟩
  obtain ⟨hindexed, hmem⟩ := h.indexed.push es
  have hpush := foldl_pushEntry_eq es w.manager
  have hshape := persistBatch_eq (w := ⟨es.foldl World.pushEntry w.manager, w.disk⟩) hindexed.persist
    (by rw [hpush]; exact hpath) hes
  rw [World.appendEntries, hshape]
  set m := es.foldl World.pushEntry w.manager
  have hfl : m.flushed = w.manager.flushed := by rw [hpush]
  have hlabels : m.labelsById = w.manager.labelsById := by rw [hpush]
  have hpath' : m.sessionFile = some path := by rw [hpush]; exact hpath
  have hfd' : ∀ fd, m.appendFd = some fd → fd = path := by rw [hpush]; exact hfd
  have hfile : m.fileEntries = w.manager.fileEntries ++ es.map .entry := by rw [hpush]
  obtain ⟨hd, v, hv, hle, hentries⟩ := h.indexed.header
  cases hfw : w.manager.flushed with
  | true =>
    obtain ⟨hman, hload⟩ := writeJsonlChunk_facts es hpath' hfd' ((hflushed hfw).trans hentries)
      (hready hes hfw path hpath)
    rw [if_pos (hfl.trans hfw)]
    refine ⟨⟨?_, ⟨path, ?_, fun fd hf => ?_, fun _ => ?_, fun hc => ?_⟩, fun hn _ => ?_⟩, rfl, ?_, ?_⟩
    · rw [hman]
      exact ⟨hindexed.persist, hindexed.header, hindexed.byId, hindexed.assistant⟩
    · rw [hman]
      exact hpath'
    · rw [hman] at hf
      exact (Option.some.inj hf).symm
    · rw [hload, hman]
      simp only
      rw [hfile, hentries]
    · rw [hman] at hc
      simp only at hc
      rw [hfl, hfw] at hc
      cases hc
    · rw [hman]
      simp only
      rw [hpush]
      simp only [h.new hn hfw, Bool.true_or]
    · rw [hman]
      exact hmem
    · rw [hman]
      exact hlabels
  | false =>
    obtain ⟨hno, habsent⟩ := hunflushed hfw
    rw [if_neg (by rw [hfl, hfw]; decide)]
    by_cases ha : m.hasAssistant = true
    · -- the first assistant message creates the file
      rw [if_pos ha]
      simp only [habsent]
      refine ⟨⟨⟨hindexed.persist, hindexed.header, hindexed.byId, hindexed.assistant⟩,
        ⟨path, hpath', fun fd hf => (by cases hf), fun _ => ?_, fun hc => (by cases hc)⟩, fun _ _ => ha⟩,
        trivial, hmem, hlabels⟩
      obtain ⟨hd', v', -, -, hentries'⟩ := hindexed.header
      change loadEntriesFromFile (Function.update w.disk path (some (jsonLines m.fileEntries))) path = m.fileEntries
      rw [hentries']
      exact loadEntriesFromFile_update _ _ _ _
    · rw [if_neg ha]
      refine ⟨⟨hindexed, ⟨path, hpath', hfd', fun hc => ?_, fun _ => ⟨by simpa using ha, habsent⟩⟩, fun _ hc => ?_⟩,
        rfl, hmem, hlabels⟩
      · rw [hfl, hfw] at hc
        cases hc
      · rw [hfl, hfw] at hc
        cases hc

/-! ### Every operation keeps it -/

theorem Stored.moveLeaf (h : Stored w isNew) (leafId : Option String) :
    Stored { w with manager := { w.manager with leafId := leafId } } isNew :=
  ⟨⟨h.indexed.persist, h.indexed.header, h.indexed.byId, h.indexed.assistant⟩, h.file, h.new⟩

/-- An operation on the tree moves the leaf, or appends entries that are no labels below
a leaf, or a label. -/
theorem TreeOp.step_cases (op : TreeOp) (w : World) (d : Draws) :
    (∃ leafId, (op.step w d).1 = { w with manager := { w.manager with leafId := leafId } }) ∨
    (∃ leafId es, (es ≠ [] → op.appends w = true) ∧ (∀ e ∈ es, e.isLabel = false) ∧
      (op.step w d).1 = (({ w with manager := { w.manager with leafId := leafId } } : World).appendEntries es).1) ∨
    ∃ targetId label, op.appends w = true ∧ w.manager.byId.has targetId = true ∧
      op.step w d = w.appendLabelChange d targetId label := by
  have hbody : ∀ leafId body, op.appends w = true → (∀ targetId label, body ≠ .label targetId label) →
      (op.step w d).1 = (({ w with manager := { w.manager with leafId := leafId } } : World).appendBody d body).1 →
      ∃ leafId es, (es ≠ [] → op.appends w = true) ∧ (∀ e ∈ es, e.isLabel = false) ∧
        (op.step w d).1 = (({ w with manager := { w.manager with leafId := leafId } } : World).appendEntries es).1 := by
    intro leafId body happends hb heq
    refine ⟨leafId, _, fun _ => happends, fun e he => ?_, heq⟩
    rw [List.mem_singleton.mp he]
    unfold SessionEntry.isLabel World.newEntry
    split
    · rename_i targetId label hlabel
      exact absurd hlabel (hb targetId label)
    · rfl
  cases op with
  | appendMessage m => exact Or.inr (Or.inl (hbody w.manager.leafId (.message m) rfl (by simp) rfl))
  | appendThinkingLevelChange l =>
    exact Or.inr (Or.inl (hbody w.manager.leafId (.thinkingLevelChange l) rfl (by simp) rfl))
  | appendModelChange p i => exact Or.inr (Or.inl (hbody w.manager.leafId (.modelChange p i) rfl (by simp) rfl))
  | appendCompaction s f t de h =>
    exact Or.inr (Or.inl (hbody w.manager.leafId (.compaction s f t de h none) rfl (by simp) rfl))
  | appendCustomEntries records =>
    refine Or.inr (Or.inl ⟨w.manager.leafId, w.customEntries d records, fun hne => ?_, fun e he => ?_, rfl⟩)
    · cases records with
      | nil => exact absurd rfl hne
      | cons _ _ => rfl
    · obtain ⟨item, hitem, -, hb⟩ := mem_chainEntries he
      obtain ⟨record, -, rfl⟩ := List.mem_map.mp hitem
      rw [SessionEntry.isLabel, hb]
  | appendSessionInfo n =>
    exact Or.inr (Or.inl (hbody w.manager.leafId (.sessionInfo (some (jsTrim n))) rfl (by simp) rfl))
  | appendPromptMeta n i p =>
    exact Or.inr (Or.inl (hbody w.manager.leafId (.promptMeta n i p) rfl (by simp) rfl))
  | appendCustomMessageEntry t c disp de =>
    exact Or.inr (Or.inl (hbody w.manager.leafId (.customMessage t c de disp) rfl (by simp) rfl))
  | appendLabelChange targetId label =>
    by_cases hhas : w.manager.byId.has targetId = true
    · exact Or.inr (Or.inr ⟨targetId, label, hhas, hhas, rfl⟩)
    · refine Or.inl ⟨w.manager.leafId, ?_⟩
      rw [TreeOp.step, World.appendLabelChange, if_neg hhas]
  | branch i =>
    by_cases hhas : w.manager.byId.has i = true
    · refine Or.inl ⟨some i, ?_⟩
      rw [TreeOp.step, World.branch, if_pos hhas]
    · refine Or.inl ⟨w.manager.leafId, ?_⟩
      rw [TreeOp.step, World.branch, if_neg hhas]
  | branchWithSummary i s de h =>
    cases i with
    | none => exact Or.inr (Or.inl (hbody none (.branchSummary "root" s de h) rfl (by simp) rfl))
    | some i =>
      by_cases hhas : w.manager.byId.has i = true
      · refine Or.inr (Or.inl (hbody (some i) (.branchSummary i s de h) hhas (by simp) ?_))
        rw [TreeOp.step, World.branchWithSummary]
        simp only [hhas, if_true]
      · refine Or.inl ⟨w.manager.leafId, ?_⟩
        rw [TreeOp.step, World.branchWithSummary]
        simp only [hhas, Bool.false_eq_true, if_false]
  | resetLeaf => exact Or.inl ⟨none, rfl⟩

theorem Stored.tree (h : Stored w isNew) (hlabels : w.manager.labelsById = labelsOf w.manager.entries)
    (op : TreeOp) (d : Draws) (hready : op.appends w = true → LastLineEnds w) :
    Stored (op.step w d).1 isNew ∧
      (op.step w d).1.manager.labelsById = labelsOf (op.step w d).1.manager.entries := by
  rcases op.step_cases w d with ⟨leafId, heq⟩ | ⟨leafId, es, happ, hes, heq⟩ | ⟨targetId, label, happ, hhas, heq⟩
  · rw [heq]
    exact ⟨h.moveLeaf leafId, hlabels⟩
  · have := (h.moveLeaf leafId).appendEntries es fun hne => hready (happ hne)
    rw [heq]
    refine ⟨this.1, ?_⟩
    rw [this.2.2.1, this.2.2.2, labelsOf_append_of_not_label _ hes]
    exact hlabels
  · obtain ⟨hst, herr, hmem, hsame⟩ := h.appendEntries [w.newEntry d (.label targetId label)] fun _ => hready happ
    have hstep : op.step w d =
        ({ (w.appendEntries [w.newEntry d (.label targetId label)]).1 with
            manager := (w.appendEntries [w.newEntry d (.label targetId label)]).1.manager.recordLabel targetId label
              (w.newEntry d (.label targetId label)).timestamp }, none) := by
      rw [heq, World.appendLabelChange, if_pos hhas]
      simp only
      split
      · rename_i hsome
        rw [hsome] at herr
        cases herr
      · rename_i hnone
        rw [hnone]
    rw [hstep]
    set w' := (w.appendEntries [w.newEntry d (.label targetId label)]).1
    obtain ⟨times, hrecord⟩ := recordLabel_eq w'.manager (e := w.newEntry d (.label targetId label)) rfl
      (w.newEntry d (.label targetId label)).timestamp
    simp only [hrecord]
    refine ⟨⟨⟨hst.indexed.persist, hst.indexed.header, hst.indexed.byId, hst.indexed.assistant⟩, hst.file, hst.new⟩, ?_⟩
    change noteLabel w'.manager.labelsById _ = labelsOf w'.manager.entries
    rw [hmem, hsame, hlabels, labelsOf, labelsOf, List.foldl_append]
    rfl

theorem Stored.closeFile (h : Stored w isNew) : Stored w.closeFile isNew := by
  obtain ⟨path, hpath, -, hfile⟩ := h.file
  exact ⟨⟨h.indexed.persist, h.indexed.header, h.indexed.byId, h.indexed.assistant⟩,
    ⟨path, hpath, fun fd hfd => (by cases hfd), hfile⟩, h.new⟩

/-- A new session, or an error and nothing but a closed file. -/
theorem newSession_stored (hpersist : w.manager.persist = true) (d : Draws) (id parentSession : Option String)
    (hid : id.all validSessionId = true)
    (hfree : w.disk (sessionFilePath w.manager.sessionDir d.now (id.getD d.sessionId)) = none) :
    (w.newSession d id parentSession).2 = none ∧ Stored (w.newSession d id parentSession).1 true ∧
      (w.newSession d id parentSession).1.manager.labelsById =
        labelsOf (w.newSession d id parentSession).1.manager.entries := by
  unfold World.newSession
  simp only [hid, if_true, SessionManager.closeAppendFd, hpersist]
  refine ⟨trivial, ⟨⟨rfl, ⟨_, _, rfl, le_rfl, rfl⟩, rfl, rfl⟩, ⟨_, rfl, fun fd hfd => (by cases hfd), fun hc => (by cases hc),
    fun _ => ⟨rfl, hfree⟩⟩, fun _ hc => (by cases hc)⟩, rfl⟩

theorem newSession_invalid (d : Draws) (id parentSession : Option String) (hid : id.all validSessionId = false) :
    w.newSession d id parentSession = (w.closeFile, some invalidSessionId) := by
  unfold World.newSession
  simp only [hid, Bool.false_eq_true, if_false]
  rfl

/-- A session built from a header of the current version and entries, with its file. -/
theorem buildIndex_indexed {m : SessionManager} (hpersist : m.persist = true) {h : SessionHeader} {v : ℕ}
    (hv : h.version = some v) (hle : CURRENT_SESSION_VERSION ≤ v) {es : List SessionEntry}
    (hentries : m.fileEntries = .session h :: es.map .entry) :
    Indexed m.buildIndex ∧ m.buildIndex.labelsById = labelsOf m.buildIndex.entries := by
  obtain ⟨hmem, hbyId, -⟩ := buildIndex_spec m
  obtain ⟨hassistant, hlabels, hfile, -, -, hp⟩ := buildIndex_facts m
  have hes : m.entries = es := by rw [SessionManager.entries, hentries, sessionEntries_session, sessionEntries_map]
  refine ⟨⟨hp.trans hpersist, ⟨h, v, hv, hle, ?_⟩, ?_, ?_⟩, ?_⟩
  · rw [hfile, hmem, hes, hentries]
  · rw [hbyId, hmem]
  · rw [hassistant, hmem]
  · rw [hlabels, hmem]

/-- The assistant messages of a path are in the session branched from it. -/
theorem any_isAssistant_of_branched {m : SessionManager} {d : Draws} {path : List SessionEntry}
    (h : (branchedEntries m d path).any (·.isAssistant) = false) : path.any (·.isAssistant) = false := by
  rw [List.any_eq_false] at h ⊢
  intro e he hassistant
  have hlabel : e.isLabel = false := by
    unfold SessionEntry.isAssistant at hassistant
    unfold SessionEntry.isLabel
    split
    · rename_i hb
      rw [hb] at hassistant
      cases hassistant
    · rfl
  refine h e (List.mem_append_left _ ?_) hassistant
  exact List.mem_filter.mpr ⟨he, by rw [hlabel]; rfl⟩

/-- A branched session. -/
theorem createBranchedSession_stored (hpersist : w.manager.persist = true) {d : Draws} {leafId : String} {w' : World}
    (hstep : w.createBranchedSession d leafId = some (w', none))
    (hfree : ∀ path, w.manager.getBranch (some leafId) = some path → path.any (·.isAssistant) = false →
      w.disk (sessionFilePath w.manager.sessionDir d.now d.sessionId) = none) :
    Stored w' true ∧ w'.manager.labelsById = labelsOf w'.manager.entries := by
  unfold World.createBranchedSession at hstep
  simp only [hpersist, if_true] at hstep
  split at hstep
  · cases hstep
  · simp at hstep
  · rename_i path hne hbranch
    set m := { w.manager.closeAppendFd with
      fileEntries := FileEntry.session ⟨some CURRENT_SESSION_VERSION, d.sessionId, d.now, w.manager.cwd,
        w.manager.sessionFile⟩ :: (branchedEntries w.manager d path).map .entry
      sessionId := d.sessionId
      sessionFile := some (sessionFilePath w.manager.closeAppendFd.sessionDir d.now d.sessionId) } with hm
    have hfile : m.fileEntries = FileEntry.session ⟨some CURRENT_SESSION_VERSION, d.sessionId, d.now, w.manager.cwd,
        w.manager.sessionFile⟩ :: (branchedEntries w.manager d path).map .entry := rfl
    obtain ⟨hindexed, hlabels⟩ := buildIndex_indexed (m := m) hpersist rfl le_rfl hfile
    obtain ⟨hassistant, -, hfile', hpath, hfd, -⟩ := buildIndex_facts m
    have hmem : m.entries = branchedEntries w.manager d path := by
      rw [SessionManager.entries, hfile, sessionEntries_session, sessionEntries_map]
    split at hstep
    · rename_i ha
      simp only [Option.some.injEq, Prod.mk.injEq, and_true] at hstep
      have ha' : m.buildIndex.hasAssistant = true := ha
      have hrewrite : (⟨m.buildIndex, w.disk⟩ : World).rewriteFile =
          ⟨m.buildIndex.closeAppendFd, Function.update w.disk (sessionFilePath w.manager.sessionDir d.now d.sessionId)
            (some (jsonLines m.buildIndex.fileEntries))⟩ := by
        unfold World.rewriteFile
        simp only [hindexed.persist, if_true, hpath]
        rfl
      change { (⟨m.buildIndex, w.disk⟩ : World).rewriteFile with
        manager := { (⟨m.buildIndex, w.disk⟩ : World).rewriteFile.manager with flushed := true } } = w' at hstep
      rw [hrewrite] at hstep
      subst hstep
      refine ⟨⟨⟨hindexed.persist, hindexed.header, hindexed.byId, hindexed.assistant⟩, ⟨_, hpath, fun fd hf => (by cases hf),
        fun _ => ?_, fun hc => (by cases hc)⟩, fun _ _ => ha'⟩, hlabels⟩
      change loadEntriesFromFile (Function.update w.disk _ (some (jsonLines m.buildIndex.fileEntries))) _ =
        m.buildIndex.fileEntries
      rw [hfile', hfile]
      exact loadEntriesFromFile_update _ _ _ _
    · rename_i ha
      simp only [Option.some.injEq, Prod.mk.injEq, and_true] at hstep
      subst hstep
      have ha' : m.buildIndex.hasAssistant = false := Bool.eq_false_iff.mpr ha
      refine ⟨⟨⟨hindexed.persist, hindexed.header, hindexed.byId, hindexed.assistant⟩, ⟨_, hpath, fun fd hf => ?_,
        fun hc => (by cases hc), fun _ => ⟨ha', ?_⟩⟩, fun _ hc => (by cases hc)⟩, hlabels⟩
      · have : m.buildIndex.appendFd = some fd := hf
        rw [hfd] at this
        cases this
      · rw [hassistant, hmem] at ha'
        exact hfree path hbranch (any_isAssistant_of_branched ha')

theorem createBranchedSession_error {d : Draws} {leafId err : String} {w' : World}
    (hstep : w.createBranchedSession d leafId = some (w', some err)) : w' = w := by
  unfold World.createBranchedSession at hstep
  simp only at hstep
  split at hstep
  · cases hstep
  · simp only [Option.some.injEq, Prod.mk.injEq] at hstep
    exact hstep.1.symm
  · split at hstep
    · split at hstep
      · simp at hstep
      · simp at hstep
    · simp at hstep

/-! ### Opening a file -/

/-- A list of file entries with one header, in front. -/
theorem eq_map_entry_of_header {h : SessionHeader} {es : List FileEntry}
    (hone : ((FileEntry.session h :: es).filterMap FileEntry.header?).length ≤ 1) :
    es = (sessionEntries es).map .entry := by
  have hnone : es.filterMap FileEntry.header? = [] := by
    rw [List.filterMap_cons] at hone
    simp only [FileEntry.header?, List.length_cons] at hone
    exact List.length_eq_zero_iff.mp (by omega)
  rw [List.filterMap_eq_nil_iff] at hnone
  clear hone
  induction es with
  | nil => rfl
  | cons e es ih =>
    have hes := ih fun x hx => hnone x (List.mem_cons_of_mem _ hx)
    cases e with
    | session h' => cases hnone (.session h') List.mem_cons_self
    | entry e =>
      change FileEntry.entry e :: es = .entry e :: (sessionEntries es).map .entry
      rw [← hes]

/-- The migration from version 1 keeps entries entries, and gives every one an id. -/
theorem migrateV1ToV2From_map (uuids : ℕ → ℕ → Uuid) : ∀ (es : List SessionEntry) (k : ℕ)
    (migrated : List FileEntry) (prevId : Option String), ∃ es' : List SessionEntry,
    migrateV1ToV2From uuids k migrated prevId (es.map .entry) = migrated ++ es'.map .entry ∧
      es'.length = es.length ∧ ∀ e ∈ es', e.id ≠ ""
  | [], _, migrated, _ => ⟨[], by simp [migrateV1ToV2From]⟩
  | e :: es, k, migrated, prevId => by
    rw [List.map_cons, migrateV1ToV2From]
    obtain ⟨es', h, hlen, hids⟩ := migrateV1ToV2From_map uuids es (k + 1) _ _
    refine ⟨_ :: es', by rw [h, List.append_assoc]; rfl, by rw [List.length_cons, List.length_cons, hlen], ?_⟩
    intro x hx
    rcases List.mem_cons.mp hx with rfl | hx
    · have hne : generateId (fun _ => false) (uuids k) ≠ "" := generateId_ne_empty _ _
      exact hne
    · exact hids x hx

theorem migrateV2ToV3_map (h : SessionHeader) (es : List SessionEntry) :
    migrateV2ToV3 (.session h :: es.map .entry) =
      .session { h with version := some 3 } :: (es.map migrateHookMessage).map .entry := by
  rw [migrateV2ToV3, List.map_cons, List.map_map, List.map_map]
  rfl

/-- After the migrations there is a header of the current version in front of entries;
a file of that version is not changed. -/
theorem migrateToCurrentVersion_facts (uuids : ℕ → ℕ → Uuid) (h : SessionHeader) (es : List SessionEntry) :
    ∃ (h' : SessionHeader) (v : ℕ) (es' : List SessionEntry), h'.version = some v ∧ CURRENT_SESSION_VERSION ≤ v ∧
      (migrateToCurrentVersion uuids (.session h :: es.map .entry)).1 = .session h' :: es'.map .entry ∧
      ((migrateToCurrentVersion uuids (.session h :: es.map .entry)).2 = false →
        .session h :: es.map .entry = FileEntry.session h' :: es'.map .entry) := by
  have hversion : fileVersion (.session h :: es.map .entry) = h.version.getD 1 := rfl
  unfold migrateToCurrentVersion
  rw [hversion]
  by_cases hv : CURRENT_SESSION_VERSION ≤ h.version.getD 1
  · simp only [hv, if_true]
    cases hh : h.version with
    | none =>
      rw [hh] at hv
      cases hv with
      | step hv => cases hv
    | some v => exact ⟨h, v, es, hh, by rwa [hh] at hv, rfl, fun _ => rfl⟩
  · have hv3 : h.version.getD 1 < 3 := Nat.lt_of_not_le hv
    simp only [hv, if_false, hv3, if_true]
    obtain ⟨h2, es2, heq⟩ : ∃ h2 es2,
        (if h.version.getD 1 < 2 then migrateV1ToV2 uuids (.session h :: es.map .entry) else .session h :: es.map .entry) =
          FileEntry.session h2 :: List.map FileEntry.entry es2 := by
      split
      · obtain ⟨es', hes, -⟩ := migrateV1ToV2From_map uuids es 0 [.session { h with version := some 2 }] none
        exact ⟨_, es', hes⟩
      · exact ⟨h, es, rfl⟩
    rw [heq]
    exact ⟨_, 3, _, rfl, le_rfl, migrateV2ToV3_map h2 es2, fun hc => (by cases hc)⟩

theorem exists_header {disk : Disk} {path : String} {e : FileEntry} {es : List FileEntry}
    (h : loadEntriesFromFile disk path = e :: es) : ∃ header, e = .session header := by
  unfold loadEntriesFromFile at h
  split at h
  · cases h
  · split at h
    · exact ⟨_, (List.cons.inj h).1.symm⟩
    · cases h

/-- Opening a file that has a header. -/
theorem setSessionFile_of_load {m : SessionManager} {disk : Disk} {path : String} {h : SessionHeader}
    {es : List FileEntry} (d : Draws) (hload : loadEntriesFromFile disk path = .session h :: es) :
    let loaded := migrateToCurrentVersion d.uuids (.session h :: es)
    let m' := { m.closeAppendFd with sessionFile := some path, fileEntries := loaded.1, sessionId := h.id }
    let w' := if loaded.2 then (⟨m', disk⟩ : World).rewriteFile else ⟨m', disk⟩
    setSessionFile ⟨m, disk⟩ d path = { w' with manager := { w'.manager.buildIndex with flushed := true } } := by
  obtain ⟨text, htext, -⟩ := loadEntriesFromFile_eq_cons.mp hload
  have hsome : (disk path).isSome = true := by rw [htext]; rfl
  intro loaded m' w'
  unfold World.setSessionFile
  simp only [hsome, if_true, hload]
  rfl

/-- An opened file is in the session. -/
theorem setSessionFile_stored (hpersist : w.manager.persist = true) (d : Draws) (path : String)
    (hone : ((loadEntriesFromFile w.disk path).filterMap FileEntry.header?).length ≤ 1) :
    Stored (w.setSessionFile d path) (w.disk path).isNone ∧
      (w.setSessionFile d path).manager.labelsById = labelsOf (w.setSessionFile d path).manager.entries := by
  cases hdisk : w.disk path with
  | none =>
    have hnone : (w.disk path).isSome = false := by rw [hdisk]; rfl
    unfold World.setSessionFile World.newSession
    simp only [hnone, Bool.false_eq_true, if_false, Option.all_none, if_true, SessionManager.closeAppendFd]
    exact ⟨⟨⟨hpersist, ⟨_, _, rfl, le_rfl, rfl⟩, rfl, rfl⟩, ⟨path, rfl, fun fd hf => (by cases hf), fun hc => (by cases hc),
      fun _ => ⟨rfl, hdisk⟩⟩, fun _ hc => (by cases hc)⟩, rfl⟩
  | some text =>
    have hsome : (w.disk path).isSome = true := by rw [hdisk]; rfl
    cases hload : loadEntriesFromFile w.disk path with
    | nil =>
      unfold World.setSessionFile World.newSession World.rewriteFile
      simp only [hsome, hload, if_true, Option.all_none, SessionManager.closeAppendFd, hpersist]
      refine ⟨⟨⟨rfl, ⟨_, _, rfl, le_rfl, rfl⟩, rfl, rfl⟩, ⟨path, rfl, fun fd hf => (by cases hf), fun _ => ?_,
        fun hc => (by cases hc)⟩, fun hc => (by cases hc)⟩, rfl⟩
      exact loadEntriesFromFile_update _ _ _ _
    | cons e es =>
      obtain ⟨h, rfl⟩ := exists_header hload
      rw [hload] at hone
      have hes := eq_map_entry_of_header hone
      obtain ⟨h', v, es', hv, hle, hloaded, hsame⟩ := migrateToCurrentVersion_facts d.uuids h (sessionEntries es)
      rw [← hes] at hloaded hsame
      have hstep := setSessionFile_of_load (m := w.manager) d hload
      simp only at hstep
      rw [hstep]
      set m := { w.manager.closeAppendFd with
        sessionFile := some path
        fileEntries := (migrateToCurrentVersion d.uuids (.session h :: es)).1
        sessionId := h.id } with hm
      have hfile : m.fileEntries = .session h' :: es'.map .entry := hloaded
      obtain ⟨hindexed, hlabels⟩ := buildIndex_indexed (m := m) hpersist hv hle hfile
      obtain ⟨-, -, hfile', hpath, hfd, -⟩ := buildIndex_facts m
      -- the migrated entries are written back, others are in the file already
      have hw : ∃ disk', (if (migrateToCurrentVersion d.uuids (.session h :: es)).2 then
          (⟨m, w.disk⟩ : World).rewriteFile else ⟨m, w.disk⟩) = ⟨m, disk'⟩ ∧
          loadEntriesFromFile disk' path = m.fileEntries := by
        cases hmig : (migrateToCurrentVersion d.uuids (.session h :: es)).2 with
        | true =>
          refine ⟨Function.update w.disk path (some (jsonLines m.fileEntries)), ?_, ?_⟩
          · have hp : m.persist = true := hpersist
            unfold World.rewriteFile
            simp only [hp, if_true]
            rfl
          · rw [hfile]
            exact loadEntriesFromFile_update _ _ _ _
        | false => exact ⟨w.disk, rfl, hload.trans ((hsame hmig).trans hfile.symm)⟩
      obtain ⟨disk', hw, hload'⟩ := hw
      rw [hw]
      refine ⟨⟨⟨hindexed.persist, hindexed.header, hindexed.byId, hindexed.assistant⟩, ⟨path, hpath, fun fd hf => ?_,
        fun _ => hload'.trans hfile'.symm, fun hc => (by cases hc)⟩, fun hc => (by cases hc)⟩, hlabels⟩
      have : m.buildIndex.appendFd = some fd := hf
      rw [hfd] at this
      cases this

/-- Loading the file of a session gives the session. -/
theorem reloads_of_load (getTime : String → ℤ) (h : Indexed w.manager)
    (hlabels : w.manager.labelsById = labelsOf w.manager.entries) {path : String}
    (hload : loadEntriesFromFile w.disk path = w.manager.fileEntries) : Reloads getTime w path := by
  obtain ⟨hd, v, hv, hle, hentries⟩ := h.header
  rw [hentries] at hload
  have key : ∀ m d, (setSessionFile ⟨m, w.disk⟩ d path).manager.entries = w.manager.entries ∧
      (setSessionFile ⟨m, w.disk⟩ d path).manager.byId = w.manager.byId ∧
      (setSessionFile ⟨m, w.disk⟩ d path).manager.labelsById = w.manager.labelsById := by
    intro m d
    have hversion : fileVersion (.session hd :: w.manager.entries.map .entry) = v := by
      change hd.version.getD 1 = v
      rw [hv]
      rfl
    have hmig : migrateToCurrentVersion d.uuids (.session hd :: w.manager.entries.map .entry) =
        (.session hd :: w.manager.entries.map .entry, false) := by
      unfold migrateToCurrentVersion
      simp only [hversion, hle, if_true]
    have hstep := setSessionFile_of_load (m := m) d hload
    simp only [hmig, Bool.false_eq_true, if_false] at hstep
    rw [hstep]
    set m' := { m.closeAppendFd with
      sessionFile := some path
      fileEntries := FileEntry.session hd :: w.manager.entries.map .entry
      sessionId := hd.id } with hm'
    have hmem : m'.entries = w.manager.entries := by
      rw [hm', SessionManager.entries, sessionEntries_session, sessionEntries_map]
    obtain ⟨h1, h2, -⟩ := buildIndex_spec m'
    obtain ⟨-, h3, -⟩ := buildIndex_facts m'
    rw [hmem] at h1 h2 h3
    exact ⟨h1, h2.trans h.byId.symm, h3.trans hlabels.symm⟩
  exact ⟨fun m d => (key m d).1, fun m d => (key m d).2.2, fun m d leafId => by
    simp only [(key m d).1, (key m d).2.1]⟩

end

/-! ### Runs -/

/-- What every run keeps. -/
theorem SessionReach.stored {r : SessionRun} (h : SessionReach SessionOp.Ready r) :
    Stored r.world r.isNew ∧ r.world.manager.labelsById = labelsOf r.world.manager.entries := by
  induction h with
  | create disk cwd sessionDir d id parentSession hid hready =>
    exact (newSession_stored rfl d id parentSession hid (hready hid)).2
  | openFile disk cwd sessionDir d path hready => exact setSessionFile_stored rfl d path hready
  | @step r r' d op _ hready hstep ih =>
    obtain ⟨hst, hlabels⟩ := ih
    cases op with
    | tree op =>
      obtain rfl := Option.some.inj hstep
      exact hst.tree hlabels op d hready
    | newSession id parentSession =>
      cases hid : id.all validSessionId with
      | false =>
        rw [SessionOp.step, newSession_invalid d id parentSession hid] at hstep
        obtain rfl := Option.some.inj hstep
        exact ⟨hst.closeFile, hlabels⟩
      | true =>
        obtain ⟨hnone, hnew, hlabels'⟩ := newSession_stored hst.indexed.persist d id parentSession hid (hready hid)
        have : SessionOp.step r d (.newSession id parentSession) =
            some ⟨(r.world.newSession d id parentSession).1, true⟩ := by
          unfold SessionOp.step
          simp only
          split
          · rename_i heq
            rw [heq]
          · rename_i heq
            rw [heq] at hnone
            cases hnone
        rw [this] at hstep
        obtain rfl := Option.some.inj hstep
        exact ⟨hnew, hlabels'⟩
    | setSessionFile path =>
      obtain rfl := Option.some.inj hstep
      exact setSessionFile_stored hst.indexed.persist d path hready
    | createBranchedSession leafId =>
      unfold SessionOp.step at hstep
      simp only at hstep
      split at hstep
      · cases hstep
      · rename_i w' heq
        obtain rfl := Option.some.inj hstep
        exact createBranchedSession_stored hst.indexed.persist heq hready
      · rename_i w' err heq
        obtain rfl := Option.some.inj hstep
        rw [createBranchedSession_error heq]
        exact ⟨hst, hlabels⟩
    | closeFile =>
      obtain rfl := Option.some.inj hstep
      exact ⟨hst.closeFile, hlabels⟩

/-- **In every run in which entries are never appended to an unfinished line, new files
get unused names and opened files have one header, the session file holds the
session**: from the first assistant message on it reads back as one header and the
entries, labels and contexts of the manager; a session begun without a file has
none before. -/
theorem SessionReach.faithful (getTime : String → ℤ) {r : SessionRun} (h : SessionReach SessionOp.Ready r) :
    Faithful getTime r := by
  obtain ⟨hst, hlabels⟩ := h.stored
  obtain ⟨path, hpath, -, hflushed, hunflushed⟩ := hst.file
  constructor
  · intro hassistant
    rw [← hst.indexed.assistant] at hassistant
    have hfl : r.world.manager.flushed = true := by
      cases hfl : r.world.manager.flushed with
      | true => rfl
      | false =>
        rw [(hunflushed hfl).1] at hassistant
        cases hassistant
    obtain ⟨hd, v, -, -, hentries⟩ := hst.indexed.header
    exact ⟨path, hpath, ⟨hd, (hflushed hfl).trans hentries⟩,
      reloads_of_load getTime hst.indexed hlabels (hflushed hfl)⟩
  · intro hnew hnone
    rw [← hst.indexed.assistant] at hnone
    refine ⟨path, hpath, ?_⟩
    cases hfl : r.world.manager.flushed with
    | true =>
      rw [hst.new hnew hfl] at hnone
      cases hnone
    | false => exact (hunflushed hfl).2

/-- An assistant message in a new session. -/
theorem SessionReach.faithful_new :
    ∃ r, (SessionReach SessionOp.Ready r ∧ r.world.manager.entries.any (·.isAssistant) = true) ∧
      Faithful (fun _ => 0) r := by
  have hnew : SessionReach SessionOp.Ready
      ⟨(newSession ⟨.blank "/work" "/sessions" true, fun _ => none⟩ (sameDraws '0') none none).1, true⟩ :=
    .create (fun _ => none) "/work" "/sessions" (sameDraws '0') none none rfl fun _ => rfl
  have hreach := hnew.step (sameDraws 'a')
    (.tree (.appendMessage (.assistant ⟨[], "api", "provider", "model", none, .stop, none, 1⟩)))
    (fun _ h => (by cases h)) rfl
  exact ⟨_, ⟨hreach, by decide⟩, SessionReach.faithful (fun _ => 0) hreach⟩

/-- The file of this session has no line break at its end. The next message is written
onto the line of the last one, and the file has neither. -/
theorem SessionReach.loses_unfinished_line :
    ¬ ∀ r, SessionReach (fun _ _ _ => True) r → Faithful (fun _ => 0) r := by
  intro h
  have hopen : SessionReach (fun _ _ _ => True) _ := .openFile
    (fun path => if path = "/sessions/s.jsonl" then
      some [.json (.session ⟨some 3, "s", "", "/work", none⟩), .newline,
        .json (.entry ⟨"00000000", none, "", .message (.assistant ⟨[], "api", "provider", "model", none, .stop, none, 1⟩)⟩)]
      else none) "/work" "/sessions" (sameDraws '0') "/sessions/s.jsonl" trivial
  have hreach := hopen.step (sameDraws 'a') (.tree (.appendMessage (.user (.text "next") 2))) trivial rfl
  obtain ⟨path, hpath, ⟨header, hload⟩, -⟩ := (h _ hreach).held (by decide)
  obtain rfl : "/sessions/s.jsonl" = path := by
    rw [← Option.some.injEq, ← hpath]
    decide
  have hlength := congrArg List.length hload
  rw [List.length_cons] at hlength
  exact absurd hlength (by decide)

end Trek
