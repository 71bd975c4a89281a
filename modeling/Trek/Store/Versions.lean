/-
# The version store

`TrekVersionStore` of `core/trek-store/store.ts`: a manifest of what each prompt
did to which file, and beside it one artifact per record with the state of the
file before. `record` adds one; `restoreToPrompt` goes back to before a prompt
and forgets the records of it and of later ones.

The diff an artifact also holds is not modelled: nothing reads it back.
-/
import Trek.Undo.Checkpoints
import Trek.Lib.Text
import Std.Data.String.ToNat

namespace Trek

/-- `VersionKind`. -/
inductive VersionKind
  | edit | create | delete | rename
  deriving DecidableEq

/-- `FileVersionRecord`. -/
structure FileVersionRecord where
  path : String
  fromVersion : ℕ
  toVersion : ℕ
  kind : VersionKind
  artifact : String
  toPath : Option String
  deriving DecidableEq

/-- `PromptHistoryEntry`. -/
structure PromptHistoryEntry where
  promptId : String
  stepId : Option String
  files : List FileVersionRecord
  deriving DecidableEq

/-- `TrekManifest`: the entries by prompt number. -/
structure TrekManifest where
  prompts : OrdMap ℤ PromptHistoryEntry
  deriving DecidableEq

/-- `VersionArtifact`. -/
structure VersionArtifact where
  kind : VersionKind
  path : String
  toPath : Option String
  promptNumber : ℤ
  promptId : String
  stepId : Option String
  before : PreImage
  deriving DecidableEq

/-- `RecordOptions`. -/
structure RecordOptions where
  promptNumber : ℤ
  promptId : String
  stepId : Option String
  relPath : String
  kind : VersionKind
  before : PreImage
  toRelPath : Option String
  deriving DecidableEq

/-- The files of the store: `manifest.json`, `none` where it is missing, does not
parse or has another version, and the artifacts by their path. -/
structure TrekStore where
  manifest : Option TrekManifest
  artifacts : String → Option VersionArtifact

/-- A path `record` takes: not empty and not beginning with two dots. -/
def validRelPath (relPath : String) : Bool :=
  !relPath.toList.isEmpty && !(['.', '.'].isPrefixOf relPath.toList)

/-- `emptyManifest`. -/
def emptyManifest : TrekManifest := ⟨.empty⟩

namespace TrekManifest

/-- All records, prompt by prompt. -/
def records (m : TrekManifest) : List FileVersionRecord := m.prompts.values.flatMap (·.files)

/-- The records of a prompt. -/
def filesOf (m : TrekManifest) (n : ℤ) : List FileVersionRecord :=
  ((m.prompts.get? n).map (·.files)).getD []

/-- `from` in `record`: the newest version of a path. -/
def latestVersion (m : TrekManifest) (relPath : String) : ℕ :=
  ((m.records.filter (·.path = relPath)).map (·.toVersion)).foldr max 0

/-- `artifactRel`. -/
def artifactRel (relPath : String) (toVersion : ℕ) : String :=
  "versions/" ++ relPath ++ "/v" ++ toString toVersion ++ ".json"

/-- `record` in `record`. -/
def newRecord (m : TrekManifest) (options : RecordOptions) : FileVersionRecord :=
  let latest := m.latestVersion options.relPath
  ⟨options.relPath, latest, latest + 1, options.kind, artifactRel options.relPath (latest + 1), options.toRelPath⟩

/-- `entry` in `record`, with the new record. -/
def recordEntry (m : TrekManifest) (options : RecordOptions) : PromptHistoryEntry :=
  let entry := (m.prompts.get? options.promptNumber).getD ⟨options.promptId, none, []⟩
  { promptId := options.promptId
    stepId := if options.stepId.getD "" = "" then entry.stepId else options.stepId
    files := entry.files ++ [m.newRecord options] }

/-- The manifest `record` writes. -/
def addRecord (m : TrekManifest) (options : RecordOptions) : TrekManifest :=
  ⟨m.prompts.set options.promptNumber (m.recordEntry options)⟩

end TrekManifest

/-- The artifact `record` writes. -/
def RecordOptions.artifact (options : RecordOptions) : VersionArtifact :=
  ⟨options.kind, options.relPath, options.toRelPath, options.promptNumber, options.promptId, options.stepId,
    options.before⟩

namespace TrekStore

/-- `loadManifest`. -/
def loadManifest (s : TrekStore) : TrekManifest := s.manifest.getD emptyManifest

/-- `saveManifest`. -/
def saveManifest (s : TrekStore) (m : TrekManifest) : TrekStore := { s with manifest := some m }

/-- The write of an artifact. -/
def writeArtifact (s : TrekStore) (artifactRel : String) (a : VersionArtifact) : TrekStore :=
  { s with artifacts := Function.update s.artifacts artifactRel (some a) }

/-- `record`, with nothing in between its steps. -/
def record (s : TrekStore) (options : RecordOptions) : TrekStore × Option FileVersionRecord :=
  if validRelPath options.relPath then
    let manifest := s.loadManifest
    let record := manifest.newRecord options
    ((s.writeArtifact record.artifact options.artifact).saveManifest (manifest.addRecord options), some record)
  else (s, none)

/-- `promptNumbers` in `restoreToPrompt`. -/
def promptNumbers (m : TrekManifest) (k : ℤ) : List ℤ := (m.prompts.keys.filter (k ≤ ·)).insertionSort (· ≤ ·)

/-- The body of the loop that reads the earliest artifacts. -/
def readEarliest (s : TrekStore) (earliest : OrdMap String VersionArtifact) (file : FileVersionRecord) :
    OrdMap String VersionArtifact :=
  if earliest.has file.path then earliest
  else
    match s.artifacts file.artifact with
    | none => earliest
    | some artifact => earliest.set file.path artifact

/-- `earliest` in `restoreToPrompt`: of each path the first record of the prompts
from `k` on that can be read. -/
def earliest (s : TrekStore) (k : ℤ) : OrdMap String VersionArtifact :=
  (promptNumbers s.loadManifest k).foldl
    (fun acc n => (s.loadManifest.filesOf n).foldl s.readEarliest acc) .empty

/-- The target of a renaming: `artifact.kind === "rename" && artifact.toPath`. -/
def renameTarget (a : VersionArtifact) : Option String :=
  if a.kind = .rename then a.toPath.filter (· ≠ "") else none

end TrekStore

/-! ### Artifact paths -/

/-- An artifact's path tells the file and the version. -/
theorem artifactRel_inj {p q : String} {a b : ℕ}
    (h : TrekManifest.artifactRel p a = TrekManifest.artifactRel q b) : p = q ∧ a = b := by
  have hlist := congrArg String.toList h
  simp only [TrekManifest.artifactRel, String.toList_append, List.append_assoc] at hlist
  have hlist := List.append_cancel_left hlist
  simp only [← List.append_assoc] at hlist
  have hlist := List.append_cancel_right hlist
  have hslash : ∀ n : ℕ, '/' ∉ 'v' :: (toString n).toList := by
    intro n hn
    rcases List.mem_cons.mp hn with he | hn
    · exact absurd he (by decide)
    · rw [Nat.toString_eq_repr, Nat.toList_repr] at hn
      exact absurd (Nat.isDigit_of_mem_toDigits (by decide) (by decide) hn) (by decide)
  have hsplit : p.toList ++ '/' :: 'v' :: (toString a).toList = q.toList ++ '/' :: 'v' :: (toString b).toList := by
    simpa using hlist
  obtain ⟨hp, hv⟩ := append_separator_inj (hslash a) (hslash b) hsplit
  refine ⟨String.toList_inj.mp hp, ?_⟩
  have := String.toList_inj.mp (List.cons.inj hv).2
  exact Nat.repr_injective this

end Trek
