/-
# The JSONL session storage

`JsonlSessionStorage` of `harness/session/jsonl-storage.ts` beside `InMemorySessionStorage`
of `harness/session/memory-storage.ts`. Both keep the same state; the first writes an entry
to its file before it takes it in, a move of the leaf as an entry of its own. Every run of
the first gives the answers that the second gives to the operations that were written. The
file gives the same storage when it is opened again, unless an entry or the header has an
empty field that the parsers want to be filled (`run_refines`).
-/
import Trek.Harness.Storage
import Trek.Lib.Mealy

namespace Trek

/-! ### Operations -/

/-- `new Date().toISOString()`. -/
structure IsoTime where
  text : String
  nonempty : text ≠ ""

/-- `entry.type`. -/
def TreeBody.type : TreeBody → String
  | .message _ => "message"
  | .thinkingLevelChange _ => "thinking_level_change"
  | .modelChange _ _ => "model_change"
  | .activeToolsChange _ => "active_tools_change"
  | .compaction _ _ _ _ _ => "compaction"
  | .branchSummary _ _ _ _ => "branch_summary"
  | .custom _ _ => "custom"
  | .customMessage _ _ _ _ => "custom_message"
  | .label _ _ => "label"
  | .sessionInfo _ => "session_info"
  | .leaf _ => "leaf"

/-- The operations that leave a storage as it is. `createEntryId` comes with the state of
`uuidv7` and what its calls read. -/
inductive StorageRead
  | getLeafId
  | createEntryId (uuids : UuidState) (draws : ℕ → UuidDraw)
  | getEntry (id : String)
  | findEntries (type : String)
  | getLabel (id : String)
  | getPathToRoot (leafId : Option String)
  | getEntries

/-- The operations of `SessionStorage`. -/
inductive StorageOp
  | appendEntry (entry : TreeEntry)
  | setLeafId (leafId : Option String) (uuids : UuidState) (draws : ℕ → UuidDraw) (now : IsoTime)
  | read (read : StorageRead)

/-- What an operation returns. -/
inductive StorageValue
  | done
  | id (id : String)
  | leafId (leafId : Option String)
  | entry (entry : Option TreeEntry)
  | entries (entries : List TreeEntry)
  | label (label : Option String)

/-- What an operation comes to; `none` if it never returns. -/
abbrev StorageAnswer := Option (Except SessionError StorageValue)

/-- The error of `setLeafId` and `getPathToRoot`. -/
def entryNotFound (id : String) : SessionError := ⟨.notFound, "Entry " ++ id ++ " not found"⟩

namespace TreeStorage

variable (s : TreeStorage)

/-- The read operations, which both storages have. -/
def answer : StorageRead → StorageAnswer
  | .getLeafId => some (s.getLeafId.map .leafId)
  | .createEntryId uuids draws => some (.ok (.id (generateEntryId s.byId.has draws uuids).1))
  | .getEntry id => some (.ok (.entry (s.byId.get? id)))
  | .findEntries type => some (.ok (.entries (s.entries.filter fun e => e.body.type = type)))
  | .getLabel id => some (.ok (.label (s.labelsById.get? id)))
  | .getPathToRoot leafId => (s.getPathToRoot leafId).map (·.map .entries)
  | .getEntries => some (.ok (.entries s.entries))

/-- The new leaf where it is not there. -/
def missingLeaf (leafId : Option String) : Option String := leafId.filter (!s.byId.has ·)

/-- The entry of `setLeafId`. -/
def leafEntry (leafId : Option String) (uuids : UuidState) (draws : ℕ → UuidDraw) (now : IsoTime) : TreeEntry :=
  ⟨(generateEntryId s.byId.has draws uuids).1, s.leafId, now.text, .leaf leafId⟩

/-- `setLeafId`, the part in memory. -/
def moveLeaf (entry : TreeEntry) (leafId : Option String) : TreeStorage :=
  { s with entries := s.entries ++ [entry], byId := s.byId.set entry.id entry, leafId := leafId }

/-- An operation of `InMemorySessionStorage`. -/
def perform : StorageOp → TreeStorage × StorageAnswer
  | .appendEntry entry => (s.appendEntry entry, some (.ok .done))
  | .setLeafId leafId uuids draws now =>
    match s.missingLeaf leafId with
    | some id => (s, some (.error (entryNotFound id)))
    | none => (s.moveLeaf (s.leafEntry leafId uuids draws now) leafId, some (.ok .done))
  | .read read => (s, s.answer read)

/-- Moving the leaf is appending its entry: that is no label, and the leaf after it is the
one it names. -/
theorem moveLeaf_eq (leafId : Option String) (uuids : UuidState) (draws : ℕ → UuidDraw) (now : IsoTime) :
    s.moveLeaf (s.leafEntry leafId uuids draws now) leafId = s.appendEntry (s.leafEntry leafId uuids draws now) := rfl

/-- A storage of one entry more. -/
theorem ofEntries_concat (entries : List TreeEntry) (e : TreeEntry) :
    ofEntries (entries ++ [e]) = (ofEntries entries).appendEntry e := by
  simp only [ofEntries, appendEntry, List.foldl_append, List.foldl_cons, List.foldl_nil]

end TreeStorage

namespace Jsonl

/-! ### Files -/

/-- `FileErrorCode`. -/
inductive FileErrorCode
  | aborted | notFound | permissionDenied | notDirectory | isDirectory | invalid | notSupported | unknown
  deriving DecidableEq

/-- `FileError`. -/
structure FileError where
  code : FileErrorCode
  message : String

/-- What `getFileSystemResultOrThrow` throws. -/
def FileError.thrown (error : FileError) (message : String) : SessionError :=
  ⟨if error.code = .notFound then .notFound else .storage, message ++ ": " ++ error.message⟩

/-- An object in a line, by the fields that are checked when it is read; `none` is
`undefined`. `body` is what else it holds as an entry of its type. -/
structure Record where
  type : Option Json
  version : Option Json
  id : Option Json
  timestamp : Option Json
  cwd : Option Json
  parentSession : Option Json
  parentId : Option Json
  targetId : Option Json
  body : TreeBody
  deriving DecidableEq

/-- A piece of a file: the JSON of an object, other JSON, a line break, white space within a
line, or text that is none of these. -/
inductive Token
  | record (record : Record)
  | other
  | newline
  | blank
  | junk
  deriving DecidableEq

abbrev Text := List Token

/-- `SessionHeader`; its `type` is `session`, its `version` 3. -/
structure SessionHeader where
  id : String
  timestamp : String
  cwd : String
  parentSession : Option String
  deriving DecidableEq

/-- The value of `string | null`. -/
def nullable : Option String → Json
  | none => .null
  | some s => .str s

/-- `JSON.stringify(header)`. What it says of an entry is of no account. -/
def SessionHeader.json (h : SessionHeader) : Token :=
  .record ⟨some (.str "session"), some (.num 3), some (.str h.id), some (.str h.timestamp), some (.str h.cwd),
    h.parentSession.map .str, none, none, .leaf none⟩

/-- `JSON.stringify(entry)`. -/
def entryJson (e : TreeEntry) : Token :=
  .record ⟨some (.str e.body.type), none, some (.str e.id), some (.str e.timestamp), none, none,
    some (nullable e.parentId),
    match e.body with
    | .leaf targetId => some (nullable targetId)
    | .label targetId _ => some (.str targetId)
    | _ => none,
    e.body⟩

/-! ### Reading -/

def invalidSession (filePath message : String) : SessionError :=
  ⟨.invalidSession, "Invalid JSONL session file " ++ filePath ++ ": " ++ message⟩

def invalidEntry (filePath : String) (lineNumber : ℕ) (message : String) : SessionError :=
  ⟨.invalidEntry, "Invalid JSONL session file " ++ filePath ++ ": line " ++ toString lineNumber ++ " " ++ message⟩

/-- `typeof value === "string"`. -/
def string? : Option Json → Option String
  | some (.str s) => some s
  | _ => none

/-- `typeof value === "string" && value`. -/
def filled? (value : Option Json) : Option String := (string? value).filter (· ≠ "")

/-- `value === null || typeof value === "string"`. -/
def nullable? : Option Json → Option (Option String)
  | some .null => some none
  | value => (string? value).map some

/-- The value, or the error thrown without it. -/
def require {α : Type*} (value : Option α) (error : SessionError) : Except SessionError α := value.elim (.error error) .ok

/-- `parseHeaderLine`. -/
def parseHeaderLine (line : Text) (filePath : String) : Except SessionError SessionHeader :=
  match line.filter (· ≠ .blank) with
  | [.record r] =>
    if r.type ≠ some (.str "session") then .error (invalidSession filePath "first line is not a valid session header")
    else if r.version ≠ some (.num 3) then .error (invalidSession filePath "unsupported session version")
    else do
      let id ← require (filled? r.id) (invalidSession filePath "session header is missing id")
      let timestamp ← require (filled? r.timestamp) (invalidSession filePath "session header is missing timestamp")
      let cwd ← require (filled? r.cwd) (invalidSession filePath "session header is missing cwd")
      let parentSession ← match r.parentSession with
        | none => .ok none
        | some value =>
          require ((string? value).map some) (invalidSession filePath "session header parentSession must be a string")
      return ⟨id, timestamp, cwd, parentSession⟩
  | _ => .error (invalidSession filePath "first line is not a valid session header")

/-- `parseEntryLine`. -/
def parseEntryLine (line : Text) (filePath : String) (lineNumber : ℕ) : Except SessionError TreeEntry :=
  match line.filter (· ≠ .blank) with
  | [.record r] => do
    let type ← require (string? r.type) (invalidEntry filePath lineNumber "is missing entry type")
    let id ← require (filled? r.id) (invalidEntry filePath lineNumber "is missing entry id")
    let parentId ← require (nullable? r.parentId) (invalidEntry filePath lineNumber "has invalid parentId")
    let timestamp ← require (filled? r.timestamp) (invalidEntry filePath lineNumber "is missing timestamp")
    if type = "leaf" then
      let targetId ← require (nullable? r.targetId) (invalidEntry filePath lineNumber "has invalid targetId")
      return ⟨id, parentId, timestamp, .leaf targetId⟩
    else return ⟨id, parentId, timestamp, r.body⟩
  | [.other] => .error (invalidEntry filePath lineNumber "is not a valid session entry")
  | _ => .error (invalidEntry filePath lineNumber "is not valid JSON")

/-- The loop of `loadJsonlStorage`, from the line with the given number on. -/
def loadEntries (filePath : String) : ℕ → List Text → Except SessionError (List TreeEntry)
  | _, [] => .ok []
  | lineNumber, line :: lines => do
    let entry ← parseEntryLine line filePath lineNumber
    let entries ← loadEntries filePath (lineNumber + 1) lines
    return entry :: entries

/-- `loadJsonlStorage`; the leaf after the entries is that of `TreeStorage.ofEntries`. -/
def loadJsonlStorage (filePath : String) (content : Except FileError Text) :
    Except SessionError (SessionHeader × List TreeEntry) :=
  match content with
  | .error error => .error (error.thrown ("Failed to read session " ++ filePath))
  | .ok text =>
    match (text.splitOn .newline).filter (fun line => !line.all (· = .blank)) with
    | [] => .error (invalidSession filePath "missing session header")
    | first :: rest => do
      let header ← parseHeaderLine first filePath
      let entries ← loadEntries filePath 2 rest
      return (header, entries)

/-! ### The storage -/

/-- `JsonlSessionMetadata`. -/
structure Metadata where
  id : String
  createdAt : String
  cwd : String
  path : String
  parentSessionPath : Option String
  deriving DecidableEq

/-- `headerToSessionMetadata`. -/
def SessionHeader.toMetadata (h : SessionHeader) (path : String) : Metadata :=
  ⟨h.id, h.timestamp, h.cwd, path, h.parentSession⟩

/-- The fields of `JsonlSessionStorage`; its `filePath` is the path of the metadata. -/
structure Storage where
  metadata : Metadata
  tree : TreeStorage

/-- `JsonlSessionStorage.open`. -/
def openStorage (filePath : String) (content : Except FileError Text) : Except SessionError Storage := do
  let (header, entries) ← loadJsonlStorage filePath content
  return ⟨header.toMetadata filePath, .ofEntries entries⟩

/-- How a write to the file comes out: in full, or with an error after a part of it. -/
inductive FileWrite
  | done
  | failed (error : FileError) (part : Text)

/-- A storage and its file. -/
structure Session where
  storage : Storage
  file : Text

/-- The options of `JsonlSessionStorage.create`. -/
structure CreateOptions where
  cwd : String
  sessionId : String
  parentSessionPath : Option String

/-- The header of `JsonlSessionStorage.create`. -/
def CreateOptions.header (options : CreateOptions) (now : IsoTime) : SessionHeader :=
  ⟨options.sessionId, now.text, options.cwd, options.parentSessionPath⟩

/-- `JsonlSessionStorage.create`. -/
def create (filePath : String) (options : CreateOptions) (now : IsoTime) : FileWrite → Except SessionError Session
  | .failed error _ => .error (error.thrown ("Failed to create session " ++ filePath))
  | .done =>
    let header := options.header now
    .ok ⟨⟨header.toMetadata filePath, .ofEntries []⟩, [header.json, .newline]⟩

namespace Session

/-- An entry is written, then taken in as the storage does it. -/
def write (s : Session) (entry : TreeEntry) (message : String) (tree : TreeStorage) :
    FileWrite → Session × StorageAnswer
  | .failed error part => ({ s with file := s.file ++ part }, some (.error (error.thrown message)))
  | .done => (⟨{ s.storage with tree }, s.file ++ [entryJson entry, .newline]⟩, some (.ok .done))

/-- `appendEntry`. -/
def appendEntry (s : Session) (entry : TreeEntry) (w : FileWrite) : Session × StorageAnswer :=
  s.write entry ("Failed to append session entry " ++ entry.id) (s.storage.tree.appendEntry entry) w

/-- `setLeafId`. -/
def setLeafId (s : Session) (leafId : Option String) (uuids : UuidState) (draws : ℕ → UuidDraw) (now : IsoTime)
    (w : FileWrite) : Session × StorageAnswer :=
  match s.storage.tree.missingLeaf leafId with
  | some id => (s, some (.error (entryNotFound id)))
  | none =>
    let entry := s.storage.tree.leafEntry leafId uuids draws now
    s.write entry ("Failed to append session leaf " ++ entry.id) (s.storage.tree.moveLeaf entry leafId) w

/-- An operation of `JsonlSessionStorage`, with what comes of the write if there is one. -/
def perform (s : Session) : StorageOp × FileWrite → Session × StorageAnswer
  | (.appendEntry entry, w) => s.appendEntry entry w
  | (.setLeafId leafId uuids draws now, w) => s.setLeafId leafId uuids draws now w
  | (.read read, _) => (s, s.storage.tree.answer read)

end Session

/-! ### Reading what was written -/

/-- The lines of some JSON texts. -/
def jsonLines (tokens : List Token) : Text := tokens.flatMap fun t => [t, .newline]

/-- The fields that `parseEntryLine` wants to be filled. -/
def EntryFilled (e : TreeEntry) : Prop := e.id ≠ "" ∧ e.timestamp ≠ ""

instance (e : TreeEntry) : Decidable (EntryFilled e) := inferInstanceAs (Decidable (_ ∧ _))

/-- The fields that `parseHeaderLine` wants to be filled. -/
def SessionHeader.Filled (h : SessionHeader) : Prop := h.id ≠ "" ∧ h.timestamp ≠ "" ∧ h.cwd ≠ ""

theorem jsonLines_concat (tokens : List Token) (t : Token) :
    jsonLines (tokens ++ [t]) = jsonLines tokens ++ [t, .newline] := by
  rw [jsonLines, List.flatMap_append]
  rfl

theorem lines_jsonLines : ∀ {tokens : List Token}, (∀ t ∈ tokens, t ≠ .newline ∧ t ≠ .blank) →
    ((jsonLines tokens).splitOn .newline).filter (fun line => !line.all (· = .blank)) = tokens.map ([·])
  | [], _ => by rfl
  | t :: tokens, h => by
    obtain ⟨hline, hblank⟩ := h t List.mem_cons_self
    have ih := lines_jsonLines fun x hx => h x (List.mem_cons_of_mem t hx)
    have hsplit : (jsonLines (t :: tokens)).splitOn .newline = [t] :: (jsonLines tokens).splitOn .newline :=
      List.splitOn_append_cons_self_of_not_mem (fun hm => hline (List.mem_singleton.mp hm).symm) (jsonLines tokens)
    rw [hsplit, List.filter_cons_of_pos (by simp [hblank]), ih, List.map_cons]

theorem entryJson_ne (e : TreeEntry) : entryJson e ≠ .newline ∧ entryJson e ≠ .blank :=
  ⟨Token.noConfusion, Token.noConfusion⟩

@[simp] theorem filled?_str (s : String) : filled? (some (.str s)) = if s = "" then none else some s := by
  by_cases h : s = ""
  · rw [if_pos h, h]
    rfl
  · rw [if_neg h, filled?, string?, Option.filter_some, if_pos (by simpa using h)]

@[simp] theorem nullable?_nullable (value : Option String) : nullable? (some (nullable value)) = some value := by
  cases value <;> rfl

/-- A header is read back if its fields are filled. -/
theorem parseHeaderLine_json {h : SessionHeader} (hfilled : h.Filled) (filePath : String) :
    parseHeaderLine [h.json] filePath = .ok h := by
  obtain ⟨hid, htimestamp, hcwd⟩ := hfilled
  obtain ⟨id, timestamp, cwd, parentSession⟩ := h
  cases parentSession <;>
    simp [parseHeaderLine, SessionHeader.json, require, string?, if_neg hid, if_neg htimestamp, if_neg hcwd] <;> rfl

theorem parseHeaderLine_json_error {h : SessionHeader} (hfilled : ¬ h.Filled) (filePath : String) :
    ∃ error, parseHeaderLine [h.json] filePath = .error error := by
  by_cases hid : h.id = ""
  · exact ⟨_, by simp [parseHeaderLine, SessionHeader.json, require, hid]; rfl⟩
  by_cases htimestamp : h.timestamp = ""
  · exact ⟨_, by simp [parseHeaderLine, SessionHeader.json, require, htimestamp, if_neg hid]; rfl⟩
  by_cases hcwd : h.cwd = ""
  · exact ⟨_, by simp [parseHeaderLine, SessionHeader.json, require, hcwd, if_neg hid, if_neg htimestamp]; rfl⟩
  exact absurd ⟨hid, htimestamp, hcwd⟩ hfilled

/-- An entry is read back if its fields are filled. -/
theorem parseEntryLine_json {e : TreeEntry} (hfilled : EntryFilled e) (filePath : String) (lineNumber : ℕ) :
    parseEntryLine [entryJson e] filePath lineNumber = .ok e := by
  obtain ⟨hid, htimestamp⟩ := hfilled
  obtain ⟨id, parentId, timestamp, body⟩ := e
  cases body <;>
    simp [parseEntryLine, entryJson, require, string?, TreeBody.type, if_neg hid, if_neg htimestamp] <;> rfl

theorem parseEntryLine_json_error {e : TreeEntry} (hfilled : ¬ EntryFilled e) (filePath : String) (lineNumber : ℕ) :
    ∃ error, parseEntryLine [entryJson e] filePath lineNumber = .error error := by
  by_cases hid : e.id = ""
  · exact ⟨_, by simp [parseEntryLine, entryJson, require, string?, hid]; rfl⟩
  by_cases htimestamp : e.timestamp = ""
  · exact ⟨_, by simp [parseEntryLine, entryJson, require, string?, htimestamp, if_neg hid]; rfl⟩
  exact absurd ⟨hid, htimestamp⟩ hfilled

theorem loadEntries_json (filePath : String) : ∀ (lineNumber : ℕ) {entries : List TreeEntry},
    (∀ e ∈ entries, EntryFilled e) → loadEntries filePath lineNumber (entries.map fun e => [entryJson e]) = .ok entries
  | _, [], _ => rfl
  | lineNumber, e :: entries, h => by
    rw [List.map_cons, loadEntries, parseEntryLine_json (h e List.mem_cons_self)]
    change (loadEntries filePath (lineNumber + 1) (entries.map fun e => [entryJson e])).bind _ = _
    rw [loadEntries_json filePath (lineNumber + 1) fun x hx => h x (List.mem_cons_of_mem e hx)]
    rfl

theorem loadEntries_json_error (filePath : String) : ∀ (lineNumber : ℕ) {entries : List TreeEntry},
    ¬ (∀ e ∈ entries, EntryFilled e) →
    ∃ error, loadEntries filePath lineNumber (entries.map fun e => [entryJson e]) = .error error
  | _, [], h => absurd (fun _ he => nomatch he) h
  | lineNumber, e :: entries, h => by
    rw [List.map_cons, loadEntries]
    by_cases he : EntryFilled e
    · have hrest : ¬ ∀ x ∈ entries, EntryFilled x := fun hx => h (List.forall_mem_cons.mpr ⟨he, hx⟩)
      obtain ⟨error, herror⟩ := loadEntries_json_error filePath (lineNumber + 1) hrest
      refine ⟨error, ?_⟩
      rw [parseEntryLine_json he]
      change (loadEntries filePath (lineNumber + 1) (entries.map fun e => [entryJson e])).bind _ = _
      rw [herror]
      rfl
    · obtain ⟨error, herror⟩ := parseEntryLine_json_error he filePath lineNumber
      exact ⟨error, by rw [herror]; rfl⟩

/-- The text of a header and entries. -/
def fileText (header : SessionHeader) (entries : List TreeEntry) : Text :=
  jsonLines (header.json :: entries.map entryJson)

theorem lines_fileText (header : SessionHeader) (entries : List TreeEntry) :
    ((fileText header entries).splitOn .newline).filter (fun line => !line.all (· = .blank)) =
      [header.json] :: entries.map fun e => [entryJson e] := by
  rw [fileText, lines_jsonLines, List.map_cons, List.map_map]
  · rfl
  · intro t ht
    rcases List.mem_cons.mp ht with rfl | ht
    · exact ⟨Token.noConfusion, Token.noConfusion⟩
    · obtain ⟨e, -, rfl⟩ := List.mem_map.mp ht
      exact entryJson_ne e

/-- A file whose header and entries are filled gives the storage of the entries. -/
theorem openStorage_fileText {header : SessionHeader} {entries : List TreeEntry} (hheader : header.Filled)
    (hentries : ∀ e ∈ entries, EntryFilled e) (filePath : String) :
    openStorage filePath (.ok (fileText header entries)) =
      .ok ⟨header.toMetadata filePath, .ofEntries entries⟩ := by
  rw [openStorage, loadJsonlStorage]
  simp only [lines_fileText, parseHeaderLine_json hheader, loadEntries_json filePath 2 hentries]
  rfl

/-- Any other such file cannot be opened. -/
theorem openStorage_fileText_error {header : SessionHeader} {entries : List TreeEntry}
    (h : ¬ (header.Filled ∧ ∀ e ∈ entries, EntryFilled e)) (filePath : String) :
    ∃ error, openStorage filePath (.ok (fileText header entries)) = .error error := by
  rw [openStorage, loadJsonlStorage]
  simp only [lines_fileText]
  by_cases hheader : header.Filled
  · obtain ⟨error, herror⟩ := loadEntries_json_error filePath 2 fun hentries => h ⟨hheader, hentries⟩
    rw [parseHeaderLine_json hheader, herror]
    exact ⟨error, rfl⟩
  · obtain ⟨error, herror⟩ := parseHeaderLine_json_error hheader filePath
    rw [herror]
    exact ⟨error, rfl⟩

/-! ### The file of a run -/

namespace Session

variable {s : Session} {header : SessionHeader} {filePath : String}

/-- The file holds the header and the entries, and the storage is that of the entries. -/
structure Written (header : SessionHeader) (filePath : String) (s : Session) : Prop where
  metadata : s.storage.metadata = header.toMetadata filePath
  file : s.file = fileText header s.storage.tree.entries
  tree : s.storage.tree = .ofEntries s.storage.tree.entries

/-- A write leaves nothing in the file when it fails. -/
def Clean : FileWrite → Prop
  | .done => True
  | .failed _ part => part = []

/-- An entry that is written and appended keeps the file and the storage together. -/
theorem Written.write (h : s.Written header filePath) (entry : TreeEntry) (message : String) {w : FileWrite}
    (hw : Clean w) : (s.write entry message (s.storage.tree.appendEntry entry) w).1.Written header filePath := by
  cases w with
  | failed error part =>
    obtain rfl : part = [] := hw
    refine ⟨h.metadata, ?_, h.tree⟩
    rw [Session.write, List.append_nil, h.file]
  | done =>
    refine ⟨h.metadata, ?_, ?_⟩
    · change s.file ++ _ = jsonLines (header.json :: (s.storage.tree.entries ++ [entry]).map entryJson)
      rw [List.map_append, ← List.cons_append, List.map_singleton, jsonLines_concat, h.file]
      rfl
    · change s.storage.tree.appendEntry entry = .ofEntries (s.storage.tree.entries ++ [entry])
      rw [TreeStorage.ofEntries_concat, ← h.tree]

theorem Written.perform (h : s.Written header filePath) {input : StorageOp × FileWrite} (hclean : Clean input.2) :
    (s.perform input).1.Written header filePath := by
  obtain ⟨op, w⟩ := input
  cases op with
  | appendEntry entry => exact h.write entry _ hclean
  | setLeafId leafId uuids draws now =>
    rw [Session.perform, setLeafId]
    split
    · exact h
    · simp only [TreeStorage.moveLeaf_eq]
      exact h.write _ _ hclean
  | read read => exact h

/-- The entries of a run are filled if those that are appended are: the entry of a leaf
always is. -/
theorem filled_final : ∀ (inputs : List (StorageOp × FileWrite)) (s : Session),
    (∀ e ∈ (Mealy.final perform s inputs).storage.tree.entries, EntryFilled e) ↔
      (∀ e ∈ s.storage.tree.entries, EntryFilled e) ∧
      ∀ e, (StorageOp.appendEntry e, FileWrite.done) ∈ inputs → EntryFilled e
  | [], s => (and_iff_left fun _ he => nomatch he).symm
  | input :: inputs, s => by
    rw [Mealy.final, filled_final inputs]
    have hconcat : ∀ x : TreeEntry, (∀ e ∈ s.storage.tree.entries ++ [x], EntryFilled e) ↔
        (∀ e ∈ s.storage.tree.entries, EntryFilled e) ∧ EntryFilled x := fun x => by
      simp only [List.mem_append, List.mem_singleton, or_imp, forall_and, forall_eq]
    obtain ⟨op, w⟩ := input
    cases op with
    | appendEntry entry =>
      cases w with
      | failed error part =>
        simp only [List.mem_cons, Prod.mk.injEq, reduceCtorEq, and_false, false_or]
        rfl
      | done =>
        have hmem : ∀ e, (StorageOp.appendEntry e, FileWrite.done) ∈ (.appendEntry entry, .done) :: inputs ↔
            e = entry ∨ (StorageOp.appendEntry e, FileWrite.done) ∈ inputs := fun e => by
          simp only [List.mem_cons, Prod.mk.injEq, StorageOp.appendEntry.injEq, and_true]
        simp only [hmem, or_imp, forall_and, forall_eq]
        rw [← and_assoc]
        exact and_congr_left fun _ => hconcat entry
    | setLeafId leafId uuids draws now =>
      simp only [List.mem_cons, Prod.mk.injEq, reduceCtorEq, false_and, false_or]
      refine and_congr_left fun _ => ?_
      rw [perform, setLeafId]
      split
      · exact Iff.rfl
      · cases w with
        | failed error part => exact Iff.rfl
        | done => exact (hconcat _).trans (and_iff_left ⟨generateEntryId_ne_empty _ _ _, now.nonempty⟩)
    | read read =>
      simp only [List.mem_cons, Prod.mk.injEq, reduceCtorEq, false_and, false_or]
      rfl

/-! ### Refinement -/

/-- The operation that the storage in memory performs: the same, unless its write failed. -/
def succeeded : StorageOp × FileWrite → Option StorageOp
  | (.read read, _) => some (.read read)
  | (op, .done) => some op
  | (_, .failed _ _) => none

/-- An operation does and answers what it does and answers in memory. -/
theorem perform_of_succeeded {input : StorageOp × FileWrite} {op : StorageOp} (h : succeeded input = some op) :
    (s.perform input).1.storage.tree = (s.storage.tree.perform op).1 ∧
      (s.perform input).2 = (s.storage.tree.perform op).2 := by
  obtain ⟨op', w⟩ := input
  cases op' with
  | appendEntry entry =>
    cases w with
    | failed error part => cases h
    | done =>
      obtain rfl := Option.some.inj h
      exact ⟨rfl, rfl⟩
  | setLeafId leafId uuids draws now =>
    cases w with
    | failed error part => cases h
    | done =>
      obtain rfl := Option.some.inj h
      simp only [Session.perform, setLeafId, TreeStorage.perform]
      split
      · exact ⟨rfl, rfl⟩
      · exact ⟨rfl, rfl⟩
  | read read =>
    obtain rfl := Option.some.inj h
    exact ⟨rfl, rfl⟩

/-- An operation whose write fails throws and leaves the storage as it was. -/
theorem perform_of_failed {input : StorageOp × FileWrite} (h : succeeded input = none) :
    (s.perform input).1.storage = s.storage ∧ ∃ error, (s.perform input).2 = some (.error error) := by
  obtain ⟨op, w⟩ := input
  cases op with
  | appendEntry entry =>
    cases w with
    | failed error part => exact ⟨rfl, _, rfl⟩
    | done => cases h
  | setLeafId leafId uuids draws now =>
    cases w with
    | failed error part =>
      rw [Session.perform, setLeafId]
      split
      · exact ⟨rfl, _, rfl⟩
      · exact ⟨rfl, _, rfl⟩
    | done => cases h
  | read read => cases h

end Session

open Session in
/-- **A new storage answers every sequence of operations as the storage in memory answers those
that were written. An operation whose write fails leaves the storage as it is. The file gives
that storage again, as long as failed writes left nothing in it, just if the id and the
directory of the session and the id and time of every entry that was appended are not empty.** -/
theorem run_refines (filePath : String) (options : CreateOptions) (now : IsoTime)
    (inputs : List (StorageOp × FileWrite)) :
    ∃ created, create filePath options now .done = .ok created ∧
      Mealy.seen succeeded (Mealy.trace perform created inputs) =
        Mealy.trace TreeStorage.perform (.ofEntries []) (inputs.filterMap succeeded) ∧
      (∀ input, succeeded input = none →
        ((Mealy.final perform created inputs).perform input).1.storage = (Mealy.final perform created inputs).storage ∧
        ∃ error, ((Mealy.final perform created inputs).perform input).2 = some (.error error)) ∧
      ((∀ input ∈ inputs, Clean input.2) →
        let filled := (options.sessionId ≠ "" ∧ options.cwd ≠ "") ∧
          ∀ e, (StorageOp.appendEntry e, FileWrite.done) ∈ inputs → e.id ≠ "" ∧ e.timestamp ≠ ""
        let reopened := openStorage filePath (.ok (Mealy.final perform created inputs).file)
        (filled → reopened = .ok (Mealy.final perform created inputs).storage) ∧
          (¬ filled → ∃ error, reopened = .error error)) := by
  refine ⟨_, rfl, ?_, fun input hinput => perform_of_failed hinput, fun hclean => ?_⟩
  · refine (Mealy.refines (R := fun s t => s.storage.tree = t) ?_ ?_ inputs rfl).2
    · rintro s _ input op rfl hop
      exact perform_of_succeeded hop
    · rintro s _ input rfl hfailed
      exact congrArg Storage.tree (perform_of_failed hfailed).1
  · set created : Session := ⟨⟨(options.header now).toMetadata filePath, .ofEntries []⟩, _⟩
    have hcreated : created.Written (options.header now) filePath := ⟨rfl, rfl, rfl⟩
    have hfinal : (Mealy.final perform created inputs).Written (options.header now) filePath :=
      Mealy.inv_final_of_mem inputs (fun _ input hi h => h.perform (hclean input hi)) hcreated
    have hentries := filled_final inputs created
    have hheader : (options.header now).Filled ↔ options.sessionId ≠ "" ∧ options.cwd ≠ "" :=
      ⟨fun h => ⟨h.1, h.2.2⟩, fun h => ⟨h.1, now.nonempty, h.2⟩⟩
    rw [and_iff_right fun e he => nomatch he] at hentries
    intro filled reopened
    have hfilled : filled ↔ (options.header now).Filled ∧
        ∀ e ∈ (Mealy.final perform created inputs).storage.tree.entries, EntryFilled e :=
      (and_congr hheader hentries).symm
    constructor
    · intro h
      obtain ⟨hh, he⟩ := hfilled.mp h
      change openStorage filePath (.ok (Mealy.final perform created inputs).file) = _
      rw [hfinal.file, openStorage_fileText hh he, ← hfinal.metadata, ← hfinal.tree]
    · intro h
      change ∃ error, openStorage filePath (.ok (Mealy.final perform created inputs).file) = .error error
      rw [hfinal.file]
      exact openStorage_fileText_error (fun hne => h (hfilled.mpr hne)) filePath

/-- An entry, its label, and the leaf moved back to the entry. -/
def labelled : List (StorageOp × FileWrite) :=
  [(.appendEntry ⟨"a", none, "now", .sessionInfo (some "s")⟩, .done),
    (.appendEntry ⟨"b", some "a", "now", .label "a" (some "x")⟩, .done),
    (.setLeafId (some "a") .initial (fun _ => ⟨0, fun _ => 0⟩) ⟨"now", by decide⟩, .done)]

/-- That session is opened again as it was. -/
theorem labelled_reopened :
    ∃ created, create "s.jsonl" ⟨"/", "s", none⟩ ⟨"now", by decide⟩ .done = .ok created ∧
      openStorage "s.jsonl" (.ok (Mealy.final Session.perform created labelled).file) =
        .ok (Mealy.final Session.perform created labelled).storage := by
  obtain ⟨created, hcreated, -, -, hfile⟩ :=
    run_refines "s.jsonl" ⟨"/", "s", none⟩ ⟨"now", by decide⟩ labelled
  refine ⟨created, hcreated, (hfile ?_).1 ⟨by decide, ?_⟩⟩
  · simp [labelled, Session.Clean]
  · simp [labelled]

/-- A session that has taken in an entry without an id cannot be opened again. -/
theorem reopen_missing_id :
    ∃ created inputs, create "s.jsonl" ⟨"/", "s", none⟩ ⟨"now", by decide⟩ .done = .ok created ∧
      inputs = [(StorageOp.appendEntry ⟨"", none, "now", .sessionInfo none⟩, FileWrite.done)] ∧
      (Mealy.trace Session.perform created inputs).map Prod.snd = [some (.ok .done)] ∧
      openStorage "s.jsonl" (.ok (Mealy.final Session.perform created inputs).file) =
        .error ⟨.invalidEntry, "Invalid JSONL session file s.jsonl: line 2 is missing entry id"⟩ :=
  ⟨_, _, rfl, rfl, rfl, rfl⟩

end Jsonl

end Trek
