/-
# The session manager

`SessionManager` of `core/session-manager.ts`: the entries of a session as an
append-only tree, the leaf the next entry goes under, the labels, and the
session file on disk. An operation takes what it draws from outside (UUIDs,
the clock) as an argument and returns the next state with the error it throws,
if it throws one: a write that fails throws after the entry is in memory.

A file is a list of tokens. `JSON.stringify` of an entry is one token, and
`JSON.parse` of a line gives the entry back if that token is all the line holds
besides blanks; two entries on one line, or an entry next to other text, are
not JSON. Paths are resolved already.
-/
import Trek.Session.Entry
import Trek.Lib.Text

namespace Trek

/-! ### Ids -/

/-- What `randomUUID()` returns: a text of 36 characters. -/
structure Uuid where
  text : String
  length_eq : text.length = 36

/-- `uuid.slice(0, 8)`. -/
def Uuid.short (u : Uuid) : String := String.ofList (u.text.toList.take 8)

/-- `generateId`. `uuids i` is what the `i`-th call of `randomUUID()` returns. -/
def generateId (has : String → Bool) (uuids : ℕ → Uuid) : String :=
  match (List.range 100).find? fun i => !has (uuids i).short with
  | some i => (uuids i).short
  | none => (uuids 100).text

/-- What an operation draws from outside: the UUIDs of its `k`-th `generateId`,
the time, and the id of a new session. -/
structure Draws where
  uuids : ℕ → ℕ → Uuid
  now : String
  sessionId : String

/-! ### Files -/

/-- A piece of a file: the JSON of an entry, a line break, white space within a
line, or text that is neither. -/
inductive FileToken
  | json (e : FileEntry)
  | newline
  | blank
  | junk
  deriving DecidableEq

abbrev FileText := List FileToken

/-- The files by path. -/
abbrev Disk := String → Option FileText

/-- `${JSON.stringify(entry)}\n` of each entry. -/
def jsonLines (es : List FileEntry) : FileText := es.flatMap fun e => [.json e, .newline]

/-- The lines of a text: what stands between its line breaks, and after the
last one. -/
def lines : FileText → List FileText
  | [] => [[]]
  | .newline :: ts => [] :: lines ts
  | t :: ts =>
    match lines ts with
    | l :: ls => (t :: l) :: ls
    | [] => [[t]]

/-- `parseSessionEntryLine`: blank and malformed lines give nothing. -/
def parseSessionEntryLine (line : FileText) : Option FileEntry :=
  match line.filter (· ≠ .blank) with
  | [.json e] => some e
  | _ => none

/-- The entries of all lines. -/
def parseLines (text : FileText) : List FileEntry := (lines text).filterMap parseSessionEntryLine

/-- `loadEntriesFromFile`: nothing if the first entry is no header. -/
def loadEntriesFromFile (disk : Disk) (path : String) : List FileEntry :=
  match disk path with
  | none => []
  | some text =>
    match parseLines text with
    | .session h :: es => .session h :: es
    | _ => []

/-! ### The state -/

def CURRENT_SESSION_VERSION : ℕ := 3

/-- The fields of `SessionManager`. `appendFd` is the path of the file that is
open for appending. -/
structure SessionManager where
  sessionId : String
  sessionFile : Option String
  sessionDir : String
  cwd : String
  persist : Bool
  flushed : Bool
  hasAssistant : Bool
  appendFd : Option String
  fileEntries : List FileEntry
  byId : OrdMap String SessionEntry
  labelsById : OrdMap String String
  labelTimestampsById : OrdMap String String
  leafId : Option String

/-- A manager and the disk it writes to. -/
structure World where
  manager : SessionManager
  disk : Disk

namespace SessionManager

/-- `getEntries`. -/
def entries (m : SessionManager) : List SessionEntry := sessionEntries m.fileEntries

/-- `buildSessionContext()` of the manager. -/
def context (getTime : String → ℤ) (m : SessionManager) : Option SessionContext :=
  buildSessionContext getTime m.entries (some m.leafId) m.byId

/-- `getBranch(fromId)`. -/
def getBranch (m : SessionManager) (fromId : Option String) : Option (List SessionEntry) :=
  match fromId.or m.leafId with
  | none => some []
  | some id =>
    match if truthy id then m.byId.get? id else none with
    | none => some []
    | some e => pathToRoot m.byId e

/-- `_closeAppendFd`. -/
def closeAppendFd (m : SessionManager) : SessionManager := { m with appendFd := none }

/-- Sets or clears the label of an entry. -/
def recordLabel (m : SessionManager) (targetId : String) (label : Option String) (timestamp : String) :
    SessionManager :=
  match label.filter truthy with
  | some l =>
    { m with
      labelsById := m.labelsById.set targetId l
      labelTimestampsById := m.labelTimestampsById.set targetId timestamp }
  | none =>
    { m with
      labelsById := m.labelsById.delete targetId
      labelTimestampsById := m.labelTimestampsById.delete targetId }

/-- What `_appendEntries` and `_buildIndex` both do with an entry. -/
def noteEntry (m : SessionManager) (e : SessionEntry) : SessionManager :=
  { m with
    byId := m.byId.set e.id e
    leafId := some e.id
    hasAssistant := m.hasAssistant || e.isAssistant }

/-- An entry in the loop of `_buildIndex`. -/
def indexEntry (m : SessionManager) (e : SessionEntry) : SessionManager :=
  match e.body with
  | .label targetId label => (m.noteEntry e).recordLabel targetId label e.timestamp
  | _ => m.noteEntry e

/-- `_buildIndex`. -/
def buildIndex (m : SessionManager) : SessionManager :=
  m.entries.foldl indexEntry
    { m with
      byId := .empty
      labelsById := .empty
      labelTimestampsById := .empty
      leafId := none
      hasAssistant := false }

end SessionManager

/-- `join(dir, fileTimestamp_id.jsonl)`. -/
def sessionFilePath (dir timestamp id : String) : String :=
  dir ++ "/" ++ String.ofList (timestamp.toList.map fun c => if c = ':' ∨ c = '.' then '-' else c) ++
    "_" ++ id ++ ".jsonl"

/-- The check of `assertValidSessionId`. -/
def validSessionId (id : String) : Bool :=
  match id.toList with
  | [] => false
  | c :: cs =>
    isAlnum c && isAlnum ((c :: cs).getLast (by simp)) &&
      (c :: cs).all fun c => isAlnum c || c = '.' || c = '_' || c = '-'

/-- The text of the error for a malformed session id. -/
def invalidSessionId : String :=
  "Session id must be non-empty, contain only alphanumeric characters, '-', '_', and '.', and start and end with an alphanumeric character"

/-- The fields before the constructor has run. -/
def SessionManager.blank (cwd sessionDir : String) (persist : Bool) : SessionManager :=
  { sessionId := ""
    sessionFile := none
    sessionDir := sessionDir
    cwd := cwd
    persist := persist
    flushed := false
    hasAssistant := false
    appendFd := none
    fileEntries := []
    byId := .empty
    labelsById := .empty
    labelTimestampsById := .empty
    leafId := none }

namespace World

variable (w : World) (d : Draws)

/-- `newSession(options)`. -/
def newSession (id parentSession : Option String) : World × Option String :=
  let m := w.manager.closeAppendFd
  if id.all validSessionId then
    let sessionId := id.getD d.sessionId
    ({ w with manager := { m with
        sessionId := sessionId
        fileEntries := [.session ⟨some CURRENT_SESSION_VERSION, sessionId, d.now, m.cwd, parentSession⟩]
        byId := .empty
        labelsById := .empty
        leafId := none
        flushed := false
        hasAssistant := false
        sessionFile := if m.persist then some (sessionFilePath m.sessionDir d.now sessionId) else m.sessionFile } },
      none)
  else ({ w with manager := m }, some invalidSessionId)

/-- `SessionManager.create(cwd, sessionDir)`, or `inMemory(cwd)` if `persist` is false. -/
def create (disk : Disk) (cwd sessionDir : String) (persist : Bool) : World :=
  (newSession ⟨.blank cwd sessionDir persist, disk⟩ d none none).1

/-- `_rewriteFile`. -/
def rewriteFile : World :=
  if w.manager.persist then
    match w.manager.sessionFile with
    | none => w
    | some path =>
      ⟨w.manager.closeAppendFd, Function.update w.disk path (some (jsonLines w.manager.fileEntries))⟩
  else w

/-- `_writeJsonlChunk` of the lines of some entries. -/
def writeJsonlChunk (es : List SessionEntry) : World :=
  match w.manager.sessionFile with
  | none => w
  | some path =>
    let fd := w.manager.appendFd.getD path
    ⟨{ w.manager with appendFd := some fd },
      Function.update w.disk fd (some ((w.disk fd).getD [] ++ jsonLines (es.map .entry)))⟩

/-- The timer of `_writeJsonlChunk` closes the file, or `dispose` does. -/
def closeFile : World := { w with manager := w.manager.closeAppendFd }

/-- `_persistBatch`. Creating the file fails if it exists (`openSync(…, "wx")`). -/
def persistBatch (es : List SessionEntry) : World × Option String :=
  match w.manager.persist, w.manager.sessionFile, es with
  | false, _, _ => (w, none)
  | _, none, _ => (w, none)
  | _, _, [] => (w, none)
  | true, some path, es =>
    if w.manager.hasAssistant then
      if w.manager.flushed then (w.writeJsonlChunk es, none)
      else
        let w := w.closeFile
        match w.disk path with
        | some _ => (w, some s!"EEXIST: file already exists, open '{path}'")
        | none =>
          (⟨{ w.manager with flushed := true },
            Function.update w.disk path (some (jsonLines w.manager.fileEntries))⟩, none)
    else if w.manager.flushed then (w.writeJsonlChunk es, none)
    else (w, none)

/-- An entry in the loop of `_appendEntries`. -/
def pushEntry (m : SessionManager) (e : SessionEntry) : SessionManager :=
  { m.noteEntry e with fileEntries := m.fileEntries ++ [.entry e] }

/-- `_appendEntries`. -/
def appendEntries (es : List SessionEntry) : World × Option String :=
  { w with manager := es.foldl pushEntry w.manager }.persistBatch es

/-- The entry with a given body that the next append makes. -/
def newEntry (body : EntryBody) : SessionEntry :=
  ⟨generateId w.manager.byId.has (d.uuids 0), w.manager.leafId, d.now, body⟩

/-- `_appendEntry` of a new entry: what `appendMessage`, `appendModelChange`
and the other append methods do with their own body. -/
def appendBody (body : EntryBody) : World × Option String := w.appendEntries [w.newEntry d body]

def appendMessage (message : AgentMessage) : World × Option String :=
  w.appendBody d (.message message)

def appendThinkingLevelChange (thinkingLevel : String) : World × Option String :=
  w.appendBody d (.thinkingLevelChange thinkingLevel)

def appendModelChange (provider modelId : String) : World × Option String :=
  w.appendBody d (.modelChange provider modelId)

def appendCompaction (summary firstKeptEntryId : String) (tokensBefore : ℕ) (details : Option Json)
    (fromHook : Option Bool) : World × Option String :=
  w.appendBody d (.compaction summary firstKeptEntryId tokensBefore details fromHook none)

def appendSessionInfo (name : String) : World × Option String :=
  w.appendBody d (.sessionInfo (some (jsTrim name)))

def appendPromptMeta (promptNumber : ℕ) (promptId : String) (preview : Option String) :
    World × Option String :=
  w.appendBody d (.promptMeta promptNumber promptId preview)

def appendCustomMessageEntry (customType : String) (content : UserContent) (display : Bool)
    (details : Option Json) : World × Option String :=
  w.appendBody d (.customMessage customType content details display)

/-- New entries with the given times and bodies, each under the one before. `k`
is the number of ids drawn so far, `reserved` the ids in use. -/
def chainEntries (d : Draws) : ℕ → List String → Option String → List (String × EntryBody) →
    List SessionEntry
  | _, _, _, [] => []
  | k, reserved, parentId, (timestamp, body) :: items =>
    let id := generateId (fun s => s ∈ reserved) (d.uuids k)
    ⟨id, parentId, timestamp, body⟩ :: chainEntries d (k + 1) (reserved ++ [id]) (some id) items

/-- The entries `appendCustomEntries` makes. -/
def customEntries (records : List (String × Option Json)) : List SessionEntry :=
  chainEntries d 0 w.manager.byId.keys w.manager.leafId
    (records.map fun (customType, data) => (d.now, .custom customType data))

def appendCustomEntries (records : List (String × Option Json)) : World × Option String :=
  w.appendEntries (w.customEntries d records)

/-- The text of the error for an id that is not in the session. -/
def entryNotFound (id : String) : String := s!"Entry {id} not found"

/-- `appendLabelChange`. -/
def appendLabelChange (targetId : String) (label : Option String) : World × Option String :=
  if w.manager.byId.has targetId then
    let e := w.newEntry d (.label targetId label)
    match w.appendEntries [e] with
    | (w, some err) => (w, some err)
    | (w, none) => ({ w with manager := w.manager.recordLabel targetId label e.timestamp }, none)
  else (w, some (entryNotFound targetId))

/-! ### Branching -/

/-- `branch`. -/
def branch (branchFromId : String) : World × Option String :=
  if w.manager.byId.has branchFromId then ({ w with manager := { w.manager with leafId := some branchFromId } }, none)
  else (w, some (entryNotFound branchFromId))

/-- `resetLeaf`. -/
def resetLeaf : World × Option String :=
  ({ w with manager := { w.manager with leafId := none } }, none)

/-- `branchWithSummary`. -/
def branchWithSummary (branchFromId : Option String) (summary : String) (details : Option Json)
    (fromHook : Option Bool) : World × Option String :=
  match branchFromId with
  | some id =>
    if w.manager.byId.has id then
      { w with manager := { w.manager with leafId := some id } }.appendBody d
        (.branchSummary id summary details fromHook)
    else (w, some (entryNotFound id))
  | none =>
    { w with manager := { w.manager with leafId := none } }.appendBody d
      (.branchSummary "root" summary details fromHook)

/-- `labelsToWrite`: the labels of the entries with the given ids. -/
def labelsToWrite (m : SessionManager) (pathEntryIds : List String) : List (String × String × String) :=
  m.labelsById.pairs.filterMap fun (targetId, label) =>
    if targetId ∈ pathEntryIds then some (targetId, label, (m.labelTimestampsById.get? targetId).getD "")
    else none

/-- The label entries that stand for the labels. -/
def labelEntries (pathEntryIds : List String) (lastEntryId : Option String)
    (labels : List (String × String × String)) : List SessionEntry :=
  chainEntries d 0 pathEntryIds lastEntryId
    (labels.map fun (targetId, label, timestamp) => (timestamp, .label targetId (some label)))

/-- `path.filter((e) => e.type !== "label")`. -/
def withoutLabels (path : List SessionEntry) : List SessionEntry := path.filter fun e => !e.isLabel

/-- The new label entries of the session that `createBranchedSession` makes of
a path. -/
def relabels (m : SessionManager) (d : Draws) (path : List SessionEntry) : List SessionEntry :=
  let pathWithoutLabels := withoutLabels path
  let pathEntryIds := pathWithoutLabels.map (·.id)
  let lastEntryId := (pathWithoutLabels.getLast?.map (·.id)).filter truthy
  labelEntries d pathEntryIds lastEntryId (labelsToWrite m pathEntryIds)

/-- The entries of that session. -/
def branchedEntries (m : SessionManager) (d : Draws) (path : List SessionEntry) : List SessionEntry :=
  withoutLabels path ++ relabels m d path

/-- `createBranchedSession`. `none` if the walk to the root does not end. -/
def createBranchedSession (leafId : String) : Option (World × Option String) :=
  let m := w.manager
  match m.getBranch (some leafId) with
  | none => none
  | some [] => some (w, some (entryNotFound leafId))
  | some path =>
    let header : SessionHeader :=
      ⟨some CURRENT_SESSION_VERSION, d.sessionId, d.now, m.cwd, if m.persist then m.sessionFile else none⟩
    let fileEntries := FileEntry.session header :: (branchedEntries m d path).map .entry
    if m.persist then
      let m := { m.closeAppendFd with
        fileEntries := fileEntries
        sessionId := d.sessionId
        sessionFile := some (sessionFilePath m.sessionDir d.now d.sessionId) }.buildIndex
      if m.hasAssistant then
        let w := ({ w with manager := m } : World).rewriteFile
        some ({ w with manager := { w.manager with flushed := true } }, none)
      else some ({ w with manager := { m with flushed := false } }, none)
    else some ({ w with manager := { m with fileEntries := fileEntries, sessionId := d.sessionId }.buildIndex }, none)

end World
end Trek
