/-
# Session entries and the context they build

The entries of a session file (`core/session-manager.ts`) and
`buildSessionContext`: the path from the root to a leaf, and what the language
model is sent for it. An entry that no file field of `id` gave an id to (files
of version 1) has the empty id, which is what the code treats it as.
-/
import Trek.Messages
import Trek.Lib.OrdMap
import Trek.Lib.Lineage

namespace Trek

/-- `if (s)` of a string. -/
def truthy (s : String) : Bool := s ≠ ""

/-! ### Entries -/

/-- What an entry holds besides `id`, `parentId` and `timestamp`, by `type`.
`firstKeptEntryIndex` is the field compactions have in version 1. -/
inductive EntryBody
  | message (message : AgentMessage)
  | thinkingLevelChange (thinkingLevel : String)
  | modelChange (provider modelId : String)
  | compaction (summary firstKeptEntryId : String) (tokensBefore : ℕ) (details : Option Json)
      (fromHook : Option Bool) (firstKeptEntryIndex : Option ℕ)
  | branchSummary (fromId summary : String) (details : Option Json) (fromHook : Option Bool)
  | custom (customType : String) (data : Option Json)
  | customMessage (customType : String) (content : UserContent) (details : Option Json)
      (display : Bool)
  | label (targetId : String) (label : Option String)
  | sessionInfo (name : Option String)
  | promptMeta (promptNumber : ℕ) (promptId : String) (preview : Option String)
  deriving DecidableEq

/-- `SessionEntry`. -/
structure SessionEntry where
  id : String
  parentId : Option String
  timestamp : String
  body : EntryBody
  deriving DecidableEq

/-- `SessionHeader`. -/
structure SessionHeader where
  version : Option ℕ
  id : String
  timestamp : String
  cwd : String
  parentSession : Option String
  deriving DecidableEq

/-- `FileEntry`. -/
inductive FileEntry
  | session (header : SessionHeader)
  | entry (entry : SessionEntry)
  deriving DecidableEq

namespace SessionEntry

/-- `entry.type === "label"`. -/
def isLabel (e : SessionEntry) : Bool :=
  match e.body with
  | .label .. => true
  | _ => false

/-- `entry.type === "compaction"`. -/
def isCompaction (e : SessionEntry) : Bool :=
  match e.body with
  | .compaction .. => true
  | _ => false

/-- `entry.type === "message"`. -/
def isMessage (e : SessionEntry) : Bool :=
  match e.body with
  | .message _ => true
  | _ => false

/-- `entryIsAssistant`. -/
def isAssistant (e : SessionEntry) : Bool :=
  match e.body with
  | .message m => m.isAssistant
  | _ => false

theorem isCompaction_iff {e : SessionEntry} : e.isCompaction = true ↔ ∃ summary firstKeptEntryId tokensBefore details
    fromHook index, e.body = .compaction summary firstKeptEntryId tokensBefore details fromHook index := by
  unfold isCompaction
  cases hb : e.body <;> simp

end SessionEntry

/-- `getEntries`: all but the header. -/
def sessionEntries (fileEntries : List FileEntry) : List SessionEntry :=
  fileEntries.filterMap fun
    | .session _ => none
    | .entry e => some e

/-! ### The path to a leaf -/

/-- `byId`, filled from a list of entries. -/
def indexById (entries : List SessionEntry) : OrdMap String SessionEntry :=
  entries.foldl (fun m e => m.set e.id e) .empty

/-- `entry.parentId ? byId.get(entry.parentId) : undefined`. -/
def parentEntry (byId : OrdMap String SessionEntry) (e : SessionEntry) : Option SessionEntry :=
  match e.parentId with
  | none => none
  | some id => if truthy id then byId.get? id else none

/-- The loop that collects the path from the root to `leaf`. It visits entries
of `byId` after `leaf`, so one that has not ended after `byId.size + 1` of them
never ends (`pathToRoot_eq_some_iff`); it is `none` then. -/
def pathToRoot (byId : OrdMap String SessionEntry) (leaf : SessionEntry) : Option (List SessionEntry) :=
  climb (parentEntry byId) (byId.size + 1) leaf

theorem pathToRoot_eq_some_iff {byId : OrdMap String SessionEntry} {leaf : SessionEntry}
    {path : List SessionEntry} :
    pathToRoot byId leaf = some path ↔ Lineage (parentEntry byId) leaf path := by
  refine climb_eq_some_iff (s := leaf :: byId.values) ?_ (by simp) (by simp [OrdMap.size, OrdMap.values])
  intro x _ y hy
  unfold parentEntry at hy
  split at hy
  · cases hy
  · split at hy
    · exact List.mem_cons_of_mem _ (OrdMap.get?_mem_values hy)
    · cases hy

/-! ### The context -/

/-- `SessionContext`. -/
structure SessionContext where
  messages : List AgentMessage
  thinkingLevel : String
  model : Option (String × String)
  deriving DecidableEq

/-- The context of no entries at all. -/
def SessionContext.empty : SessionContext := ⟨[], "off", none⟩

/-- `thinkingLevel` after the entries of the path. -/
def thinkingLevelOf (path : List SessionEntry) : String :=
  path.foldl (fun t e => match e.body with
    | .thinkingLevelChange l => l
    | _ => t) "off"

/-- `model` after the entries of the path. -/
def modelOf (path : List SessionEntry) : Option (String × String) :=
  path.foldl (fun m e => match e.body with
    | .modelChange p i => some (p, i)
    | .message (.assistant a) => some (a.provider, a.model)
    | _ => m) none

/-- `compaction` after the entries of the path: the last one on it. -/
def lastCompaction (path : List SessionEntry) : Option SessionEntry :=
  path.foldl (fun c e => if e.isCompaction then some e else c) none

section

variable (getTime : String → ℤ)

/-- `appendMessage`: the message an entry of the path puts into the context. -/
def contextMessage (e : SessionEntry) : Option AgentMessage :=
  match e.body with
  | .message m => some m
  | .customMessage t c d disp => some (createCustomMessage getTime t c disp d e.timestamp)
  | .branchSummary f s _ _ => if truthy s then some (createBranchSummaryMessage getTime s f e.timestamp) else none
  | _ => none

/-- The entries before the compaction, from the first one with the id of the
first kept entry on. -/
def keptFrom (firstKeptEntryId : String) (before : List SessionEntry) : List SessionEntry :=
  before.dropWhile (·.id ≠ firstKeptEntryId)

/-- The messages of the path: all of it, or what its last compaction left. -/
def contextMessages (path : List SessionEntry) : List AgentMessage :=
  match lastCompaction path with
  | none => path.filterMap (contextMessage getTime)
  | some c =>
    match c.body with
    | .compaction summary firstKeptEntryId tokensBefore _ _ _ =>
      let compactionIdx := path.findIdx fun e => e.isCompaction && e.id = c.id
      createCompactionSummaryMessage getTime summary tokensBefore c.timestamp ::
        ((keptFrom firstKeptEntryId (path.take compactionIdx)).filterMap (contextMessage getTime) ++
          (path.drop (compactionIdx + 1)).filterMap (contextMessage getTime))
    | _ => []

/-- The context of a path. -/
def contextOfPath (path : List SessionEntry) : SessionContext :=
  ⟨contextMessages getTime path, thinkingLevelOf path, modelOf path⟩

/-- The leaf `buildSessionContext` starts from: the entry of `leafId`, or the
last entry if there is no such id. -/
def contextLeaf (entries : List SessionEntry) (leafId : Option String)
    (byId : OrdMap String SessionEntry) : Option SessionEntry :=
  match leafId.bind fun id => if truthy id then byId.get? id else none with
  | some e => some e
  | none => entries.getLast?

/-- `buildSessionContext(entries, leafId, byId)`. A `leafId` that is `null`
and one that was not given are told apart: `some none` and `none`. The walk to
the root that does not end gives `none`. -/
def buildSessionContext (entries : List SessionEntry) (leafId : Option (Option String))
    (byId : OrdMap String SessionEntry) : Option SessionContext :=
  match leafId with
  | some none => some .empty
  | _ =>
    match contextLeaf entries leafId.join byId with
    | none => some .empty
    | some leaf => (pathToRoot byId leaf).map (contextOfPath getTime)

end

end Trek
