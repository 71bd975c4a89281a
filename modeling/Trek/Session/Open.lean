/-
# Opening a session file

`setSessionFile` of `SessionManager`: the entries of a file become the entries of
the session, after the migrations from older versions, and a file without a
header is written anew. Then what loading a file makes of the lines that were
appended to it: they are read back if the file ended its last line before
(`parseLines_append`).
-/
import Trek.Session.Reach

namespace Trek

/-! ### Migrations -/

/-- `migrateV1ToV2` from the `k`-th entry that is no header on. `migrated` is the part
of the entries that is done, `prevId` the last id given. The set of ids the code
asks `generateId` to avoid stays empty. -/
def migrateV1ToV2From (uuids : ℕ → ℕ → Uuid) :
    ℕ → List FileEntry → Option String → List FileEntry → List FileEntry
  | _, migrated, _, [] => migrated
  | k, migrated, prevId, .session h :: rest =>
    migrateV1ToV2From uuids k (migrated ++ [.session { h with version := some 2 }]) prevId rest
  | k, migrated, prevId, .entry e :: rest =>
    let e := { e with id := generateId (fun _ => false) (uuids k), parentId := prevId }
    let body := match e.body with
      | .compaction summary firstKeptEntryId tokensBefore details fromHook (some index) =>
        let firstKeptEntryId := match (migrated ++ FileEntry.entry e :: rest)[index]? with
          | some (.entry target) => target.id
          | _ => firstKeptEntryId
        EntryBody.compaction summary firstKeptEntryId tokensBefore details fromHook none
      | body => body
    migrateV1ToV2From uuids (k + 1) (migrated ++ [.entry { e with body := body }]) (some e.id) rest

/-- `migrateV1ToV2`. -/
def migrateV1ToV2 (uuids : ℕ → ℕ → Uuid) (entries : List FileEntry) : List FileEntry :=
  migrateV1ToV2From uuids 0 [] none entries

/-- A `hookMessage` is a custom message from version 3 on. -/
def migrateHookMessage (e : SessionEntry) : SessionEntry :=
  match e.body with
  | .message (.hookMessage m) => { e with body := .message (.custom m) }
  | _ => e

/-- `migrateV2ToV3`. -/
def migrateV2ToV3 (entries : List FileEntry) : List FileEntry :=
  entries.map fun
    | .session h => .session { h with version := some 3 }
    | .entry e => .entry (migrateHookMessage e)

/-- A file entry that is the header. -/
def FileEntry.header? : FileEntry → Option SessionHeader
  | .session h => some h
  | .entry _ => none

/-- `header?.version ?? 1`. -/
def fileVersion (entries : List FileEntry) : ℕ := ((entries.findSome? FileEntry.header?).bind (·.version)).getD 1

/-- `migrateToCurrentVersion`: the entries, and whether a migration was applied. -/
def migrateToCurrentVersion (uuids : ℕ → ℕ → Uuid) (entries : List FileEntry) : List FileEntry × Bool :=
  let version := fileVersion entries
  if CURRENT_SESSION_VERSION ≤ version then (entries, false)
  else
    let entries := if version < 2 then migrateV1ToV2 uuids entries else entries
    (if version < 3 then migrateV2ToV3 entries else entries, true)

namespace World

/-- `setSessionFile`. -/
def setSessionFile (w : World) (d : Draws) (sessionFile : String) : World :=
  let m := { w.manager.closeAppendFd with sessionFile := some sessionFile }
  let fresh := (({ w with manager := m } : World).newSession d none none).1
  let fresh := { fresh with manager := { fresh.manager with sessionFile := some sessionFile } }
  if (w.disk sessionFile).isSome then
    match loadEntriesFromFile w.disk sessionFile with
    | [] =>
      -- empty or no header: start anew in the same file
      let w := fresh.rewriteFile
      { w with manager := { w.manager with flushed := true } }
    | fileEntries =>
      let header := fileEntries.findSome? FileEntry.header?
      let (fileEntries, migrated) := migrateToCurrentVersion d.uuids fileEntries
      let m := { m with fileEntries := fileEntries, sessionId := (header.map (·.id)).getD d.sessionId }
      let w := if migrated then ({ w with manager := m } : World).rewriteFile else { w with manager := m }
      { w with manager := { w.manager.buildIndex with flushed := true } }
  else fresh

end World

/-! ### Lines -/

/-- The text ends with a line break, or with blanks after the last one. -/
def endsLine (text : FileText) : Bool := ((lines text).getLastD []).all (· = .blank)

theorem lines_ne_nil (text : FileText) : lines text ≠ [] := by
  induction text with
  | nil => simp [lines]
  | cons t ts ih =>
    cases t
    case newline => simp [lines]
    all_goals
      cases h : lines ts with
      | nil => exact absurd h ih
      | cons l ls => simp [lines, h]

/-- The last line of a text goes on in what is appended to it. -/
theorem lines_append (a b : FileText) :
    ∃ l ls, lines b = l :: ls ∧ lines (a ++ b) = (lines a).dropLast ++ ((lines a).getLastD [] ++ l) :: ls := by
  induction a with
  | nil =>
    cases h : lines b with
    | nil => exact absurd h (lines_ne_nil b)
    | cons l ls => exact ⟨l, ls, rfl, by simp [lines, h]⟩
  | cons t ts ih =>
    obtain ⟨l, ls, hb, hts⟩ := ih
    refine ⟨l, ls, hb, ?_⟩
    cases h : lines ts with
    | nil => exact absurd h (lines_ne_nil ts)
    | cons x xs =>
      rw [h] at hts
      cases t
      case newline => simp [lines, h, hts]
      all_goals cases xs <;> simp_all [lines]

theorem parseSessionEntryLine_append {a b : FileText} (h : a.all (· = .blank) = true) :
    parseSessionEntryLine (a ++ b) = parseSessionEntryLine b := by
  have hnil : a.filter (· ≠ .blank) = [] := by
    rw [List.filter_eq_nil_iff]
    intro t ht
    have := List.all_eq_true.mp h t ht
    simpa using this
  rw [parseSessionEntryLine, parseSessionEntryLine, List.filter_append, hnil, List.nil_append]

/-- What is appended to a text that ended its last line is read as by itself. -/
theorem parseLines_append {a : FileText} (h : endsLine a = true) (b : FileText) :
    parseLines (a ++ b) = parseLines a ++ parseLines b := by
  obtain ⟨l, ls, hb, hab⟩ := lines_append a b
  obtain ⟨init, last, ha⟩ : ∃ init last, lines a = init ++ [last] :=
    ⟨_, _, (List.dropLast_append_getLast (lines_ne_nil a)).symm⟩
  rw [endsLine, ha] at h
  rw [List.getLastD_concat] at h
  have hlast : parseSessionEntryLine last = none := by
    have := parseSessionEntryLine_append (b := []) h
    rw [List.append_nil] at this
    rw [this]
    rfl
  have hl : parseSessionEntryLine (last ++ l) = parseSessionEntryLine l := parseSessionEntryLine_append h
  rw [parseLines, parseLines, parseLines, hab, hb, ha, List.dropLast_concat, List.getLastD_concat,
    List.filterMap_append, List.filterMap_append, List.filterMap_cons, List.filterMap_cons, hl, List.filterMap_cons, hlast]
  simp

theorem parseLines_jsonLines (es : List FileEntry) : parseLines (jsonLines es) = es := by
  induction es with
  | nil => rfl
  | cons e es ih =>
    have : lines (jsonLines (e :: es)) = [.json e] :: lines (jsonLines es) := by
      simp [jsonLines, lines]
    rw [parseLines, this, List.filterMap_cons]
    have hline : parseSessionEntryLine [.json e] = some e := rfl
    rw [hline]
    exact congrArg _ ih

/-! ### Renaming the role -/

@[simp] theorem migrateHookMessage_id (e : SessionEntry) : (migrateHookMessage e).id = e.id := by
  unfold migrateHookMessage
  split <;> rfl

@[simp] theorem migrateHookMessage_parentId (e : SessionEntry) : (migrateHookMessage e).parentId = e.parentId := by
  unfold migrateHookMessage
  split <;> rfl

theorem indexById_map {f : SessionEntry → SessionEntry} (hf : ∀ e, (f e).id = e.id) (es : List SessionEntry)
    (id : String) : (indexById (es.map f)).get? id = ((indexById es).get? id).map f := by
  induction es using List.reverseRecOn with
  | nil => rfl
  | append_singleton es e ih =>
    rw [List.map_append, List.map_singleton, indexById_snoc, indexById_snoc, OrdMap.get?_set, OrdMap.get?_set, hf, ih]
    split <;> rfl

/-- The migration keeps the parent of every entry. -/
theorem parentEntry_migrate (es : List SessionEntry) (e : SessionEntry) :
    parentEntry (indexById (es.map migrateHookMessage)) (migrateHookMessage e) =
      (parentEntry (indexById es) e).map migrateHookMessage := by
  rw [parentEntry, parentEntry, migrateHookMessage_parentId]
  cases e.parentId with
  | none => rfl
  | some id =>
    show (if truthy id then _ else none) = Option.map _ (if truthy id then _ else none)
    split
    · exact indexById_map migrateHookMessage_id es id
    · rfl

end Trek
