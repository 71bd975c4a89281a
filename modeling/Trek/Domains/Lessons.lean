/-
# The lesson pattern of a domain and its history

`readLessonPatternYaml`, `saveLessonOverlay` and `restoreLessonOverlay` of
`packages/coding-agent/src/core/domains/lesson-pattern.ts` on one domain: the overlay
`.trek/domains/<id>/lessons.yaml`, the files of `history/lessons` by their names, and the index
`history/lessons/index.json`. File operations succeed. What the YAML parser makes of a text is a
parameter, and so is which texts are regular expressions. The cache of parsed patterns is left out.
-/
import Trek.Domains.Catalog

namespace Trek.Domains.Lessons

/-! ### Patterns -/

/-- `LessonSeverity`. -/
inductive LessonSeverity
  | low | medium | high | critical
  deriving DecidableEq

/-- `LessonPattern`; a regular expression is its source. -/
structure LessonPattern where
  domain : String
  categories : List String
  areas : List String
  severity : OrdMap String LessonSeverity
  beforeAfter : Bool
  fields : List (String × Bool)
  promotionTargets : List (String × String)
  promotionThreshold : ℚ × Option LessonSeverity
  redact : List String

/-- `ID_PATTERN` of `lesson-pattern.ts`. -/
def isLessonId (s : String) : Bool :=
  match s.toList with
  | [] => false
  | c :: cs =>
    ('a' ≤ c && c ≤ 'z') && cs.length ≤ 60 &&
      cs.all fun c => ('a' ≤ c && c ≤ 'z') || c.isDigit || c = '_' || c = '-'

/-- `asSeverity`. -/
def asSeverity : Option Json → Option LessonSeverity
  | some (.str s) =>
    if s = "low" then some .low
    else if s = "medium" then some .medium
    else if s = "high" then some .high
    else if s = "critical" then some .critical
    else none
  | _ => none

/-- The elements of a value that is an array. -/
def elements : Option Json → List Json
  | some (.arr xs) => xs
  | _ => []

/-- `stringList`. -/
def stringList (value : Option Json) : List String :=
  (elements value).filterMap fun item => (stringOf (some item)).filter isLessonId

/-- `Object.entries(value)` of what is an object. -/
def entriesOf : Option Json → List (String × Json)
  | some (.obj fields) => fields
  | some (.arr xs) => xs.zipIdx.map fun p => (toString p.2, p.1)
  | _ => []

/-- `severityMap`. -/
def severityMap (value : Option Json) : OrdMap String LessonSeverity :=
  (entriesOf value).foldl (fun map entry =>
    match asSeverity (some entry.2) with
    | some severity => map.set entry.1 severity
    | none => map) (OrdMap.empty.set "default" .medium)

/-- `promotionTargets`. -/
def promotionTargets (value : Option Json) : List (String × String) :=
  (elements value).filterMap fun item =>
    match stringOf (item.get? "id"), stringOf (item.get? "title") with
    | some id, some title => if isLessonId id ∧ jsTrim title ≠ "" then some (id, jsTrim title) else none
    | _, _ => none

/-- `patternFields`. -/
def patternFields (value : Option Json) : List (String × Bool) :=
  (elements value).filterMap fun item =>
    ((stringOf (item.get? "name")).filter isLessonId).map fun name => (name, decide (item.get? "required" = some (Json.bool true)))

/-- The domain, what the YAML parser makes of a text, which texts `new RegExp` takes, and the pattern
of the package. -/
structure LessonEnv where
  id : String
  yaml : String → Option Json
  isRegExp : String → Bool
  bundled : Option String

section

variable (env : LessonEnv)

/-- `redactList`. -/
def redactList (value : Option Json) : List String :=
  (elements value).filterMap fun item =>
    (stringOf (some item)).filter fun s => s ≠ "" && jsLength s ≤ 200 && env.isRegExp s

/-- The number of a value that is one. -/
def numberOf : Option Json → Option ℚ
  | some (.num n) => some n
  | _ => none

/-- `parseLessonPattern` for the domain. -/
def parseLessonPattern (yamlText : String) : Option LessonPattern :=
  (env.yaml yamlText).bind fun record =>
    let domain := (stringOf (record.get? "domain")).getD ""
    if domain ≠ env.id ∨ isLessonId domain = false then none
    else
      let categories := stringList (record.get? "categories")
      if categories = [] then none
      else
        let threshold := record.get? "promotion_threshold"
        let count := (numberOf (threshold.bind (·.get? "count"))).getD 3
        some {
          domain
          categories
          areas := stringList (record.get? "areas")
          severity := severityMap (record.get? "severity")
          beforeAfter := record.get? "before_after" = some (Json.bool true)
          fields := patternFields (record.get? "fields")
          promotionTargets := promotionTargets (record.get? "promotion_targets")
          promotionThreshold := (if 0 < count then count else 3, asSeverity (threshold.bind (·.get? "severity")))
          redact := redactList env (record.get? "redact") }

/-- A text is a pattern of the domain. -/
def isPattern (yamlText : String) : Bool := (parseLessonPattern env yamlText).isSome

end

/-! ### The history -/

/-- The files of the domain; `position` of the index is `at`. -/
structure LessonFiles where
  overlay : Option String
  history : OrdMap String String
  index : Option HistoryIndex

/-- The `n`th name that `writeHistoryFile` tries. -/
def lessonFileName (stamp : String) (n : ℕ) : String :=
  (stamp ++ "-lessons") ++ (if n = 1 then ".yaml" else "-" ++ toString n ++ ".yaml")

/-- `writeHistoryFile` at a date: the files, and the name of the new one. -/
def writeLessonFile (history : OrdMap String String) (stamp text : String) : OrdMap String String × String :=
  let file := lessonFileName stamp (history.firstFree (lessonFileName stamp) history.size 1)
  (history.set file (ensureNewline text), file)

namespace LessonFiles

/-- `readHistory`. -/
def readHistory (s : LessonFiles) : Option HistoryIndex := s.index.filter fun index => index.position < index.order.length

/-- `backupLessonFile`, with the dates of the two files it may write. -/
def backupLessonFile (s : LessonFiles) (previous next firstStamp stamp : String) : LessonFiles :=
  let index := s.readHistory.getD ⟨[], 0⟩
  let (history, index) : OrdMap String String × HistoryIndex :=
    if index.order = [] then
      let (history, file) := writeLessonFile s.history firstStamp previous
      (history, ⟨[file], 0⟩)
    else (s.history, index)
  let kept := index.position + 1
  let history := (index.order.drop kept).foldl OrdMap.delete history
  let order := index.order.take kept
  let (history, file) := writeLessonFile history stamp next
  let order := order ++ [file]
  { s with history, index := some ⟨order, order.length - 1⟩ }

section

variable (env : LessonEnv) (s : LessonFiles)

/-- `readLessonPatternYaml`. -/
def readLessonPatternYaml : Except String String :=
  if isLessonId env.id = false then .error "domain id must be lowercase letters, numbers, and hyphens"
  else
    match s.overlay, env.bundled with
    | some overlay, _ => .ok overlay
    | none, some bundled => .ok bundled
    | none, none => .error s!"no lesson pattern for {env.id}"

/-- `saveLessonOverlay`; the value is `backedUp`. -/
def saveLessonOverlay (yamlText : String) (previousText : Option String) (firstStamp stamp : String) :
    LessonFiles × Except String Bool :=
  if isLessonId env.id = false then (s, .error "domain id must be lowercase letters, numbers, and hyphens")
  else if isPattern env yamlText = false then (s, .error s!"{env.id} lessons.yaml is not a valid pattern")
  else
    let text := ensureNewline yamlText
    -- the bundled text becomes the first version
    let overlay := s.overlay.or ((previousText.filter fun p => p ≠ "" ∧ jsTrim p ≠ jsTrim text).map ensureNewline)
    match overlay with
    | some current =>
      if jsTrim current = jsTrim text then ({ s with overlay }, .ok false)
      else ({ s.backupLessonFile current text firstStamp stamp with overlay := some text }, .ok true)
    | none => ({ s with overlay := some text }, .ok false)

/-- `restoreLessonOverlay`. -/
def restoreLessonOverlay : LessonFiles × Except String Unit :=
  if isLessonId env.id = false then (s, .error "domain id must be lowercase letters, numbers, and hyphens")
  else
    match s.readHistory with
    | none => (s, .error s!"no previous {env.id} lessons.yaml")
    | some index =>
      if index.position = 0 then (s, .error s!"no previous {env.id} lessons.yaml")
      else
        let position := index.position - 1
        match s.history.get? ((index.order[position]?).getD "") with
        | none => (s, .error "ENOENT")
        | some yaml =>
          if isPattern env yaml = false then (s, .error s!"{env.id} lessons.yaml is not a valid pattern")
          else ({ s with overlay := some (ensureNewline yaml), index := some ⟨index.order, position⟩ }, .ok ())

end

end LessonFiles

/-! ### Calls -/

/-- A save with the text in effect as `previousText`, as `editPattern` makes it, or a restore. -/
inductive LessonCall
  | save (yamlText firstStamp stamp : String)
  | restore

/-- A call: what it leaves, and whether it returns. -/
def LessonFiles.call (env : LessonEnv) (s : LessonFiles) : LessonCall → LessonFiles × Bool
  | .save yamlText firstStamp stamp =>
    let r := s.saveLessonOverlay env yamlText (s.readLessonPatternYaml env).toOption firstStamp stamp
    (r.1, r.2.toBool)
  | .restore => ((s.restoreLessonOverlay env).1, (s.restoreLessonOverlay env).2.toBool)

/-- The files after some calls. -/
def LessonFiles.run (env : LessonEnv) (s : LessonFiles) (calls : List LessonCall) : LessonFiles :=
  calls.foldl (fun s c => (s.call env c).1) s

/-- The files before the first call. -/
def LessonFiles.start (overlay : Option String) : LessonFiles := ⟨overlay, .empty, none⟩

end Trek.Domains.Lessons
