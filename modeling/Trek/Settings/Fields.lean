/-
# Settings

The settings of `packages/coding-agent/src/core/settings-manager.ts`: the fields of a
settings file, and how a file in an old format is migrated when it is read. A field is
written whole, or, of the fields that are objects for the setters, key by key; each of
the two is a `Target`. Migrated settings stay as they are when they are read again
(`Migrated.migrateSettings`), and so do settings that setters have changed
(`Migrated.of_get`).
-/
import Mathlib.Logic.Function.Basic
import Trek.Messages

namespace Trek

/-- The fields that the setters write key by key. -/
inductive Section
  | compaction
  | retry
  | terminal
  | images
  deriving DecidableEq

/-- `Record<string, unknown>`; `none` is `undefined`. -/
abbrev Fields : Type := String → Option Json

/-- `Settings`: the fields that are written whole, and those that are written key by key. -/
@[ext]
structure Settings where
  fields : Fields
  nested : Section → Option Fields

namespace Settings

/-- `{}`. -/
def empty : Settings := ⟨fun _ => none, fun _ => none⟩

/-- What `markModified` names: a field, or a key of a field. -/
inductive Target
  | field (name : String)
  | key (name : Section) (nestedKey : String)
  deriving DecidableEq

/-- `settings[field]`, `settings[field]?.[nestedKey]`. -/
def get (s : Settings) : Target → Option Json
  | .field name => s.fields name
  | .key name nestedKey => (s.nested name).bind (· nestedKey)

/-- `settings[field] = value`; of a key, the field is made an object first. -/
def set (s : Settings) (value : Option Json) : Target → Settings
  | .field name => { s with fields := Function.update s.fields name value }
  | .key name nestedKey =>
    let fields := (s.nested name).getD fun _ => none
    { s with nested := Function.update s.nested name (some (Function.update fields nestedKey value)) }

theorem get_set (s : Settings) (value : Option Json) (t t' : Target) :
    (s.set value t).get t' = if t' = t then value else s.get t' := by
  cases t with
  | field name =>
    cases t' with
    | field name' => simp [set, get, Function.update_apply]
    | key name' nestedKey' => simp [set, get]
  | key name nestedKey =>
    cases t' with
    | field name' => simp [set, get]
    | key name' nestedKey' =>
      simp only [set, get, Function.update_apply, Target.key.injEq]
      by_cases hname : name' = name
      · subst hname
        by_cases hkey : nestedKey' = nestedKey
        · subst hkey
          simp
        · cases hs : s.nested name' with
          | none => simp [hkey]
          | some fields => simp [hkey]
      · simp [hname]

theorem fields_set_field (s : Settings) (value : Option Json) (name name' : String) :
    (s.set value (.field name)).fields name' = if name' = name then value else s.fields name' :=
  get_set s value (.field name) (.field name') |>.trans (by simp only [Target.field.injEq, get])

/-! ### Reading a file -/

/-- `queueMode` becomes `steeringMode`. -/
def migrateQueueMode (s : Settings) : Settings :=
  if (s.fields "queueMode").isSome ∧ (s.fields "steeringMode").isNone then
    (s.set (s.fields "queueMode") (.field "steeringMode")).set none (.field "queueMode")
  else s

/-- The flag `websockets` becomes a `transport`. -/
def migrateWebsockets (s : Settings) : Settings :=
  match s.fields "transport", s.fields "websockets" with
  | none, some (.bool websockets) =>
    (s.set (some (.str (if websockets then "websocket" else "sse"))) (.field "transport")).set none (.field "websockets")
  | _, _ => s

/-- An object `skills` becomes the array of its directories. -/
def migrateSkills (s : Settings) : Settings :=
  match s.fields "skills" with
  | some (.obj skills) =>
    let enableSkillCommands := (Json.obj skills).get? "enableSkillCommands"
    let s :=
      if enableSkillCommands.isSome ∧ (s.fields "enableSkillCommands").isNone then
        s.set enableSkillCommands (.field "enableSkillCommands")
      else s
    match (Json.obj skills).get? "customDirectories" with
    | some (.arr (dir :: dirs)) => s.set (some (.arr (dir :: dirs))) (.field "skills")
    | _ => s.set none (.field "skills")
  | _ => s

/-- `typeof value === "object" && value !== null`, with the fields that a spread gives. -/
def objectFields : Option Json → Option (List (String × Json))
  | some (.obj fields) => some fields
  | some (.arr xs) => some (xs.zipIdx.map fun p => (toString p.2, p.1))
  | _ => none

/-- `retry.maxDelayMs` becomes `retry.provider.maxRetryDelayMs`. -/
def migrateRetry (s : Settings) : Settings :=
  match s.nested .retry with
  | none => s
  | some retry =>
    let provider := objectFields (retry "provider")
    let maxRetryDelayMs := (Json.obj (provider.getD [])).get? "maxRetryDelayMs"
    let retry :=
      match retry "maxDelayMs" with
      | some (.num maxDelayMs) =>
        if maxRetryDelayMs = none ∨ maxRetryDelayMs = some .null then
          Function.update retry "provider" (some (.obj
            ((provider.getD []).filter (·.1 ≠ "maxRetryDelayMs") ++ [("maxRetryDelayMs", .num maxDelayMs)])))
        else retry
      | _ => retry
    { s with nested := Function.update s.nested .retry (some (Function.update retry "maxDelayMs" none)) }

/-- `migrateSettings`. -/
def migrateSettings (s : Settings) : Settings := s.migrateQueueMode.migrateWebsockets.migrateSkills.migrateRetry

/-- `loadFromStorage`: the settings of a file that is there are migrated. -/
def loadFromStorage (content : Option Settings) : Settings := (content.map migrateSettings).getD empty

/-- Settings in which nothing is left to migrate. -/
structure Migrated (s : Settings) : Prop where
  queueMode : s.fields "queueMode" = none ∨ (s.fields "steeringMode").isSome
  websockets : (s.fields "transport").isSome ∨ ∀ b, s.fields "websockets" ≠ some (.bool b)
  skills : ∀ skills, s.fields "skills" ≠ some (.obj skills)
  maxDelayMs : s.get (.key .retry "maxDelayMs") = none

theorem Migrated.migrateSettings {s : Settings} (h : s.Migrated) : s.migrateSettings = s := by
  have hqueue : s.migrateQueueMode = s := by
    refine if_neg fun hc => ?_
    rcases h.queueMode with hq | hq
    · rw [hq] at hc
      cases hc.1
    · rw [Option.isNone_iff_eq_none.mp hc.2] at hq
      cases hq
  have hsockets : s.migrateWebsockets = s := by
    unfold migrateWebsockets
    split
    · rename_i b ht hb
      rcases h.websockets with hw | hw
      · rw [ht] at hw
        cases hw
      · exact absurd hb (hw b)
    · rfl
  have hskills : s.migrateSkills = s := by
    unfold migrateSkills
    split
    · rename_i skills hs
      exact absurd hs (h.skills skills)
    · rfl
  have hretry : s.migrateRetry = s := by
    have hd := h.maxDelayMs
    unfold migrateRetry
    split
    · rfl
    · rename_i retry hr
      simp only [get, hr, Option.bind_some] at hd
      simp only [hd]
      rw [← hd, Function.update_eq_self, ← hr, Function.update_eq_self]
  rw [Settings.migrateSettings, hqueue, hsockets, hskills, hretry]

theorem migrateWebsockets_fields (s : Settings) {name : String} (ht : name ≠ "transport") (hw : name ≠ "websockets") :
    s.migrateWebsockets.fields name = s.fields name := by
  unfold migrateWebsockets
  split
  · rw [fields_set_field, if_neg hw, fields_set_field, if_neg ht]
  · rfl

theorem migrateSkills_fields (s : Settings) {name : String} (he : name ≠ "enableSkillCommands") (hs : name ≠ "skills") :
    s.migrateSkills.fields name = s.fields name := by
  unfold migrateSkills
  split
  · dsimp only
    split <;> rw [fields_set_field, if_neg hs] <;> split
    · rw [fields_set_field, if_neg he]
    · rfl
    · rw [fields_set_field, if_neg he]
    · rfl
  · rfl

theorem migrateRetry_fields (s : Settings) : s.migrateRetry.fields = s.fields := by
  unfold migrateRetry
  split <;> rfl

/-- Migrated settings stay as they are when they are read again. -/
theorem migrated_migrateSettings (s : Settings) : s.migrateSettings.Migrated := by
  have hfields : ∀ name, s.migrateSettings.fields name = s.migrateQueueMode.migrateWebsockets.migrateSkills.fields name :=
    fun name => congrFun (migrateRetry_fields _) name
  constructor
  · rw [hfields, hfields, migrateSkills_fields _ (by decide) (by decide), migrateSkills_fields _ (by decide) (by decide),
      migrateWebsockets_fields _ (by decide) (by decide), migrateWebsockets_fields _ (by decide) (by decide)]
    unfold migrateQueueMode
    split
    · refine .inl ?_
      rw [fields_set_field, if_pos rfl]
    · rename_i hq
      cases hmode : s.fields "queueMode" with
      | none => exact .inl rfl
      | some mode =>
        refine .inr ?_
        by_contra hsteer
        exact hq ⟨by rw [hmode]; rfl, by simpa using hsteer⟩
  · rw [hfields, hfields, migrateSkills_fields _ (by decide) (by decide), migrateSkills_fields _ (by decide) (by decide)]
    generalize s.migrateQueueMode = s
    unfold migrateWebsockets
    split
    · refine .inl ?_
      rw [fields_set_field, if_neg (by decide), fields_set_field, if_pos rfl]
      rfl
    · rename_i hw
      cases htransport : s.fields "transport" with
      | some transport => exact .inl rfl
      | none => exact .inr fun b hb => hw b htransport hb
  · intro skills
    rw [hfields]
    generalize s.migrateQueueMode.migrateWebsockets = s
    unfold migrateSkills
    split
    · dsimp only
      split <;> rw [fields_set_field, if_pos rfl] <;> simp
    · rename_i hs
      exact hs skills
  · rw [Settings.migrateSettings]
    generalize s.migrateQueueMode.migrateWebsockets.migrateSkills = s
    unfold migrateRetry
    split
    · rename_i hr
      rw [get, hr]
      rfl
    · simp only [get, Function.update_self, Option.bind_some]

theorem migrated_empty : Migrated empty := ⟨.inl rfl, .inr (by simp [empty]), by simp [empty], rfl⟩

theorem migrated_loadFromStorage (content : Option Settings) : (loadFromStorage content).Migrated := by
  cases content with
  | none => exact migrated_empty
  | some s => exact migrated_migrateSettings s

/-! ### Setting a target -/

/-- What a setter may put into a target: none of the old fields, and no old format. -/
def Writable (value : Option Json) : Target → Prop
  | .field name =>
    name ≠ "queueMode" ∧ name ≠ "websockets" ∧ (name = "steeringMode" ∨ name = "transport" → value.isSome) ∧
      (name = "skills" → ∀ skills, value ≠ some (.obj skills))
  | .key name nestedKey => name = .retry → nestedKey ≠ "maxDelayMs"

/-- Migrated settings are migrated however a writable target is changed. -/
theorem Migrated.of_get {s s' : Settings} (h : s.Migrated)
    (hget : ∀ t, s'.get t = s.get t ∨ Writable (s'.get t) t) : s'.Migrated := by
  have hfields : ∀ name, s'.fields name = s.fields name ∨ Writable (s'.fields name) (.field name) :=
    fun name => hget (.field name)
  have hqueue : s'.fields "queueMode" = s.fields "queueMode" :=
    (hfields "queueMode").resolve_right fun hw => hw.1 rfl
  have hsockets : s'.fields "websockets" = s.fields "websockets" :=
    (hfields "websockets").resolve_right fun hw => hw.2.1 rfl
  constructor
  · rw [hqueue]
    refine h.queueMode.imp_right fun hs => ?_
    rcases hfields "steeringMode" with he | hw
    · rwa [he]
    · exact hw.2.2.1 (.inl rfl)
  · rw [hsockets]
    refine h.websockets.imp_left fun ht => ?_
    rcases hfields "transport" with he | hw
    · rwa [he]
    · exact hw.2.2.1 (.inr rfl)
  · rcases hfields "skills" with he | hw
    · rw [he]
      exact h.skills
    · exact hw.2.2.2 rfl
  · rcases hget (.key .retry "maxDelayMs") with he | hw
    · rw [he]
      exact h.maxDelayMs
    · exact absurd rfl (hw rfl)

end Settings

end Trek
