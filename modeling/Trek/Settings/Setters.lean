/-
# The setters

Each setter of `SettingsManager` that saves, as the assignments it makes in memory before
it puts a write into the queue. Those of a project save the project's settings, the others
the global ones.
-/
import Mathlib.Data.Rat.Floor
import Trek.Settings.Write

namespace Trek.Settings

/-- `this.globalSettings[field] = value` and `markModified(field)`. -/
def assign (name : String) (value : Option Json) (h : Writable value (.field name)) : Change := ⟨.field name, value, h⟩

/-- `this.globalSettings[field][nestedKey] = value` and `markModified(field, nestedKey)`. -/
def assignKey (name : Section) (nestedKey : String) (value : Json) (h : Writable (some value) (.key name nestedKey)) :
    Change := ⟨.key name nestedKey, some value, h⟩

/-- `string[]`. -/
def strings (xs : List String) : Json := .arr (xs.map .str)

/-! ### The values -/

/-- `"all" | "one-at-a-time"`. -/
inductive MessageMode
  | all | oneAtATime

def MessageMode.toJson : MessageMode → Json
  | .all => .str "all"
  | .oneAtATime => .str "one-at-a-time"

/-- `defaultThinkingLevel`. -/
inductive ThinkingLevel
  | off | minimal | low | medium | high | xhigh

def ThinkingLevel.toJson : ThinkingLevel → Json
  | .off => .str "off"
  | .minimal => .str "minimal"
  | .low => .str "low"
  | .medium => .str "medium"
  | .high => .str "high"
  | .xhigh => .str "xhigh"

/-- `TransportSetting`. -/
inductive TransportSetting
  | sse | websocket | websocketCached | auto

def TransportSetting.toJson : TransportSetting → Json
  | .sse => .str "sse"
  | .websocket => .str "websocket"
  | .websocketCached => .str "websocket-cached"
  | .auto => .str "auto"

/-- `"fork" | "tree" | "none"`. -/
inductive DoubleEscapeAction
  | fork | tree | none

def DoubleEscapeAction.toJson : DoubleEscapeAction → Json
  | .fork => .str "fork"
  | .tree => .str "tree"
  | .none => .str "none"

/-- `treeFilterMode`. -/
inductive TreeFilterMode
  | default | noTools | userOnly | labeledOnly | all

def TreeFilterMode.toJson : TreeFilterMode → Json
  | .default => .str "default"
  | .noTools => .str "no-tools"
  | .userOnly => .str "user-only"
  | .labeledOnly => .str "labeled-only"
  | .all => .str "all"

/-- `PackageSource`. -/
inductive PackageSource
  | string (source : String)
  | object (source : String) (extensions skills prompts themes : Option (List String))

def PackageSource.toJson : PackageSource → Json
  | .string source => .str source
  | .object source extensions skills prompts themes =>
    .obj (("source", .str source) ::
      [("extensions", extensions), ("skills", skills), ("prompts", prompts), ("themes", themes)].filterMap
        fun p => p.2.map fun paths => (p.1, strings paths))

/-! ### The global settings -/

def setLastChangelogVersion (version : String) : List Change :=
  [assign "lastChangelogVersion" (some (.str version)) (by simp [Writable])]

def setDefaultProvider (provider : String) : List Change :=
  [assign "defaultProvider" (some (.str provider)) (by simp [Writable])]

def setDefaultModel (modelId : String) : List Change :=
  [assign "defaultModel" (some (.str modelId)) (by simp [Writable])]

def setDefaultModelAndProvider (provider modelId : String) : List Change :=
  [assign "defaultProvider" (some (.str provider)) (by simp [Writable]),
    assign "defaultModel" (some (.str modelId)) (by simp [Writable])]

def setSteeringMode (mode : MessageMode) : List Change :=
  [assign "steeringMode" (some mode.toJson) (by simp [Writable])]

def setFollowUpMode (mode : MessageMode) : List Change :=
  [assign "followUpMode" (some mode.toJson) (by simp [Writable])]

def setTheme (theme : String) : List Change :=
  [assign "theme" (some (.str theme)) (by simp [Writable])]

def setDefaultThinkingLevel (level : ThinkingLevel) : List Change :=
  [assign "defaultThinkingLevel" (some level.toJson) (by simp [Writable])]

def setTransport (transport : TransportSetting) : List Change :=
  [assign "transport" (some transport.toJson) (by simp [Writable])]

def setCompactionEnabled (enabled : Bool) : List Change :=
  [assignKey .compaction "enabled" (.bool enabled) (by simp [Writable])]

def setRetryEnabled (enabled : Bool) : List Change :=
  [assignKey .retry "enabled" (.bool enabled) (by simp [Writable])]

/-- A negative timeout is an error. -/
def setHttpIdleTimeoutMs (timeoutMs : ℚ) : Option (List Change) :=
  if timeoutMs < 0 then none
  else some [assign "httpIdleTimeoutMs" (some (.num ⌊timeoutMs⌋)) (by simp [Writable])]

def setHideThinkingBlock (hide : Bool) : List Change :=
  [assign "hideThinkingBlock" (some (.bool hide)) (by simp [Writable])]

def setShellPath (path : Option String) : List Change :=
  [assign "shellPath" (path.map .str) (by simp [Writable])]

/-- `next` as its fields. -/
def setReproducibilitySettings (next : List (String × Json)) : List Change :=
  [assign "reproducibility" (some (.obj next)) (by simp [Writable])]

def setQuietStartup (quiet : Bool) : List Change :=
  [assign "quietStartup" (some (.bool quiet)) (by simp [Writable])]

def setShellCommandPrefix (pfx : Option String) : List Change :=
  [assign "shellCommandPrefix" (pfx.map .str) (by simp [Writable])]

def setNpmCommand (command : Option (List String)) : List Change :=
  [assign "npmCommand" (command.map strings) (by simp [Writable])]

def setCollapseChangelog (collapse : Bool) : List Change :=
  [assign "collapseChangelog" (some (.bool collapse)) (by simp [Writable])]

def setEnableInstallTelemetry (enabled : Bool) : List Change :=
  [assign "enableInstallTelemetry" (some (.bool enabled)) (by simp [Writable])]

def setPackages (packages : List PackageSource) : List Change :=
  [assign "packages" (some (.arr (packages.map (·.toJson)))) (by simp [Writable])]

def setExtensionPaths (paths : List String) : List Change :=
  [assign "extensions" (some (strings paths)) (by simp [Writable])]

def setSkillPaths (paths : List String) : List Change :=
  [assign "skills" (some (strings paths)) (by simp [Writable, strings])]

def setPromptTemplatePaths (paths : List String) : List Change :=
  [assign "prompts" (some (strings paths)) (by simp [Writable])]

def setThemePaths (paths : List String) : List Change :=
  [assign "themes" (some (strings paths)) (by simp [Writable])]

def setEnableSkillCommands (enabled : Bool) : List Change :=
  [assign "enableSkillCommands" (some (.bool enabled)) (by simp [Writable])]

def setShowImages (shown : Bool) : List Change :=
  [assignKey .terminal "showImages" (.bool shown) (by simp [Writable])]

def setImageWidthCells (width : ℚ) : List Change :=
  [assignKey .terminal "imageWidthCells" (.num (max 1 ⌊width⌋ : ℤ)) (by simp [Writable])]

def setClearOnShrink (enabled : Bool) : List Change :=
  [assignKey .terminal "clearOnShrink" (.bool enabled) (by simp [Writable])]

def setShowTerminalProgress (enabled : Bool) : List Change :=
  [assignKey .terminal "showTerminalProgress" (.bool enabled) (by simp [Writable])]

def setImageAutoResize (enabled : Bool) : List Change :=
  [assignKey .images "autoResize" (.bool enabled) (by simp [Writable])]

def setBlockImages (blocked : Bool) : List Change :=
  [assignKey .images "blockImages" (.bool blocked) (by simp [Writable])]

def setEnabledModels (patterns : Option (List String)) : List Change :=
  [assign "enabledModels" (patterns.map strings) (by simp [Writable])]

def setDoubleEscapeAction (action : DoubleEscapeAction) : List Change :=
  [assign "doubleEscapeAction" (some action.toJson) (by simp [Writable])]

def setTreeFilterMode (mode : TreeFilterMode) : List Change :=
  [assign "treeFilterMode" (some mode.toJson) (by simp [Writable])]

def setShowHardwareCursor (enabled : Bool) : List Change :=
  [assign "showHardwareCursor" (some (.bool enabled)) (by simp [Writable])]

def setEditorPaddingX (padding : ℚ) : List Change :=
  [assign "editorPaddingX" (some (.num (max 0 (min 3 ⌊padding⌋) : ℤ))) (by simp [Writable])]

def setAutocompleteMaxVisible (maxVisible : ℚ) : List Change :=
  [assign "autocompleteMaxVisible" (some (.num (max 3 (min 20 ⌊maxVisible⌋) : ℤ))) (by simp [Writable])]

/-- `warnings` as its fields. -/
def setWarnings (warnings : List (String × Json)) : List Change :=
  [assign "warnings" (some (.obj warnings)) (by simp [Writable])]

/-! ### The project's settings -/

def setProjectPackages (packages : List PackageSource) : List Change := setPackages packages

def setProjectExtensionPaths (paths : List String) : List Change := setExtensionPaths paths

def setProjectSkillPaths (paths : List String) : List Change := setSkillPaths paths

def setProjectPromptTemplatePaths (paths : List String) : List Change := setPromptTemplatePaths paths

def setProjectThemePaths (paths : List String) : List Change := setThemePaths paths

end Trek.Settings
