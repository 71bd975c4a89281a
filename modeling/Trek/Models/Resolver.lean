/-
# Model resolution

`core/model-resolver.ts`: from what `--model` and `--provider` name to a model and a thinking level. A reference is matched
exactly first, as `provider/id` and then as an id, and then as a part of an id or a name (`tryMatchModel`); thinking levels
are taken off its end as long as nothing matches (`parseModelPattern`); and where no provider is given, the text before the
first slash names one if it can (`resolveCliModel`).

How a text is put into lower case and how two texts are ordered is a matter of the runtime. Of the first, only that a slash
parts what is put into lower case on its sides is used.
-/
import Trek.Lib.Cut
import Trek.Lib.FirstMatch
import Trek.Lib.OrdMap

namespace Trek.Models

/-- The texts of the runtime. -/
structure Locale where
  toLowerCase : List Char → List Char
  toLowerCase_slash : ∀ a b, toLowerCase (a ++ '/' :: b) = toLowerCase a ++ '/' :: toLowerCase b
  localeCompare : List Char → List Char → ℤ

structure Model where
  provider : List Char
  id : List Char
  name : Option (List Char)
  deriving DecidableEq

/-- `provider/id`. -/
def Model.fullName (model : Model) : List Char := model.provider ++ '/' :: model.id

inductive ThinkingLevel where
  | off
  | minimal
  | low
  | medium
  | high
  | xhigh
  deriving DecidableEq

def ThinkingLevel.text : ThinkingLevel → List Char
  | off => "off".toList
  | minimal => "minimal".toList
  | low => "low".toList
  | medium => "medium".toList
  | high => "high".toList
  | xhigh => "xhigh".toList

def VALID_THINKING_LEVELS : List ThinkingLevel := [.off, .minimal, .low, .medium, .high, .xhigh]

/-- The thinking level that a text is. -/
def isValidThinkingLevel (level : List Char) : Option ThinkingLevel := VALID_THINKING_LEVELS.find? (·.text = level)

/-- Default model IDs for each known provider. -/
def defaultModelPerProvider : List (String × String) := [
  ("amazon-bedrock", "us.anthropic.claude-opus-4-6-v1"),
  ("ant-ling", "Ring-2.6-1T"),
  ("anthropic", "claude-opus-4-8"),
  ("openai", "gpt-5.4"),
  ("azure-openai-responses", "gpt-5.4"),
  ("openai-codex", "gpt-5.5"),
  ("nvidia", "nvidia/nemotron-3-super-120b-a12b"),
  ("deepseek", "deepseek-v4-pro"),
  ("google", "gemini-3.1-pro-preview"),
  ("google-vertex", "gemini-3.1-pro-preview"),
  ("github-copilot", "gpt-5.4"),
  ("openrouter", "moonshotai/kimi-k2.6"),
  ("vercel-ai-gateway", "zai/glm-5.1"),
  ("xai", "grok-4.20-0309-reasoning"),
  ("groq", "openai/gpt-oss-120b"),
  ("cerebras", "zai-glm-4.7"),
  ("zai", "glm-5.1"),
  ("zai-coding-cn", "glm-5.1"),
  ("mistral", "devstral-medium-latest"),
  ("minimax", "MiniMax-M2.7"),
  ("minimax-cn", "MiniMax-M2.7"),
  ("moonshotai", "kimi-k2.6"),
  ("moonshotai-cn", "kimi-k2.6"),
  ("huggingface", "moonshotai/Kimi-K2.6"),
  ("fireworks", "accounts/fireworks/models/kimi-k2p6"),
  ("together", "moonshotai/Kimi-K2.6"),
  ("opencode", "kimi-k2.6"),
  ("opencode-go", "kimi-k2.6"),
  ("kimi-coding", "kimi-for-coding"),
  ("cloudflare-workers-ai", "@cf/moonshotai/kimi-k2.6"),
  ("cloudflare-ai-gateway", "workers-ai/@cf/moonshotai/kimi-k2.6"),
  ("xiaomi", "mimo-v2.5-pro"),
  ("xiaomi-token-plan-cn", "mimo-v2.5-pro"),
  ("xiaomi-token-plan-ams", "mimo-v2.5-pro"),
  ("xiaomi-token-plan-sgp", "mimo-v2.5-pro")]

/-- The id ends with a dash and eight digits. -/
def endsWithDate (id : List Char) : Bool :=
  let digits := id.reverse.take 8
  digits.length = 8 && digits.all Char.isDigit && (id.reverse.drop 8).head? = some '-'

/-- An id without a date at its end. -/
def isAlias (id : List Char) : Bool := "-latest".toList.isSuffixOf id || !endsWithDate id

/-- The text before the last colon, and the text after it. -/
def cutAtLastColon (pattern : List Char) : Option (List Char × List Char) :=
  (cutAt [':'] pattern.reverse).map fun p => (p.2.reverse, p.1.reverse)

/-- One match is taken, several are refused, and where there is none the search goes on. -/
def onlyMatch (matched : List Model) (next : Option Model) : Option Model :=
  match matched with
  | [] => next
  | [model] => some model
  | _ :: _ :: _ => none

variable (locale : Locale)

/-- The parts of a reference as `provider/modelId`, if it has both. -/
def providerAndId (reference : List Char) : Option (List Char × List Char) :=
  match cutAt ['/'] reference with
  | none => none
  | some (provider, modelId) =>
    if trimChars provider ≠ [] ∧ trimChars modelId ≠ [] then some (trimChars provider, trimChars modelId) else none

def isCanonicalMatch (reference : List Char) (model : Model) : Bool :=
  locale.toLowerCase model.fullName = locale.toLowerCase reference

def isProviderMatch (reference : List Char) (model : Model) : Bool :=
  match providerAndId reference with
  | none => false
  | some (provider, modelId) =>
    locale.toLowerCase model.provider = locale.toLowerCase provider && locale.toLowerCase model.id = locale.toLowerCase modelId

def isIdMatch (reference : List Char) (model : Model) : Bool := locale.toLowerCase model.id = locale.toLowerCase reference

def findExactModelReferenceMatch (modelReference : List Char) (availableModels : List Model) : Option Model :=
  let trimmedReference := trimChars modelReference
  if trimmedReference = [] then none
  else
    onlyMatch (availableModels.filter (isCanonicalMatch locale trimmedReference)) <|
    onlyMatch (availableModels.filter (isProviderMatch locale trimmedReference)) <|
    onlyMatch (availableModels.filter (isIdMatch locale trimmedReference)) none

/-- The id or the name of the model includes the pattern. -/
def isPartialMatch (modelPattern : List Char) (model : Model) : Bool :=
  locale.toLowerCase modelPattern <:+: locale.toLowerCase model.id ||
    model.name.any fun name => locale.toLowerCase modelPattern <:+: locale.toLowerCase name

/-- The model whose id sorts highest. -/
def highestId (models : List Model) : Option Model :=
  (models.mergeSort fun a b => locale.localeCompare b.id a.id ≤ 0).head?

def tryMatchModel (modelPattern : List Char) (availableModels : List Model) : Option Model :=
  match findExactModelReferenceMatch locale modelPattern availableModels with
  | some exactMatch => some exactMatch
  | none =>
    let partials := availableModels.filter (isPartialMatch locale modelPattern)
    let aliases := partials.filter (isAlias ·.id)
    if aliases ≠ [] then highestId locale aliases else highestId locale (partials.filter (!isAlias ·.id))

structure ParsedModelResult where
  model : Option Model
  thinkingLevel : Option ThinkingLevel
  warning : Option (List Char)
  deriving DecidableEq

def buildFallbackModel (provider modelId : List Char) (availableModels : List Model) : Option Model :=
  let providerModels := availableModels.filter (·.provider = provider)
  let defaultId := (defaultModelPerProvider.find? (·.1.toList = provider)).map (·.2.toList)
  let baseModel := (defaultId.bind fun id => providerModels.find? (·.id = id)).or providerModels.head?
  baseModel.map fun model => { model with id := modelId, name := some modelId }

theorem length_of_cutAtLastColon {pattern before suffix : List Char} (h : cutAtLastColon pattern = some (before, suffix)) :
    before.length < pattern.length := by
  unfold cutAtLastColon at h
  obtain ⟨⟨after, rest⟩, hcut, heq⟩ := Option.map_eq_some_iff.mp h
  obtain rfl : rest.reverse = before := congrArg Prod.fst heq
  have hlength := congrArg List.length (eq_of_cutAt hcut)
  rw [List.length_reverse, List.length_append, List.length_append, List.length_singleton] at hlength
  rw [List.length_reverse]
  omega

def parseModelPattern (pattern : List Char) (availableModels : List Model) (allowInvalidThinkingLevelFallback : Bool) :
    ParsedModelResult :=
  match tryMatchModel locale pattern availableModels with
  | some exactMatch => ⟨some exactMatch, none, none⟩
  | none =>
    match hcut : cutAtLastColon pattern with
    | none => ⟨none, none, none⟩
    | some (before, suffix) =>
      have := length_of_cutAtLastColon hcut
      match isValidThinkingLevel suffix with
      | some level =>
        let result := parseModelPattern before availableModels allowInvalidThinkingLevelFallback
        if result.model.isSome then
          ⟨result.model, if result.warning.isSome then none else some level, result.warning⟩
        else result
      | none =>
        if !allowInvalidThinkingLevelFallback then ⟨none, none, none⟩
        else
          let result := parseModelPattern before availableModels allowInvalidThinkingLevelFallback
          if result.model.isSome then
            ⟨result.model, none, some ("Invalid thinking level \"".toList ++ suffix ++ "\" in pattern \"".toList ++ pattern ++
              "\". Using default instead.".toList)⟩
          else result
termination_by pattern.length

structure ResolveCliModelResult where
  model : Option Model := none
  thinkingLevel : Option ThinkingLevel := none
  warning : Option (List Char) := none
  error : Option (List Char) := none
  deriving DecidableEq

/-- The spelling of a provider, whatever the case of its letters: the last one. -/
def providerMap (availableModels : List Model) : OrdMap (List Char) (List Char) :=
  availableModels.foldl (fun map model => map.set (locale.toLowerCase model.provider) model.provider) .empty

def findProvider (availableModels : List Model) (provider : List Char) : Option (List Char) :=
  ((providerMap locale availableModels).get? (locale.toLowerCase provider)).filter (· ≠ [])

/-- The provider that the text before the first slash names, and the text after it. -/
def inferProvider (availableModels : List Model) (cliModel : List Char) : Option (List Char × List Char) :=
  match cutAt ['/'] cliModel with
  | none => none
  | some (maybeProvider, pattern) => (findProvider locale availableModels maybeProvider).map fun provider => (provider, pattern)

/-- The id or the full name of the model, whatever the case. -/
def isNamed (cliModel : List Char) (model : Model) : Bool :=
  locale.toLowerCase model.id = locale.toLowerCase cliModel || locale.toLowerCase model.fullName = locale.toLowerCase cliModel

/-- What an inferred provider has no model for, matched against all models. -/
def resolveWhole (cliModel : List Char) (availableModels : List Model) : Option ResolveCliModelResult :=
  match availableModels.find? (isNamed locale cliModel) with
  | some exact => some { model := some exact }
  | none =>
    let fallback := parseModelPattern locale cliModel availableModels false
    if fallback.model.isSome then
      some { model := fallback.model, thinkingLevel := fallback.thinkingLevel, warning := fallback.warning }
    else none

def notFoundWarning (warning : Option (List Char)) (pattern provider : List Char) : List Char :=
  let notFound := "Model \"".toList ++ pattern ++ "\" not found for provider \"".toList ++ provider ++
    "\". Using custom model id.".toList
  match warning with
  | some warning => warning ++ ' ' :: notFound
  | none => notFound

/-- A pattern among the models of a provider, if there is one. -/
def resolvePattern (cliModel : List Char) (provider : Option (List Char)) (pattern : List Char) (inferredProvider : Bool)
    (availableModels : List Model) : ResolveCliModelResult :=
  let candidates := match provider with
    | some provider => availableModels.filter (·.provider = provider)
    | none => availableModels
  let result := parseModelPattern locale pattern candidates false
  if result.model.isSome then
    { model := result.model, thinkingLevel := result.thinkingLevel, warning := result.warning }
  else
    match if inferredProvider then resolveWhole locale cliModel availableModels else none with
    | some whole => whole
    | none =>
      match provider with
      | some provider =>
        match buildFallbackModel provider pattern availableModels with
        | some fallbackModel =>
          { model := some fallbackModel, warning := some (notFoundWarning result.warning pattern provider) }
        | none =>
          { warning := result.warning
            error := some ("Model \"".toList ++ (provider ++ '/' :: pattern) ++
              "\" not found. Use --list-models to see available models.".toList) }
      | none =>
        { warning := result.warning
          error := some ("Model \"".toList ++ cliModel ++
            "\" not found. Use --list-models to see available models.".toList) }

def resolveCliModel (cliProvider cliModel : Option (List Char)) (availableModels : List Model) : ResolveCliModelResult :=
  match cliModel.filter (· ≠ []) with
  | none => {}
  | some cliModel =>
    if availableModels = [] then
      { error := some "No models available. Check your installation or add models to models.json.".toList }
    else
      match cliProvider.filter (· ≠ []) with
      | some cliProvider =>
        match findProvider locale availableModels cliProvider with
        | none =>
          { error := some ("Unknown provider \"".toList ++ cliProvider ++
              "\". Use --list-models to see available providers/models.".toList) }
        | some provider =>
          -- the provider may stand before the pattern once more
          let start := provider ++ ['/']
          let pattern := if (locale.toLowerCase start).isPrefixOf (locale.toLowerCase cliModel) then cliModel.drop start.length
            else cliModel
          resolvePattern locale cliModel (some provider) pattern false availableModels
      | none =>
        match inferProvider locale availableModels cliModel with
        | some (provider, pattern) => resolvePattern locale cliModel (some provider) pattern true availableModels
        | none =>
          match availableModels.find? (isNamed locale cliModel) with
          | some exact => { model := some exact }
          | none => resolvePattern locale cliModel none cliModel false availableModels

end Trek.Models
