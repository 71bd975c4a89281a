/-
# The resources of packages and settings

`core/package-manager.ts`: `resolve` lists the resource files of the packages, of the lists in the settings and of the
resource directories, each with whether it is enabled. A list of patterns decides which files of a package or of the
settings are: plain patterns include, `!` excludes, `+` and `-` name a file and come last.
-/
import Trek.Lib.Firsts
import Mathlib.Data.List.Sort

namespace Trek.Packages

abbrev Path := List Char

abbrev Pattern := List Char

/-- `ResourceType`. -/
inductive ResourceType
  | extensions | skills | prompts | themes
  deriving DecidableEq

/-- `RESOURCE_TYPES`. -/
def RESOURCE_TYPES : List ResourceType := [.extensions, .skills, .prompts, .themes]

/-- A scope of settings. -/
inductive SourceScope
  | user | project
  deriving DecidableEq

/-- Where a resource comes from. -/
inductive Origin
  | package | topLevel
  deriving DecidableEq

/-- `PathMetadata`. -/
structure PathMetadata where
  source : String
  scope : SourceScope
  origin : Origin
  baseDir : Option Path
  deriving DecidableEq

/-- `ResolvedResource`. -/
structure ResolvedResource where
  path : Path
  enabled : Bool
  metadata : PathMetadata
  deriving DecidableEq

/-- `PackageFilter`, and the lists of a `PiManifest`. -/
abbrev PackageFilter := ResourceType → Option (List Pattern)

/-- `PackageSource`: a source, or an object that also filters its resources. -/
inductive PackageSource
  | plain (source : String)
  | filtered (source : String) (filter : PackageFilter)

/-- The settings of a scope. -/
structure Settings where
  packages : Option (List PackageSource)
  paths : ResourceType → Option (List Pattern)

/-- A package of the settings. -/
structure PackageEntry where
  pkg : PackageSource
  scope : SourceScope

def PackageSource.source : PackageSource → String
  | .plain source => source
  | .filtered source _ => source

def PackageSource.filter : PackageSource → Option PackageFilter
  | .plain _ => none
  | .filtered _ filter => some filter

/-- What is at a path. -/
inductive FileKind
  | file | directory | other
  deriving DecidableEq

/-- Where a package is: nowhere, where it was installed, or at a path of its own. -/
inductive PackageLocation
  | missing
  | installed (path : Path)
  | localPath (path : Path)

/-- A resource before its place in the list is known. -/
structure Entry where
  metadata : PathMetadata
  enabled : Bool
  deriving DecidableEq

/-- Paths are POSIX paths. The files do not change: `collectResourceFiles` finds those of a directory, and
`autoDiscovered` those of the resource directories of a scope, with the directory their patterns are relative to. -/
structure Host where
  relative : Path → Path → Path
  basename : Path → Path
  dirname : Path → Path
  minimatch : Path → Pattern → Bool
  resolve : Path → Path → Path
  resolvePathFromBase : Path → Path → Path
  globSync : Path → Pattern → List Path
  canonicalizePath : Path → Path
  stat : Path → Option FileKind
  join : Path → ResourceType → Path
  collectResourceFiles : Path → ResourceType → List Path
  readPiManifest : Path → Option PackageFilter
  locate : SourceScope → String → PackageLocation
  getPackageIdentity : SourceScope → String → String
  getBaseDirForScope : SourceScope → Path
  autoDiscovered : SourceScope → ResourceType → List (Path × List Path)

/-! ### Patterns -/

/-- `isOverridePattern`. -/
def isOverridePattern (s : Pattern) : Bool := s.head? = some '!' || s.head? = some '+' || s.head? = some '-'

/-- `hasGlobPattern`. -/
def hasGlobPattern (s : Pattern) : Bool := s.contains '*' || s.contains '?'

/-- `isPattern`. -/
def isPattern (s : Pattern) : Bool := isOverridePattern s || hasGlobPattern s

/-- `normalizeExactPattern`. -/
def normalizeExactPattern (pattern : Pattern) : Pattern :=
  if ['.', '/'].isPrefixOf pattern || ['.', '\\'].isPrefixOf pattern then pattern.drop 2 else pattern

/-- The patterns with a mark in front, without it. -/
def marked (mark : Char) (patterns : List Pattern) : List Pattern :=
  (patterns.filter fun p => p.head? = some mark).map List.tail

section

variable (host : Host)

/-- A file that is read by the name of its directory. -/
def Host.isSkillFile (filePath : Path) : Bool := host.basename filePath = "SKILL.md".toList

/-- `matchesAnyPattern`. -/
def Host.matchesAnyPattern (filePath : Path) (patterns : List Pattern) (baseDir : Path) : Bool :=
  let parentDir := host.dirname filePath
  patterns.any fun pattern =>
    host.minimatch (host.relative baseDir filePath) pattern || host.minimatch (host.basename filePath) pattern ||
      host.minimatch filePath pattern ||
      (host.isSkillFile filePath && (host.minimatch (host.relative baseDir parentDir) pattern ||
        host.minimatch (host.basename parentDir) pattern || host.minimatch parentDir pattern))

/-- `matchesAnyExactPattern`. -/
def Host.matchesAnyExactPattern (filePath : Path) (patterns : List Pattern) (baseDir : Path) : Bool :=
  let parentDir := host.dirname filePath
  patterns.any fun pattern =>
    let normalized := normalizeExactPattern pattern
    normalized = host.relative baseDir filePath || normalized = filePath ||
      (host.isSkillFile filePath && (normalized = host.relative baseDir parentDir || normalized = parentDir))

/-- `isEnabledByOverrides`. -/
def Host.isEnabledByOverrides (filePath : Path) (patterns : List Pattern) (baseDir : Path) : Bool :=
  let overrides := patterns.filter isOverridePattern
  let enabled := if host.matchesAnyPattern filePath (marked '!' overrides) baseDir then false else true
  let enabled := if host.matchesAnyExactPattern filePath (marked '+' overrides) baseDir then true else enabled
  if host.matchesAnyExactPattern filePath (marked '-' overrides) baseDir then false else enabled

/-- The set `applyPatterns` returns, in the order of insertion. -/
def Host.applyPatterns (allPaths : List Path) (patterns : List Pattern) (baseDir : Path) : List Path :=
  let includes := patterns.filter fun p => !isOverridePattern p
  let result := if includes.isEmpty then allPaths
    else allPaths.filter fun filePath => host.matchesAnyPattern filePath includes baseDir
  let result := result.filter fun filePath => !host.matchesAnyPattern filePath (marked '!' patterns) baseDir
  let result := allPaths.foldl (fun result filePath =>
    if !result.contains filePath && host.matchesAnyExactPattern filePath (marked '+' patterns) baseDir then
      result ++ [filePath]
    else result) result
  let result := result.filter fun filePath => !host.matchesAnyExactPattern filePath (marked '-' patterns) baseDir
  OrdMap.distinct result

/-! ### Files -/

/-- `collectFilesFromPaths`. -/
def Host.collectFilesFromPaths (paths : List Path) (resourceType : ResourceType) : List Path :=
  paths.flatMap fun p =>
    match host.stat p with
    | some .file => [p]
    | some .directory => host.collectResourceFiles p resourceType
    | some .other | none => []

/-- `collectFilesFromManifestEntries`. -/
def Host.collectFilesFromManifestEntries (entries : List Pattern) (root : Path) (resourceType : ResourceType) : List Path :=
  let sourceEntries := entries.filter fun entry => !isOverridePattern entry
  let resolved := sourceEntries.flatMap fun entry =>
    if hasGlobPattern entry then host.globSync root entry else [host.resolve root entry]
  host.collectFilesFromPaths resolved resourceType

/-- The files of the directory of a type, if there is one. -/
def Host.conventionFiles (packageRoot : Path) (resourceType : ResourceType) : List Path :=
  let dir := host.join packageRoot resourceType
  if (host.stat dir).isSome then host.collectResourceFiles dir resourceType else []

/-- `allFiles` of `collectManifestFiles`. -/
def Host.collectManifestFiles (packageRoot : Path) (resourceType : ResourceType) : List Path :=
  match (host.readPiManifest packageRoot).bind fun manifest => manifest resourceType with
  | some (entry :: entries) =>
    let allFiles := host.collectFilesFromManifestEntries (entry :: entries) packageRoot resourceType
    let manifestPatterns := (entry :: entries).filter isOverridePattern
    if manifestPatterns.isEmpty then OrdMap.distinct allFiles
    else host.applyPatterns allFiles manifestPatterns packageRoot
  | _ => host.conventionFiles packageRoot resourceType

/-! ### Packages -/

/-- `addManifestEntries`: what is added. -/
def Host.addManifestEntries (entries : List Pattern) (root : Path) (resourceType : ResourceType) (metadata : PathMetadata) :
    List (Path × Entry) :=
  let allFiles := host.collectFilesFromManifestEntries entries root resourceType
  let enabledPaths := host.applyPatterns allFiles (entries.filter isOverridePattern) root
  (allFiles.filter fun f => enabledPaths.contains f).map fun f => (f, ⟨metadata, true⟩)

/-- `collectDefaultResources`: what is added. -/
def Host.collectDefaultResources (packageRoot : Path) (resourceType : ResourceType) (metadata : PathMetadata) :
    List (Path × Entry) :=
  match (host.readPiManifest packageRoot).bind fun manifest => manifest resourceType with
  | some entries => host.addManifestEntries entries packageRoot resourceType metadata
  | none => (host.conventionFiles packageRoot resourceType).map fun f => (f, ⟨metadata, true⟩)

/-- `applyPackageFilter`: what is added. -/
def Host.applyPackageFilter (packageRoot : Path) (userPatterns : List Pattern) (resourceType : ResourceType)
    (metadata : PathMetadata) : List (Path × Entry) :=
  let allFiles := host.collectManifestFiles packageRoot resourceType
  if userPatterns.isEmpty then allFiles.map fun f => (f, ⟨metadata, false⟩)
  else
    let enabledByUser := host.applyPatterns allFiles userPatterns packageRoot
    allFiles.map fun f => (f, ⟨metadata, enabledByUser.contains f⟩)

/-- What `collectPackageResources` adds of a type. -/
def Host.collectPackageResources (packageRoot : Path) (filter : Option PackageFilter) (metadata : PathMetadata)
    (resourceType : ResourceType) : List (Path × Entry) :=
  match filter with
  | some filter =>
    match filter resourceType with
    | some patterns => host.applyPackageFilter packageRoot patterns resourceType metadata
    | none => host.collectDefaultResources packageRoot resourceType metadata
  | none =>
    match host.readPiManifest packageRoot with
    | some manifest =>
      match manifest resourceType with
      | some entries => host.addManifestEntries entries packageRoot resourceType metadata
      | none => []
    | none => (host.conventionFiles packageRoot resourceType).map fun f => (f, ⟨metadata, true⟩)

/-- What `collectPackageResources` returns. -/
def Host.hasPackageResources (packageRoot : Path) (filter : Option PackageFilter) : Bool :=
  filter.isSome || (host.readPiManifest packageRoot).isSome ||
    RESOURCE_TYPES.any fun resourceType => (host.stat (host.join packageRoot resourceType)).isSome

/-- What `resolvePackageSources` adds of a type for a package. -/
def Host.resolvePackageSource (entry : PackageEntry) (resourceType : ResourceType) : List (Path × Entry) :=
  let metadata (baseDir : Path) : PathMetadata := ⟨entry.pkg.source, entry.scope, .package, some baseDir⟩
  match host.locate entry.scope entry.pkg.source with
  | .missing => []
  | .installed root => host.collectPackageResources root entry.pkg.filter (metadata root) resourceType
  | .localPath resolved =>
    match host.stat resolved with
    | none | some .other => []
    | some .file =>
      if resourceType = .extensions then [(resolved, ⟨metadata (host.dirname resolved), true⟩)] else []
    | some .directory =>
      if host.hasPackageResources resolved entry.pkg.filter then
        host.collectPackageResources resolved entry.pkg.filter (metadata resolved) resourceType
      else if resourceType = .extensions then [(resolved, ⟨metadata resolved, true⟩)]
      else []

/-- One round of the loop of `dedupePackages`. -/
def Host.dedupeStep (seen : OrdMap String PackageEntry) (entry : PackageEntry) : OrdMap String PackageEntry :=
  let identity := host.getPackageIdentity entry.scope entry.pkg.source
  match seen.get? identity with
  | none => seen.set identity entry
  | some existing =>
    if entry.scope = .project ∧ existing.scope = .user then seen.set identity entry else seen

/-- `dedupePackages`. -/
def Host.dedupePackages (packages : List PackageEntry) : List PackageEntry :=
  (packages.foldl host.dedupeStep OrdMap.empty).values

end

/-! ### All resources -/

/-- The settings of both scopes. -/
structure AllSettings where
  user : Settings
  project : Settings

namespace AllSettings

/-- The settings of a scope. -/
def get (settings : AllSettings) : SourceScope → Settings
  | .user => settings.user
  | .project => settings.project

/-- The packages of a scope. -/
def packages (settings : AllSettings) (scope : SourceScope) : List PackageSource := (settings.get scope).packages.getD []

/-- The list of a scope for a type. -/
def entries (settings : AllSettings) (scope : SourceScope) (resourceType : ResourceType) : List Pattern :=
  ((settings.get scope).paths resourceType).getD []

/-- `allPackages`: those of the project come first. -/
def allPackages (settings : AllSettings) : List PackageEntry :=
  ((settings.packages .project).map fun pkg => ⟨pkg, .project⟩) ++ (settings.packages .user).map fun pkg => ⟨pkg, .user⟩

end AllSettings

section

variable (host : Host) (settings : AllSettings)

/-- `resolveLocalEntries`: what is added for a scope. -/
def Host.resolveLocalEntries (scope : SourceScope) (resourceType : ResourceType) : List (Path × Entry) :=
  let entries := settings.entries scope resourceType
  let baseDir := host.getBaseDirForScope scope
  let resolvedPlain := (entries.filter fun p => !isPattern p).map fun p => host.resolvePathFromBase p baseDir
  let allFiles := host.collectFilesFromPaths resolvedPlain resourceType
  let enabledPaths := host.applyPatterns allFiles (entries.filter isPattern) baseDir
  allFiles.map fun f => (f, ⟨⟨"local", scope, .topLevel, none⟩, enabledPaths.contains f⟩)

/-- `addAutoDiscoveredResources`: what is added for a scope. -/
def Host.addAutoDiscoveredResources (scope : SourceScope) (resourceType : ResourceType) : List (Path × Entry) :=
  (host.autoDiscovered scope resourceType).flatMap fun found =>
    found.2.map fun path => (path, ⟨⟨"auto", scope, .topLevel, some found.1⟩,
      host.isEnabledByOverrides path (settings.entries scope resourceType) found.1⟩)

/-- Everything `resolve` adds of a type, in this order. -/
def Host.added (resourceType : ResourceType) : List (Path × Entry) :=
  (host.dedupePackages settings.allPackages).flatMap (host.resolvePackageSource · resourceType) ++
    (host.resolveLocalEntries settings .project resourceType ++ host.resolveLocalEntries settings .user resourceType ++
      (host.addAutoDiscoveredResources settings .project resourceType ++
        host.addAutoDiscoveredResources settings .user resourceType))

end

/-- `addResource`. -/
def addResource (map : OrdMap Path Entry) (resource : Path × Entry) : OrdMap Path Entry :=
  if resource.1.isEmpty then map else map.setIfNew resource

/-- `resourcePrecedenceRank`. -/
def resourcePrecedenceRank (m : PathMetadata) : ℕ :=
  match m.origin with
  | .package => 4
  | .topLevel => (if m.scope = .project then 0 else 2) + if m.source = "local" then 0 else 1

/-- `mapToResolved`: the first resources with their canonical paths, by their ranks. -/
def Host.mapToResolved (host : Host) (entries : OrdMap Path Entry) : List ResolvedResource :=
  let resolved : List ResolvedResource := entries.pairs.map fun p => ⟨p.1, p.2.enabled, p.2.metadata⟩
  let sorted := resolved.insertionSort fun a b => resourcePrecedenceRank a.metadata ≤ resourcePrecedenceRank b.metadata
  (OrdMap.firsts [] (sorted.map fun entry => (host.canonicalizePath entry.path, entry))).map Prod.snd

/-- What `resolve` returns of a type. -/
def Host.resolved (host : Host) (settings : AllSettings) (resourceType : ResourceType) : List ResolvedResource :=
  host.mapToResolved ((host.added settings resourceType).foldl addResource OrdMap.empty)

/-! ### The config selector

`modes/interactive/components/config-selector.ts`: a resource is enabled or disabled by an entry of the list it is
filtered with. -/

/-- `p.slice(1)` if the entry has a mark. -/
def stripMark (p : Pattern) : Pattern := if isOverridePattern p then p.tail else p

/-- `updated`. -/
def toggledPatterns (current : List Pattern) (pattern : Pattern) (enabled : Bool) : List Pattern :=
  (current.filter fun p => stripMark p ≠ pattern) ++ [(if enabled then '+' else '-') :: pattern]

namespace AllSettings

/-- The settings of a scope are changed. -/
def modify (settings : AllSettings) (scope : SourceScope) (change : Settings → Settings) : AllSettings :=
  match scope with
  | .user => { settings with user := change settings.user }
  | .project => { settings with project := change settings.project }

end AllSettings

section

variable (host : Host) (settings : AllSettings) (resourceType : ResourceType) (item : ResolvedResource)

/-- `getResourcePattern`. -/
def Host.getResourcePattern : Pattern :=
  host.relative (item.metadata.baseDir.getD (host.getBaseDirForScope item.metadata.scope)) item.path

/-- `getPackageResourcePattern`. -/
def Host.getPackageResourcePattern : Pattern :=
  host.relative (item.metadata.baseDir.getD (host.dirname item.path)) item.path

/-- `toggleTopLevelResource`. -/
def Host.toggleTopLevelResource (enabled : Bool) : AllSettings :=
  let current := settings.entries item.metadata.scope resourceType
  let updated := toggledPatterns current (host.getResourcePattern item) enabled
  settings.modify item.metadata.scope fun s => { s with paths := Function.update s.paths resourceType (some updated) }

/-- The package after the toggle. -/
def Host.toggledPackage (pkg : PackageSource) (enabled : Bool) : PackageSource :=
  let filter := pkg.filter.getD fun _ => none
  let updated := toggledPatterns ((filter resourceType).getD []) (host.getPackageResourcePattern item) enabled
  let filter := Function.update filter resourceType (if updated.isEmpty then none else some updated)
  if RESOURCE_TYPES.any fun k => (filter k).isSome then .filtered pkg.source filter else .plain pkg.source

/-- `togglePackageResource`. -/
def Host.togglePackageResource (enabled : Bool) : AllSettings :=
  let packages := settings.packages item.metadata.scope
  match packages.findIdx? (·.source = item.metadata.source) with
  | none => settings
  | some pkgIndex =>
    settings.modify item.metadata.scope fun s =>
      { s with packages := some (packages.modify pkgIndex (host.toggledPackage resourceType item · enabled)) }

/-- `toggleResource`. -/
def Host.toggleResource (enabled : Bool) : AllSettings :=
  match item.metadata.origin with
  | .topLevel => host.toggleTopLevelResource settings resourceType item enabled
  | .package => host.togglePackageResource settings resourceType item enabled

end

end Trek.Packages
