/-
# The config selector and the resources shown

After the config selector enables or disables a resource, the resources of the same list are read with the entries that
are left and the new one (`stateAfter`), and the others keep their states (`newState`). As long as no file comes or goes
with the change of the list (`SameFiles`), `resolve` shows the same resources with these states (`resolved_toggleResource`).
-/
import Trek.Packages.Sources

namespace Trek.Packages

open OrdMap

/-! ### The list of a resource -/

/-- The package the config selector finds for a resource. -/
def AllSettings.packageOf (settings : AllSettings) (m : PathMetadata) : Option PackageSource :=
  (settings.packages m.scope).find? (·.source = m.source)

/-- The list the config selector changes for a resource. -/
def AllSettings.currentEntries (settings : AllSettings) (resourceType : ResourceType) (m : PathMetadata) : List Pattern :=
  match m.origin with
  | .topLevel => settings.entries m.scope resourceType
  | .package => (((settings.packageOf m).bind PackageSource.filter).bind fun filter => filter resourceType).getD []

/-- Resources whose states are in one list: those of a scope, or of a package. -/
def sharesList (item m : PathMetadata) : Bool :=
  m.origin = item.origin && m.scope = item.scope && (item.origin = .topLevel || m.source = item.source)

/-- The patterns of its list that are read for a resource: a list of the settings also has paths, and where a resource was
found in a resource directory only the overrides count. -/
def patternsFor (m : PathMetadata) (entries : List Pattern) : List Pattern :=
  match m.origin, m.baseDir with
  | .package, _ => entries
  | .topLevel, none => entries.filter isPattern
  | .topLevel, some _ => entries.filter isOverridePattern

section

variable (host : Host) (settings : AllSettings) (resourceType : ResourceType) (item : ResolvedResource) (enabled : Bool)

/-- The pattern the config selector writes for a resource. -/
def Host.itemPattern : Pattern :=
  match item.metadata.origin with
  | .topLevel => host.getResourcePattern item
  | .package => host.getPackageResourcePattern item

/-- The entries of the list that do not name the resource. -/
def Host.entriesLeft : List Pattern :=
  (settings.currentEntries resourceType item.metadata).filter fun p => stripMark p ≠ host.itemPattern item

/-- What the patterns of a resource are relative to. -/
def Host.patternBase (m : PathMetadata) : Path := m.baseDir.getD (host.getBaseDirForScope m.scope)

/-- A package that is one file: its filter is not read. -/
def Host.isFilePackage (m : PathMetadata) : Bool :=
  m.origin = .package && match host.locate m.scope m.source with
    | .localPath resolved => host.stat resolved = some .file
    | _ => false

/-- The state of a resource of the list after the change. -/
def Host.stateAfter (path : Path) (m : PathMetadata) : Bool :=
  let left := host.entriesLeft settings resourceType item
  if host.matchesAnyExactPattern path [host.itemPattern item] (host.patternBase m) then
    enabled && !host.matchesAnyExactPattern path (marked '-' left) (host.patternBase m)
  else host.isEnabledByPatterns path (patternsFor m left) (host.patternBase m)

/-- The state of any resource after the change. -/
def Host.newState (resourceType' : ResourceType) (path : Path) (m : PathMetadata) (before : Bool) : Bool :=
  if resourceType' = resourceType ∧ sharesList item.metadata m = true ∧ host.isFilePackage m = false then
    host.stateAfter settings resourceType item enabled path m
  else before

/-! ### The files of a list -/

/-- The files the paths in a list of the settings bring. -/
def Host.localFiles (entries : List Pattern) (scope : SourceScope) : List Path :=
  host.collectFilesFromPaths ((entries.filter fun p => !isPattern p).map
    fun p => host.resolvePathFromBase p (host.getBaseDirForScope scope)) resourceType

/-- What the resources of a package have. -/
def packageMetadata (m : PathMetadata) (packageRoot : Path) : PathMetadata := ⟨m.source, m.scope, .package, some packageRoot⟩

/-- The files a package brings. -/
def Host.packageFiles (m : PathMetadata) (packageRoot : Path) (filter : Option PackageFilter) : List Path :=
  (host.collectPackageResources packageRoot filter (packageMetadata m packageRoot) resourceType).map Prod.fst

/-- The directory of a package. -/
def Host.packageRoot (m : PathMetadata) : Option Path :=
  match host.locate m.scope m.source with
  | .missing => none
  | .installed root => some root
  | .localPath resolved => if host.stat resolved = some .directory then some resolved else none

/-- The files of a package do not change when a list of a type is added to it: those of the type are the ones the
manifest enables, and the package brings those of the other types also without a filter object. -/
structure Host.SamePackageFiles (pkg : PackageSource) (m : PathMetadata) (root : Path) : Prop where
  resources : host.locate m.scope m.source = .localPath root → host.hasPackageResources root pkg.filter = true
  same : distinct (host.packageFiles resourceType m root pkg.filter) = distinct (host.collectManifestFiles root resourceType)
  others : ∀ resourceType' ≠ resourceType, distinct (host.packageFiles resourceType' m root pkg.filter) =
    distinct (host.packageFiles resourceType' m root (some (pkg.filter.getD fun _ => none)))

/-- No file comes or goes with the change of the list. -/
def Host.SameFiles : Prop :=
  match item.metadata.origin with
  | .topLevel =>
    distinct (host.localFiles resourceType (settings.entries item.metadata.scope resourceType) item.metadata.scope) =
      distinct (host.localFiles resourceType (host.entriesLeft settings resourceType item) item.metadata.scope)
  | .package => ∀ pkg root, settings.packageOf item.metadata = some pkg → host.packageRoot item.metadata = some root →
      host.SamePackageFiles resourceType pkg item.metadata root

end

/-! ### The patterns after the change -/

theorem toggledPatterns_eq (current : List Pattern) (pattern : Pattern) (enabled : Bool) :
    toggledPatterns current pattern enabled =
      (current.filter fun p => stripMark p ≠ pattern) ++ [markOf enabled :: pattern] := rfl

theorem marked_filter {f : Pattern → Bool} (hf : ∀ p, isOverridePattern p = true → f p = true) {mark : Char}
    (hmark : mark = '!' ∨ mark = '+' ∨ mark = '-') (entries : List Pattern) :
    marked mark (entries.filter f) = marked mark entries := by
  have hkeep : ∀ p : Pattern, p.head? = some mark → f p = true := by
    intro p hp
    apply hf
    rcases hmark with rfl | rfl | rfl <;> simp [isOverridePattern, hp]
  unfold marked
  rw [List.filter_filter]
  congr 1
  apply List.filter_congr
  intro p _
  by_cases hp : p.head? = some mark <;> simp [hp, hkeep]

theorem patternsFor_append (m : PathMetadata) (entries : List Pattern) (enabled : Bool) (pattern : Pattern) :
    patternsFor m (entries ++ [markOf enabled :: pattern]) = patternsFor m entries ++ [markOf enabled :: pattern] := by
  unfold patternsFor
  split <;> simp

theorem marked_patternsFor (m : PathMetadata) (entries : List Pattern) :
    marked '-' (patternsFor m entries) = marked '-' entries := by
  unfold patternsFor
  split
  · rfl
  · exact marked_filter (fun p hp => by simp [isPattern, hp]) (by simp) entries
  · exact marked_filter (fun p hp => hp) (by simp) entries

section

variable {host : Host} {settings : AllSettings} {resourceType : ResourceType} {item : ResolvedResource} {enabled : Bool}

/-- The state after the change is what the changed list says. -/
theorem isEnabledByPatterns_toggled {current : List Pattern} (path : Path) (m : PathMetadata)
    (hcurrent : settings.currentEntries resourceType item.metadata = current) :
    host.isEnabledByPatterns path (patternsFor m (toggledPatterns current (host.itemPattern item) enabled))
        (host.patternBase m) =
      host.stateAfter settings resourceType item enabled path m := by
  unfold Host.stateAfter Host.entriesLeft
  rw [toggledPatterns_eq, patternsFor_append, isEnabledByPatterns_mark, marked_patternsFor, hcurrent]

/-! ### The lists of the settings -/

theorem withStates_map (state : Path → PathMetadata → Bool → Bool) (files : List Path) (m : PathMetadata)
    (before : Path → Bool) : withStates state (files.map fun f => (f, ⟨m, before f⟩)) =
      files.map fun f => (f, ⟨m, state f m (before f)⟩) := by
  simp [withStates, Function.comp_def]

theorem withStates_append (state : Path → PathMetadata → Bool → Bool) (a b : List (Path × Entry)) :
    withStates state (a ++ b) = withStates state a ++ withStates state b := List.map_append

theorem withStates_of_same {state : Path → PathMetadata → Bool → Bool} {l : List (Path × Entry)}
    (h : ∀ p ∈ l, state p.1 p.2.metadata p.2.enabled = p.2.enabled) : withStates state l = l := by
  have hself : ∀ p ∈ l, (p.1, (⟨p.2.metadata, state p.1 p.2.metadata p.2.enabled⟩ : Entry)) = p := fun p hp => by
    rw [h p hp]
  exact (List.map_congr_left hself).trans (List.map_id' l)

theorem resolveLocalEntries_eq (scope : SourceScope) : host.resolveLocalEntries settings scope resourceType =
    (host.localFiles resourceType (settings.entries scope resourceType) scope).map fun f =>
      (f, ⟨⟨"local", scope, .topLevel, none⟩, host.isEnabledByPatterns f
        ((settings.entries scope resourceType).filter isPattern) (host.getBaseDirForScope scope)⟩) := by
  unfold Host.resolveLocalEntries Host.localFiles
  apply List.map_congr_left
  intro f hf
  rw [contains_applyPatterns hf]

theorem addAutoDiscoveredResources_eq (scope : SourceScope) : host.addAutoDiscoveredResources settings scope resourceType =
    (host.autoDiscovered scope resourceType).flatMap fun found =>
      found.2.map fun path => (path, ⟨⟨"auto", scope, .topLevel, some found.1⟩,
        host.isEnabledByPatterns path ((settings.entries scope resourceType).filter isOverridePattern) found.1⟩) := by
  simp only [Host.addAutoDiscoveredResources, isEnabledByOverrides_eq]

/-! ### A resource of the settings or of a resource directory -/

theorem entries_toggleTopLevelResource (scope : SourceScope) (resourceType' : ResourceType) :
    (host.toggleTopLevelResource settings resourceType item enabled).entries scope resourceType' =
      if scope = item.metadata.scope ∧ resourceType' = resourceType then
        toggledPatterns (settings.entries scope resourceType') (host.getResourcePattern item) enabled
      else settings.entries scope resourceType' := by
  unfold Host.toggleTopLevelResource
  by_cases hscope : scope = item.metadata.scope
  · subst hscope
    by_cases htype : resourceType' = resourceType
    · subst htype
      cases hs : item.metadata.scope <;> simp [AllSettings.entries, AllSettings.modify, AllSettings.get]
    · cases hs : item.metadata.scope <;> simp [AllSettings.entries, AllSettings.modify, AllSettings.get, htype]
  · cases hs : item.metadata.scope <;> cases scope <;>
      simp_all [AllSettings.entries, AllSettings.modify, AllSettings.get]

theorem allPackages_toggleTopLevelResource :
    (host.toggleTopLevelResource settings resourceType item enabled).allPackages = settings.allPackages := by
  unfold Host.toggleTopLevelResource
  cases item.metadata.scope <;> rfl

theorem newState_topLevel (h : item.metadata.origin = .topLevel) {m : PathMetadata} (hm : m.origin = .topLevel)
    (resourceType' : ResourceType) (path : Path) (before : Bool) :
    host.newState settings resourceType item enabled resourceType' path m before =
      if m.scope = item.metadata.scope ∧ resourceType' = resourceType then
        host.stateAfter settings resourceType item enabled path m
      else before := by
  have hfile : host.isFilePackage m = false := by simp [Host.isFilePackage, hm]
  have hshares : sharesList item.metadata m = true ↔ m.scope = item.metadata.scope := by simp [sharesList, h, hm]
  simp [Host.newState, hfile, hshares, and_comm]

theorem localFiles_toggled (current : List Pattern) (pattern : Pattern) (scope : SourceScope) :
    host.localFiles resourceType (toggledPatterns current pattern enabled) scope =
      host.localFiles resourceType (current.filter fun p => stripMark p ≠ pattern) scope := by
  unfold Host.localFiles
  rw [toggledPatterns_eq, List.filter_append]
  simp

theorem resolveLocalEntries_toggle (h : item.metadata.origin = .topLevel) (hfiles : host.SameFiles settings resourceType item)
    (scope : SourceScope) (resourceType' : ResourceType) :
    SameFirsts
      (host.resolveLocalEntries (host.toggleTopLevelResource settings resourceType item enabled) scope resourceType')
      (withStates (host.newState settings resourceType item enabled resourceType')
        (host.resolveLocalEntries settings scope resourceType')) := by
  rw [resolveLocalEntries_eq, resolveLocalEntries_eq, withStates_map, entries_toggleTopLevelResource]
  simp only [newState_topLevel (m := ⟨"local", scope, .topLevel, none⟩) h rfl]
  by_cases hlist : scope = item.metadata.scope ∧ resourceType' = resourceType
  · obtain ⟨rfl, rfl⟩ := hlist
    have hcurrent : settings.currentEntries resourceType' item.metadata =
        settings.entries item.metadata.scope resourceType' := by simp [AllSettings.currentEntries, h]
    have hpattern : host.getResourcePattern item = host.itemPattern item := by simp [Host.itemPattern, h]
    have hstate : ∀ f, host.isEnabledByPatterns f ((toggledPatterns (settings.entries item.metadata.scope resourceType')
          (host.getResourcePattern item) enabled).filter isPattern) (host.getBaseDirForScope item.metadata.scope) =
        host.stateAfter settings resourceType' item enabled f ⟨"local", item.metadata.scope, .topLevel, none⟩ := fun f =>
      hpattern ▸ isEnabledByPatterns_toggled f ⟨"local", item.metadata.scope, .topLevel, none⟩ hcurrent
    unfold Host.SameFiles Host.entriesLeft at hfiles
    rw [h, hcurrent, ← hpattern] at hfiles
    simp only [and_self, ↓reduceIte, hstate, localFiles_toggled]
    exact sameFirsts_of_distinct hfiles.symm _
  · simp only [if_neg hlist]
    exact .refl _

theorem addAutoDiscoveredResources_toggle (h : item.metadata.origin = .topLevel) (scope : SourceScope)
    (resourceType' : ResourceType) :
    host.addAutoDiscoveredResources (host.toggleTopLevelResource settings resourceType item enabled) scope resourceType' =
      withStates (host.newState settings resourceType item enabled resourceType')
        (host.addAutoDiscoveredResources settings scope resourceType') := by
  rw [addAutoDiscoveredResources_eq, addAutoDiscoveredResources_eq, entries_toggleTopLevelResource]
  unfold withStates
  rw [List.map_flatMap]
  apply List.flatMap_congr
  intro found _
  rw [List.map_map]
  apply List.map_congr_left
  intro path _
  have hnew := @newState_topLevel host settings resourceType item enabled h ⟨"auto", scope, .topLevel, some found.1⟩ rfl
    resourceType' path
  by_cases hlist : scope = item.metadata.scope ∧ resourceType' = resourceType
  · obtain ⟨rfl, rfl⟩ := hlist
    have hcurrent : settings.currentEntries resourceType' item.metadata =
        settings.entries item.metadata.scope resourceType' := by simp [AllSettings.currentEntries, h]
    have hpattern : host.getResourcePattern item = host.itemPattern item := by simp [Host.itemPattern, h]
    have hstate := @isEnabledByPatterns_toggled host settings _ item enabled _ path
      ⟨"auto", item.metadata.scope, .topLevel, some found.1⟩ hcurrent
    simp only [Function.comp_apply, hnew, and_self, ↓reduceIte, hpattern]
    rw [← hstate]
    rfl
  · simp only [Function.comp_apply, hnew, if_neg hlist]

/-! ### A resource of a package -/

theorem toggledPackage_source (pkg : PackageSource) :
    (host.toggledPackage resourceType item pkg enabled).source = pkg.source := by
  unfold Host.toggledPackage
  exact apply_ite PackageSource.source _ _ _ |>.trans (ite_self _)

/-- The list of the type, which always has the new entry, keeps the filter object. -/
theorem toggledPackage_filter (pkg : PackageSource) : (host.toggledPackage resourceType item pkg enabled).filter =
    some (Function.update (pkg.filter.getD fun _ => none) resourceType
      (some (toggledPatterns (((pkg.filter.getD fun _ => none) resourceType).getD [])
        (host.getPackageResourcePattern item) enabled))) := by
  have hupdated : (toggledPatterns (((pkg.filter.getD fun _ => none) resourceType).getD [])
      (host.getPackageResourcePattern item) enabled).isEmpty = false := by
    rw [toggledPatterns_eq]
    simp
  have hsome : ∀ (filter : PackageFilter) (patterns : List Pattern),
      RESOURCE_TYPES.any (fun k => (Function.update filter resourceType (some patterns) k).isSome) = true := by
    intro filter patterns
    have hmem : resourceType ∈ RESOURCE_TYPES := by cases resourceType <;> decide
    exact List.any_eq_true.mpr ⟨resourceType, hmem, by simp⟩
  unfold Host.toggledPackage
  dsimp only
  simp only [hupdated, Bool.false_eq_true, ↓reduceIte, hsome]
  rfl

theorem entries_eq_map {l : List (Path × Entry)} {entry : Path → Entry} (h : ∀ p ∈ l, p.2 = entry p.1) :
    l = (l.map Prod.fst).map fun f => (f, entry f) := by
  rw [List.map_map]
  have hself : ∀ p ∈ l, p = ((fun f => (f, entry f)) ∘ Prod.fst) p := fun p hp => Prod.ext rfl (h p hp)
  exact (List.map_id' l).symm.trans (List.map_congr_left hself)

theorem newState_package (h : item.metadata.origin = .package) (root : Path) (resourceType' : ResourceType) (path : Path)
    (before : Bool) :
    host.newState settings resourceType item enabled resourceType' path (packageMetadata item.metadata root) before =
      if resourceType' = resourceType ∧ host.isFilePackage item.metadata = false then
        host.stateAfter settings resourceType item enabled path (packageMetadata item.metadata root)
      else before := by
  have hfile : host.isFilePackage (packageMetadata item.metadata root) = host.isFilePackage item.metadata := by
    simp [Host.isFilePackage, packageMetadata, h]
  have hshares : sharesList item.metadata (packageMetadata item.metadata root) = true := by
    simp [sharesList, packageMetadata, h]
  simp [Host.newState, hfile, hshares]

/-- The types whose list is not changed. -/
theorem collectPackageResources_others {pkg : PackageSource} {root : Path}
    (hsame : host.SamePackageFiles resourceType pkg item.metadata root) {resourceType' : ResourceType}
    (hne : resourceType' ≠ resourceType) :
    SameFirsts
      (host.collectPackageResources root (host.toggledPackage resourceType item pkg enabled).filter
        (packageMetadata item.metadata root) resourceType')
      (host.collectPackageResources root pkg.filter (packageMetadata item.metadata root) resourceType') := by
  have hfilter : host.collectPackageResources root (host.toggledPackage resourceType item pkg enabled).filter
      (packageMetadata item.metadata root) resourceType' =
      host.collectPackageResources root (some (pkg.filter.getD fun _ => none))
        (packageMetadata item.metadata root) resourceType' := by
    rw [toggledPackage_filter]
    simp only [Host.collectPackageResources, Function.update_of_ne hne]
  rw [hfilter]
  cases hpkg : pkg.filter with
  | some filter => exact .refl _
  | none =>
    have hothers := hsame.others resourceType' hne
    rw [hpkg, Option.getD_none] at hothers
    rw [Option.getD_none]
    -- both add all their files as enabled
    have hentries : ∀ filter : Option PackageFilter, (filter.bind fun filter => filter resourceType') = none →
        host.collectPackageResources root filter (packageMetadata item.metadata root) resourceType' =
          ((host.collectPackageResources root filter (packageMetadata item.metadata root) resourceType').map Prod.fst).map
            fun f => (f, ⟨packageMetadata item.metadata root, true⟩) := fun filter hnone =>
      entries_eq_map fun p hp => collectPackageResources_entry hnone hp
    rw [hentries _ rfl, hentries none rfl]
    exact sameFirsts_of_distinct hothers.symm _

/-- The type whose list is changed. -/
theorem collectPackageResources_changed (h : item.metadata.origin = .package) {pkg : PackageSource} {root : Path}
    (hpkg : settings.packageOf item.metadata = some pkg) (hfile : host.isFilePackage item.metadata = false)
    (hsame : host.SamePackageFiles resourceType pkg item.metadata root) :
    SameFirsts
      (host.collectPackageResources root (host.toggledPackage resourceType item pkg enabled).filter
        (packageMetadata item.metadata root) resourceType)
      (withStates (host.newState settings resourceType item enabled resourceType)
        (host.collectPackageResources root pkg.filter (packageMetadata item.metadata root) resourceType)) := by
  have hcurrent : settings.currentEntries resourceType item.metadata =
      ((pkg.filter.getD fun _ => none) resourceType).getD [] := by
    simp only [AllSettings.currentEntries, h, hpkg, Option.bind_some]
    cases pkg.filter <;> rfl
  have hpattern : host.getPackageResourcePattern item = host.itemPattern item := by simp [Host.itemPattern, h]
  have hchanged : host.collectPackageResources root (host.toggledPackage resourceType item pkg enabled).filter
      (packageMetadata item.metadata root) resourceType =
      (host.collectManifestFiles root resourceType).map fun f => (f, ⟨packageMetadata item.metadata root,
        host.stateAfter settings resourceType item enabled f (packageMetadata item.metadata root)⟩) := by
    have hupdated : (toggledPatterns (((pkg.filter.getD fun _ => none) resourceType).getD [])
        (host.getPackageResourcePattern item) enabled).isEmpty = false := by
      rw [toggledPatterns_eq]
      simp
    rw [toggledPackage_filter]
    simp only [Host.collectPackageResources, Function.update_self, Host.applyPackageFilter, hupdated, Bool.false_eq_true,
      ↓reduceIte]
    apply List.map_congr_left
    intro f hf
    rw [contains_applyPatterns hf, ← isEnabledByPatterns_toggled f (packageMetadata item.metadata root) hcurrent, ← hpattern]
    rfl
  have hstates : withStates (host.newState settings resourceType item enabled resourceType)
      (host.collectPackageResources root pkg.filter (packageMetadata item.metadata root) resourceType) =
      (host.packageFiles resourceType item.metadata root pkg.filter).map fun f => (f, ⟨packageMetadata item.metadata root,
        host.stateAfter settings resourceType item enabled f (packageMetadata item.metadata root)⟩) := by
    unfold withStates Host.packageFiles
    rw [List.map_map]
    apply List.map_congr_left
    intro p hp
    rw [collectPackageResources_metadata hp, newState_package h, if_pos ⟨rfl, hfile⟩]
    rfl
  rw [hchanged, hstates]
  exact sameFirsts_of_distinct hsame.same.symm _

/-- The package whose list is changed. -/
theorem resolvePackageSource_toggle (h : item.metadata.origin = .package) {pkg : PackageSource}
    (hsource : pkg.source = item.metadata.source) (hpkg : settings.packageOf item.metadata = some pkg)
    (hfiles : host.SameFiles settings resourceType item) (resourceType' : ResourceType) :
    SameFirsts
      (host.resolvePackageSource ⟨host.toggledPackage resourceType item pkg enabled, item.metadata.scope⟩ resourceType')
      (withStates (host.newState settings resourceType item enabled resourceType')
        (host.resolvePackageSource ⟨pkg, item.metadata.scope⟩ resourceType')) := by
  have hdirectory : ∀ root, host.packageRoot item.metadata = some root → host.isFilePackage item.metadata = false →
      SameFirsts
        (host.collectPackageResources root (host.toggledPackage resourceType item pkg enabled).filter
          (packageMetadata item.metadata root) resourceType')
        (withStates (host.newState settings resourceType item enabled resourceType')
          (host.collectPackageResources root pkg.filter (packageMetadata item.metadata root) resourceType')) := by
    intro root hroot hfile
    unfold Host.SameFiles at hfiles
    rw [h] at hfiles
    have hsame := hfiles pkg root hpkg hroot
    by_cases htype : resourceType' = resourceType
    · subst htype
      exact collectPackageResources_changed h hpkg hfile hsame
    · rw [withStates_of_same]
      · exact collectPackageResources_others hsame htype
      · intro p hp
        rw [collectPackageResources_metadata hp, newState_package h, if_neg fun ht => htype ht.1]
  have hunchanged : host.isFilePackage item.metadata = true → ∀ root before path,
      host.newState settings resourceType item enabled resourceType' path (packageMetadata item.metadata root) before =
        before := by
    intro hfile root before path
    rw [newState_package h, if_neg]
    simp [hfile]
  unfold Host.resolvePackageSource
  simp only [toggledPackage_source, hsource]
  cases hlocate : host.locate item.metadata.scope item.metadata.source with
  | missing => exact .refl _
  | installed root =>
    exact hdirectory root (by simp [Host.packageRoot, hlocate]) (by simp [Host.isFilePackage, hlocate])
  | localPath resolved =>
    dsimp only
    cases hstat : host.stat resolved with
    | none => exact SameFirsts.refl []
    | some kind =>
      cases kind with
      | other => exact SameFirsts.refl []
      | file =>
        have hfile : host.isFilePackage item.metadata = true := by simp [Host.isFilePackage, h, hlocate, hstat]
        have hstate := hunchanged hfile (host.dirname resolved) true resolved
        unfold packageMetadata at hstate
        dsimp only
        by_cases htype : resourceType' = .extensions
        · simp only [if_pos htype, withStates, List.map_cons, List.map_nil, hstate]
          exact SameFirsts.refl _
        · simp only [if_neg htype]
          exact SameFirsts.refl []
      | directory =>
        have hroot : host.packageRoot item.metadata = some resolved := by simp [Host.packageRoot, hlocate, hstat]
        have hfile : host.isFilePackage item.metadata = false := by simp [Host.isFilePackage, hlocate, hstat]
        have hresources : host.hasPackageResources resolved pkg.filter = true := by
          have hsame := hfiles
          unfold Host.SameFiles at hsame
          rw [h] at hsame
          exact (hsame pkg resolved hpkg hroot).resources hlocate
        have hresources' : host.hasPackageResources resolved (host.toggledPackage resourceType item pkg enabled).filter =
            true := by
          simp [Host.hasPackageResources, toggledPackage_filter]
        simp only [hresources, hresources', ↓reduceIte]
        exact hdirectory resolved hroot hfile

end

end Trek.Packages
