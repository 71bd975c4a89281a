/-
# What a toggle changes

The config selector enables or disables a resource by one entry of a list. `TogglesOnly` says that `resolve` then shows the
same resources, the selected one with the chosen state and every other one with its own. As long as no file comes or goes
with the change of the list, this holds exactly when the entries left and the new one give every resource of the list the
state it should have (`toggleResource_togglesOnly`).
-/
import Trek.Packages.Toggle

namespace Trek.Packages

open OrdMap

/-- What should be shown after the toggle: the selected resource with the chosen state, and the others unchanged. -/
def Host.TogglesOnly (host : Host) (settings : AllSettings) (resourceType : ResourceType) (item : ResolvedResource)
    (enabled : Bool) : Prop :=
  ∀ resourceType', host.resolved (host.toggleResource settings resourceType item enabled) resourceType' =
    (host.resolved settings resourceType').map fun r =>
      if resourceType' = resourceType ∧ r = item then r.withState enabled else r

/-- The state a resource should have after the toggle. -/
def wantedState (item : ResolvedResource) (enabled : Bool) (r : ResolvedResource) : Bool :=
  if r = item then enabled else r.enabled

/-- The entries left and the new one decide every resource of the list as they should. A file package has no list; a
resource that the new entry names gets the chosen state, unless a `-` that is left names it too; and the entries left
decide the others. -/
structure Host.ListAgrees (host : Host) (settings : AllSettings) (resourceType : ResourceType) (item : ResolvedResource)
    (enabled : Bool) : Prop where
  file : host.isFilePackage item.metadata = true → item.enabled = enabled
  named : host.isFilePackage item.metadata = false → ∀ r ∈ host.resolved settings resourceType,
    sharesList item.metadata r.metadata = true →
    host.matchesAnyExactPattern r.path [host.itemPattern item] (host.patternBase r.metadata) = true →
    wantedState item enabled r = (enabled && !host.matchesAnyExactPattern r.path
      (marked '-' (host.entriesLeft settings resourceType item)) (host.patternBase r.metadata))
  others : host.isFilePackage item.metadata = false → ∀ r ∈ host.resolved settings resourceType,
    sharesList item.metadata r.metadata = true →
    host.matchesAnyExactPattern r.path [host.itemPattern item] (host.patternBase r.metadata) = false →
    wantedState item enabled r = host.isEnabledByPatterns r.path
      (patternsFor r.metadata (host.entriesLeft settings resourceType item)) (host.patternBase r.metadata)

section

variable {host : Host} {settings : AllSettings} {resourceType : ResourceType} {item : ResolvedResource} {enabled : Bool}

/-! ### Where a resource comes from -/

theorem mem_resolved {r : ResolvedResource} (h : r ∈ host.resolved settings resourceType) :
    (r.path, ⟨r.metadata, r.enabled⟩) ∈ host.added settings resourceType := by
  unfold Host.resolved Host.mapToResolved at h
  dsimp only at h
  obtain ⟨q, hq, rfl⟩ := List.mem_map.mp h
  obtain ⟨-, l₁, l₂, hl, -⟩ := mem_firsts hq
  have hmem : q ∈ l₁ ++ q :: l₂ := List.mem_append_right _ List.mem_cons_self
  rw [← hl] at hmem
  obtain ⟨r, hr, rfl⟩ := List.mem_map.mp hmem
  rw [List.mem_insertionSort] at hr
  obtain ⟨p, hp, rfl⟩ := List.mem_map.mp hr
  rw [pairs_foldl_addResource] at hp
  obtain ⟨-, l₁, l₂, hl, -⟩ := mem_firsts hp
  have hmem : p ∈ l₁ ++ p :: l₂ := List.mem_append_right _ List.mem_cons_self
  rw [← hl] at hmem
  exact (List.mem_filter.mp hmem).1

theorem resolveLocalEntries_origin {scope : SourceScope} {p : Path × Entry}
    (h : p ∈ host.resolveLocalEntries settings scope resourceType) : p.2.metadata.origin = .topLevel := by
  obtain ⟨f, -, rfl⟩ := List.mem_map.mp h
  rfl

theorem addAutoDiscoveredResources_origin {scope : SourceScope} {p : Path × Entry}
    (h : p ∈ host.addAutoDiscoveredResources settings scope resourceType) : p.2.metadata.origin = .topLevel := by
  obtain ⟨found, -, hp⟩ := List.mem_flatMap.mp h
  obtain ⟨f, -, rfl⟩ := List.mem_map.mp hp
  rfl

/-- A resource of a package comes from one that is kept. -/
theorem package_of_mem_resolved (h : item ∈ host.resolved settings resourceType) (horigin : item.metadata.origin = .package) :
    ∃ entry ∈ host.dedupePackages settings.allPackages,
      entry.scope = item.metadata.scope ∧ entry.pkg.source = item.metadata.source := by
  have hadded := mem_resolved h
  unfold Host.added at hadded
  simp only [List.mem_append] at hadded
  rcases hadded with hpackages | (hlocal | hlocal) | hauto | hauto
  · obtain ⟨entry, hentry, hp⟩ := List.mem_flatMap.mp hpackages
    obtain ⟨-, hscope, hsource⟩ := resolvePackageSource_metadata host hp
    exact ⟨entry, hentry, hscope.symm, hsource.symm⟩
  · exact absurd (resolveLocalEntries_origin hlocal) (by simp [horigin])
  · exact absurd (resolveLocalEntries_origin hlocal) (by simp [horigin])
  · exact absurd (addAutoDiscoveredResources_origin hauto) (by simp [horigin])
  · exact absurd (addAutoDiscoveredResources_origin hauto) (by simp [horigin])

/-! ### What is added after the toggle -/

theorem newState_of_origin {m : PathMetadata} (hm : m.origin ≠ item.metadata.origin) (resourceType' : ResourceType)
    (path : Path) (before : Bool) :
    host.newState settings resourceType item enabled resourceType' path m before = before := by
  simp [Host.newState, sharesList, hm]

theorem withStates_flatMap {ι : Type*} (state : Path → PathMetadata → Bool → Bool) (l : List ι)
    (f : ι → List (Path × Entry)) : withStates state (l.flatMap f) = l.flatMap fun x => withStates state (f x) :=
  List.map_flatMap

theorem added_toggleTopLevelResource (h : item.metadata.origin = .topLevel)
    (hfiles : host.SameFiles settings resourceType item) (resourceType' : ResourceType) :
    SameFirsts (host.added (host.toggleTopLevelResource settings resourceType item enabled) resourceType')
      (withStates (host.newState settings resourceType item enabled resourceType') (host.added settings resourceType')) := by
  unfold Host.added
  rw [allPackages_toggleTopLevelResource]
  simp only [withStates_append]
  apply SameFirsts.append
  · rw [withStates_of_same]
    · exact .refl _
    · intro p hp
      obtain ⟨entry, -, hp⟩ := List.mem_flatMap.mp hp
      apply newState_of_origin
      rw [(resolvePackageSource_metadata host hp).1, h]
      decide
  · apply SameFirsts.append
    · exact (resolveLocalEntries_toggle h hfiles _ _).append (resolveLocalEntries_toggle h hfiles _ _)
    · rw [addAutoDiscoveredResources_toggle h, addAutoDiscoveredResources_toggle h]
      exact .refl _

theorem entries_modify_packages (scope scope' : SourceScope) (packages : List PackageSource) (resourceType' : ResourceType) :
    (settings.modify scope fun s => { s with packages := some packages }).entries scope' resourceType' =
      settings.entries scope' resourceType' := by
  cases scope <;> cases scope' <;> rfl

theorem added_togglePackageResource (hitem : item ∈ host.resolved settings resourceType)
    (h : item.metadata.origin = .package) (hfiles : host.SameFiles settings resourceType item)
    (resourceType' : ResourceType) :
    SameFirsts (host.added (host.togglePackageResource settings resourceType item enabled) resourceType')
      (withStates (host.newState settings resourceType item enabled resourceType') (host.added settings resourceType')) := by
  obtain ⟨kept, hkept, hscope, hsource⟩ := package_of_mem_resolved hitem h
  have hfound := find?_of_mem_dedupePackages host hkept
  rw [hscope, hsource] at hfound
  obtain ⟨pkgIndex, hindex⟩ : ∃ pkgIndex, (settings.packages item.metadata.scope).findIdx?
      (·.source = item.metadata.source) = some pkgIndex := by
    rw [← Option.isSome_iff_exists, List.findIdx?_isSome]
    exact List.any_eq_true.mpr ⟨kept.pkg, List.mem_of_find?_eq_some hfound, decide_eq_true hsource⟩
  have hsource : ∀ pkg, (host.toggledPackage resourceType item pkg enabled).source = pkg.source :=
    fun _ => toggledPackage_source _
  have hdedupe := dedupePackages_modify host settings hsource _ hindex
  have htop : ∀ {l : List (Path × Entry)}, (∀ p ∈ l, p.2.metadata.origin = .topLevel) →
      withStates (host.newState settings resourceType item enabled resourceType') l = l := by
    intro l hl
    apply withStates_of_same
    intro p hp
    apply newState_of_origin
    rw [hl p hp, h]
    decide
  unfold Host.togglePackageResource
  simp only [hindex]
  unfold Host.added
  simp only [withStates_append, hdedupe]
  apply SameFirsts.append
  · rw [List.flatMap_map, withStates_flatMap]
    apply SameFirsts.flatMap
    intro entry hentry
    unfold changePackage
    by_cases hlist : entry.scope = item.metadata.scope ∧ entry.pkg.source = item.metadata.source
    · -- the package the config selector finds
      obtain ⟨hscope', hsource'⟩ := hlist
      have hpkg : settings.packageOf item.metadata = some entry.pkg := by
        have := find?_of_mem_dedupePackages host hentry
        rwa [hscope', hsource'] at this
      rw [if_pos ⟨hscope', hsource'⟩]
      have htoggle : ∀ enabled, SameFirsts _ _ := fun enabled =>
        @resolvePackageSource_toggle host settings resourceType item enabled h _ hsource' hpkg hfiles resourceType'
      rw [← hscope'] at htoggle
      exact htoggle enabled
    · rw [if_neg hlist, withStates_of_same]
      · exact .refl _
      · intro p hp
        obtain ⟨-, hscope', hsource'⟩ := resolvePackageSource_metadata host hp
        have hshares : sharesList item.metadata p.2.metadata = false := by
          rw [Bool.eq_false_iff]
          intro hs
          apply hlist
          simp only [sharesList, h, Bool.and_eq_true, decide_eq_true_eq, Bool.or_eq_true, reduceCtorEq, false_or] at hs
          exact ⟨hscope' ▸ hs.1.2, hsource' ▸ hs.2⟩
        simp [Host.newState, hshares]
  · have hlocal : ∀ scope, withStates (host.newState settings resourceType item enabled resourceType')
        (host.resolveLocalEntries settings scope resourceType') = host.resolveLocalEntries settings scope resourceType' :=
      fun scope => htop fun p hp => resolveLocalEntries_origin hp
    have hauto : ∀ scope, withStates (host.newState settings resourceType item enabled resourceType')
        (host.addAutoDiscoveredResources settings scope resourceType') =
          host.addAutoDiscoveredResources settings scope resourceType' :=
      fun scope => htop fun p hp => addAutoDiscoveredResources_origin hp
    simp only [hlocal, hauto]
    simp only [Host.resolveLocalEntries, Host.addAutoDiscoveredResources, entries_modify_packages]
    exact .refl _

/-- After the toggle `resolve` shows the same resources, those of the list with their new states. -/
theorem resolved_toggleResource (hitem : item ∈ host.resolved settings resourceType)
    (hfiles : host.SameFiles settings resourceType item) (resourceType' : ResourceType) :
    host.resolved (host.toggleResource settings resourceType item enabled) resourceType' =
      (host.resolved settings resourceType').map fun r =>
        r.withState (host.newState settings resourceType item enabled resourceType' r.path r.metadata r.enabled) := by
  have hadded : SameFirsts (host.added (host.toggleResource settings resourceType item enabled) resourceType')
      (withStates (host.newState settings resourceType item enabled resourceType') (host.added settings resourceType')) := by
    unfold Host.toggleResource
    cases horigin : item.metadata.origin with
    | topLevel => exact added_toggleTopLevelResource horigin hfiles resourceType'
    | package => exact added_togglePackageResource hitem horigin hfiles resourceType'
  unfold Host.resolved
  rw [mapToResolved_congr host hadded, mapToResolved_map]

/-! ### When the toggle changes the selected resource only -/

theorem sharesList_self (m : PathMetadata) : sharesList m m = true := by simp [sharesList]

theorem isFilePackage_of_shares {m m' : PathMetadata} (h : sharesList m m' = true) :
    host.isFilePackage m' = host.isFilePackage m := by
  simp only [sharesList, Bool.and_eq_true, decide_eq_true_eq, Bool.or_eq_true] at h
  obtain ⟨⟨horigin, hscope⟩, htop | hsource⟩ := h
  · simp [Host.isFilePackage, horigin, htop]
  · simp [Host.isFilePackage, horigin, hscope, hsource]

theorem togglesOnly_iff (hitem : item ∈ host.resolved settings resourceType)
    (hfiles : host.SameFiles settings resourceType item) :
    host.TogglesOnly settings resourceType item enabled ↔ ∀ resourceType', ∀ r ∈ host.resolved settings resourceType',
      host.newState settings resourceType item enabled resourceType' r.path r.metadata r.enabled =
        if resourceType' = resourceType ∧ r = item then enabled else r.enabled := by
  apply forall_congr'
  intro resourceType'
  rw [resolved_toggleResource hitem hfiles, List.map_inj_left]
  apply forall₂_congr
  intro r _
  by_cases hr : resourceType' = resourceType ∧ r = item
  · rw [if_pos hr, if_pos hr, ResolvedResource.withState_inj]
  · rw [if_neg hr, if_neg hr]
    exact r.withState_inj (b := r.enabled)

theorem toggleResource_togglesOnly (hitem : item ∈ host.resolved settings resourceType)
    (hfiles : host.SameFiles settings resourceType item) :
    host.TogglesOnly settings resourceType item enabled ↔ host.ListAgrees settings resourceType item enabled := by
  rw [togglesOnly_iff hitem hfiles]
  constructor
  · intro h
    have hlist : host.isFilePackage item.metadata = false → ∀ r ∈ host.resolved settings resourceType,
        sharesList item.metadata r.metadata = true →
        host.stateAfter settings resourceType item enabled r.path r.metadata = wantedState item enabled r := by
      intro hfile r hr hshares
      have hstate := h resourceType r hr
      simp only [Host.newState, isFilePackage_of_shares hshares, hshares, hfile, and_self, ↓reduceIte, true_and] at hstate
      exact hstate
    refine ⟨fun hfile => ?_, fun hfile r hr hshares hnamed => ?_, fun hfile r hr hshares hnamed => ?_⟩
    · have hstate := h resourceType item hitem
      simpa [Host.newState, hfile] using hstate
    · rw [← hlist hfile r hr hshares]
      simp [Host.stateAfter, hnamed]
    · rw [← hlist hfile r hr hshares]
      simp [Host.stateAfter, hnamed]
  · intro h resourceType' r hr
    by_cases htype : resourceType' = resourceType
    · subst htype
      by_cases hshares : sharesList item.metadata r.metadata = true
      · cases hfile : host.isFilePackage item.metadata with
        | true =>
          simp only [Host.newState, isFilePackage_of_shares hshares, hfile]
          by_cases hself : r = item
          · subst hself
            simp [h.file hfile]
          · simp [hself]
        | false =>
          have hwanted : host.stateAfter settings resourceType' item enabled r.path r.metadata =
              wantedState item enabled r := by
            cases hnamed : host.matchesAnyExactPattern r.path [host.itemPattern item] (host.patternBase r.metadata) with
            | true => simp [Host.stateAfter, hnamed, h.named hfile r hr hshares hnamed]
            | false => simp [Host.stateAfter, hnamed, h.others hfile r hr hshares hnamed]
          simp only [Host.newState, isFilePackage_of_shares hshares, hshares, hfile, and_self, ↓reduceIte, true_and]
          exact hwanted
      · -- the selected resource is in its own list
        have hne : r ≠ item := by
          rintro rfl
          exact hshares (sharesList_self _)
        simp [Host.newState, hshares, hne]
    · simp [Host.newState, htype]

end

/-! ### One package and one resource directory -/

/-- A host with an installed package and a resource directory, each with two extensions. -/
def sampleHost : Host where
  relative base path := if (base ++ ['/']).isPrefixOf path then path.drop (base.length + 1) else path
  basename path := (path.reverse.takeWhile (· ≠ '/')).reverse
  dirname path := (path.reverse.dropWhile (· ≠ '/')).tail.reverse
  minimatch path pattern := path = pattern
  resolve base path := base ++ '/' :: path
  resolvePathFromBase path base := base ++ '/' :: path
  globSync _ _ := []
  canonicalizePath path := path
  stat path := if path = ['p', '/', 'e'] then some .directory else none
  join base resourceType := base ++ '/' :: (if resourceType = .extensions then ['e'] else ['s'])
  collectResourceFiles dir _ := [dir ++ ['/', 'a'], dir ++ ['/', 'b']]
  readPiManifest _ := none
  locate _ _ := .installed ['p']
  getPackageIdentity _ source := source
  getBaseDirForScope scope := if scope = .user then ['u'] else ['c']
  autoDiscovered scope resourceType :=
    if scope = .user ∧ resourceType = .extensions then
      [(['u'], [['u', '/', 'e', '/', 'a'], ['u', '/', 'e', '/', 'b']])]
    else []

/-- The filter of the package disables all of its extensions, and one of the directory is disabled. -/
def sampleSettings : AllSettings where
  user := {
    packages := some [.filtered "npm:p" fun resourceType => if resourceType = .extensions then some [] else none]
    paths := fun resourceType => if resourceType = .extensions then some [['-', 'e', '/', 'a']] else none }
  project := { packages := none, paths := fun _ => none }

/-- The disabled extension of the directory. -/
def directoryItem : ResolvedResource := ⟨['u', '/', 'e', '/', 'a'], false, ⟨"auto", .user, .topLevel, some ['u']⟩⟩

/-- A disabled extension of the package. -/
def packageItem : ResolvedResource := ⟨['p', '/', 'e', '/', 'a'], false, ⟨"npm:p", .user, .package, some ['p']⟩⟩

theorem directoryItem_togglesOnly :
    directoryItem ∈ sampleHost.resolved sampleSettings .extensions ∧
      sampleHost.SameFiles sampleSettings .extensions directoryItem ∧
      (sampleHost.TogglesOnly sampleSettings .extensions directoryItem true ↔
        sampleHost.ListAgrees sampleSettings .extensions directoryItem true) :=
  have hitem : directoryItem ∈ sampleHost.resolved sampleSettings .extensions := by decide
  have hfiles : sampleHost.SameFiles sampleSettings .extensions directoryItem := by
    unfold Host.SameFiles directoryItem
    decide
  ⟨hitem, hfiles, toggleResource_togglesOnly hitem hfiles⟩

/-- The filter of the package is empty, so all its extensions are disabled. The new entry is its first one, and a filter
of overrides only enables the others. -/
theorem not_togglesOnly : ¬∀ (host : Host) (settings : AllSettings) (resourceType : ResourceType) (item : ResolvedResource)
    (enabled : Bool), item ∈ host.resolved settings resourceType →
    host.TogglesOnly settings resourceType item enabled := by
  intro h
  have hresolved := h sampleHost sampleSettings .extensions packageItem true (by decide) .extensions
  revert hresolved
  decide

end Trek.Packages
