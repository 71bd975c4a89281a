/-
# The packages of the settings

The packages of the project stand before the user's, so `dedupePackages` keeps the first package of each identity
(`dedupePackages_allPackages`), and the change of one package by the config selector is the change of the one that is
kept (`dedupePackages_modify`). What a kept package adds has the source and the scope of the package.
-/
import Trek.Packages.Shown

namespace Trek.Packages

open OrdMap

section

variable (host : Host)

/-! ### Which packages are kept -/

/-- The identity a package is kept under. -/
def Host.identityOf (entry : PackageEntry) : String := host.getPackageIdentity entry.scope entry.pkg.source

theorem dedupeStep_eq {seen : OrdMap String PackageEntry} {entry : PackageEntry}
    (h : entry.scope = .project → ∀ v ∈ seen.values, v.scope = .project) :
    host.dedupeStep seen entry = setIfNew seen (host.identityOf entry, entry) := by
  unfold Host.dedupeStep setIfNew has Host.identityOf
  dsimp only
  cases hget : seen.get? (host.getPackageIdentity entry.scope entry.pkg.source) with
  | none => simp
  | some existing =>
    have hexisting : ¬(entry.scope = .project ∧ existing.scope = .user) := by
      rintro ⟨hentry, huser⟩
      have := h hentry existing (get?_mem_values hget)
      simp [huser] at this
    simp [hexisting]

theorem mem_values_setIfNew {m : OrdMap String PackageEntry} {p : String × PackageEntry} {v : PackageEntry}
    (h : v ∈ (setIfNew m p).values) : v = p.2 ∨ v ∈ m.values := by
  unfold setIfNew at h
  split at h
  · exact .inr h
  · obtain ⟨q, hq, rfl⟩ := List.mem_map.mp h
    rcases mem_set hq with rfl | hq
    · exact .inl rfl
    · exact .inr (List.mem_map_of_mem hq)

theorem foldl_dedupeStep : ∀ (l : List PackageEntry) (m : OrdMap String PackageEntry),
    l.Pairwise (fun a b => b.scope = .project → a.scope = .project) →
    (∀ v ∈ m.values, ∀ e ∈ l, e.scope = .project → v.scope = .project) →
    l.foldl host.dedupeStep m = (l.map fun e => (host.identityOf e, e)).foldl setIfNew m
  | [], _, _, _ => rfl
  | entry :: l, m, hl, hm => by
    obtain ⟨hentry, hl⟩ := List.pairwise_cons.mp hl
    rw [List.foldl_cons, List.map_cons, List.foldl_cons,
      dedupeStep_eq host fun h v hv => hm v hv entry List.mem_cons_self h]
    apply foldl_dedupeStep l _ hl
    intro v hv e he hproject
    rcases mem_values_setIfNew hv with rfl | hv
    · exact hentry e he hproject
    · exact hm v hv e (List.mem_cons_of_mem _ he) hproject

theorem allPackages_pairwise (settings : AllSettings) :
    settings.allPackages.Pairwise fun a b => b.scope = .project → a.scope = .project := by
  unfold AllSettings.allPackages
  rw [List.pairwise_append]
  simp [List.pairwise_map, List.pairwise_of_forall]

theorem dedupePackages_allPackages (settings : AllSettings) : host.dedupePackages settings.allPackages =
    (firsts [] (settings.allPackages.map fun e => (host.identityOf e, e))).map Prod.snd := by
  unfold Host.dedupePackages values
  rw [foldl_dedupeStep host _ _ (allPackages_pairwise settings) (fun v hv => absurd hv List.not_mem_nil),
    pairs_foldl_setIfNew]
  rfl

/-! ### One package is changed -/

/-- The packages with some of a source in a scope changed. -/
def changePackage (scope : SourceScope) (source : String) (change : PackageSource → PackageSource)
    (entry : PackageEntry) : PackageEntry :=
  if entry.scope = scope ∧ entry.pkg.source = source then { entry with pkg := change entry.pkg } else entry

variable {change : PackageSource → PackageSource}

theorem identityOf_changePackage (hsource : ∀ pkg, (change pkg).source = pkg.source) (scope : SourceScope)
    (source : String) (entry : PackageEntry) :
    host.identityOf (changePackage scope source change entry) = host.identityOf entry := by
  unfold changePackage
  split <;> simp [Host.identityOf, hsource]

/-- The packages of a scope, under their identities. -/
theorem sameFirsts_changePackage (hsource : ∀ pkg, (change pkg).source = pkg.source) (scope : SourceScope)
    {source : String} {packages : List PackageSource} {pkgIndex : ℕ}
    (h : packages.findIdx? (·.source = source) = some pkgIndex) :
    SameFirsts (((packages.modify pkgIndex change).map fun pkg => (⟨pkg, scope⟩ : PackageEntry)).map
        fun e => (host.identityOf e, e))
      (((packages.map fun pkg => (⟨pkg, scope⟩ : PackageEntry)).map (changePackage scope source change)).map
        fun e => (host.identityOf e, e)) := by
  have hmodify := @sameFirsts_modify _ _ _ (fun pkg => host.identityOf ⟨pkg, scope⟩) _ change
    (fun pkg => by simp [Host.identityOf, hsource])
    (fun a b ha hb => by
      simp only [decide_eq_true_eq] at ha hb
      simp [Host.identityOf, ha, hb]) _ _ h
  have hentries := hmodify.map_pair fun p => (⟨p.2, scope⟩ : PackageEntry)
  simp only [List.map_map] at hentries ⊢
  convert hentries using 2
  · rfl
  · funext pkg
    by_cases hpkg : pkg.source = source <;> simp [changePackage, hpkg]

theorem map_changePackage_of_ne {scope scope' : SourceScope} (hne : scope' ≠ scope) (source : String)
    (packages : List PackageSource) :
    (packages.map fun pkg => (⟨pkg, scope'⟩ : PackageEntry)).map (changePackage scope source change) =
      packages.map fun pkg => ⟨pkg, scope'⟩ := by
  simp [changePackage, hne]

theorem dedupePackages_modify (settings : AllSettings) (hsource : ∀ pkg, (change pkg).source = pkg.source)
    (scope : SourceScope) {source : String} {pkgIndex : ℕ}
    (h : (settings.packages scope).findIdx? (·.source = source) = some pkgIndex) :
    host.dedupePackages (settings.modify scope fun s =>
        { s with packages := some ((settings.packages scope).modify pkgIndex change) }).allPackages =
      (host.dedupePackages settings.allPackages).map (changePackage scope source change) := by
  have hsame : SameFirsts ((settings.modify scope fun s =>
        { s with packages := some ((settings.packages scope).modify pkgIndex change) }).allPackages.map
          fun e => (host.identityOf e, e))
      ((settings.allPackages.map (changePackage scope source change)).map fun e => (host.identityOf e, e)) := by
    have hchanged := sameFirsts_changePackage host hsource scope h
    unfold AllSettings.allPackages
    cases scope with
    | project =>
      have hne : SourceScope.user ≠ .project := by decide
      rw [List.map_append, List.map_append, List.map_append,
        map_changePackage_of_ne hne source (settings.packages .user)]
      exact hchanged.append (.refl _)
    | user =>
      have hne : SourceScope.project ≠ .user := by decide
      rw [List.map_append, List.map_append, List.map_append,
        map_changePackage_of_ne hne source (settings.packages .project)]
      exact SameFirsts.append (.refl _) hchanged
  have hkeyed : (settings.allPackages.map (changePackage scope source change)).map (fun e => (host.identityOf e, e)) =
      (settings.allPackages.map fun e => (host.identityOf e, e)).map
        fun p => (p.1, changePackage scope source change p.2) := by
    simp [List.map_map, Function.comp_def, identityOf_changePackage host hsource]
  rw [dedupePackages_allPackages, dedupePackages_allPackages, hsame, hkeyed, firsts_map]
  simp [List.map_map, Function.comp_def]

theorem find?_allPackages (settings : AllSettings) (scope : SourceScope) (source : String) :
    settings.allPackages.find? (fun e => e.scope = scope && e.pkg.source = source) =
      ((settings.packages scope).find? (·.source = source)).map fun pkg => ⟨pkg, scope⟩ := by
  have hother : ∀ packages : List PackageSource, packages.find? (fun _ => false) = none := fun packages =>
    List.find?_eq_none.mpr (by simp)
  cases scope <;> simp [AllSettings.allPackages, List.find?_append, List.find?_map, Function.comp_def, hother]

/-- A package that is kept is the first of its source in its scope. -/
theorem find?_of_mem_dedupePackages {settings : AllSettings} {entry : PackageEntry}
    (h : entry ∈ host.dedupePackages settings.allPackages) :
    (settings.packages entry.scope).find? (·.source = entry.pkg.source) = some entry.pkg := by
  rw [dedupePackages_allPackages] at h
  obtain ⟨p, hp, rfl⟩ := List.mem_map.mp h
  obtain ⟨-, before, after, hl, hbefore⟩ := mem_firsts hp
  obtain ⟨l₁, l₂, hall, rfl, hl₂⟩ := List.map_eq_append_iff.mp hl
  obtain ⟨e, l₂, rfl, rfl, rfl⟩ := List.map_eq_cons_iff.mp hl₂
  -- no package before it has its source in its scope
  have hnone : l₁.find? (fun e' => e'.scope = e.scope && e'.pkg.source = e.pkg.source) = none := by
    rw [List.find?_eq_none]
    intro e' he' hsame
    simp only [Bool.and_eq_true, decide_eq_true_eq] at hsame
    apply hbefore _ (List.mem_map_of_mem he')
    simp [Host.identityOf, hsame]
  have hfind := find?_allPackages settings e.scope e.pkg.source
  rw [hall, List.find?_append, hnone, Option.none_or, List.find?_cons_of_pos (by simp)] at hfind
  obtain ⟨pkg, hpkg, he⟩ := Option.map_eq_some_iff.mp hfind.symm
  rw [hpkg, ← he]

/-! ### What a package adds -/

section

variable {host} {root : Path} {metadata : PathMetadata} {resourceType : ResourceType} {p : Path × Entry}

theorem mem_map_enabled {files : List Path} (h : p ∈ files.map fun f => (f, (⟨metadata, true⟩ : Entry))) :
    p.2 = ⟨metadata, true⟩ := by
  obtain ⟨f, -, rfl⟩ := List.mem_map.mp h
  rfl

theorem addManifestEntries_entry {entries : List Pattern}
    (h : p ∈ host.addManifestEntries entries root resourceType metadata) : p.2 = ⟨metadata, true⟩ :=
  mem_map_enabled h

theorem collectDefaultResources_entry (h : p ∈ host.collectDefaultResources root resourceType metadata) :
    p.2 = ⟨metadata, true⟩ := by
  unfold Host.collectDefaultResources at h
  split at h
  · exact addManifestEntries_entry h
  · exact mem_map_enabled h

theorem applyPackageFilter_metadata {patterns : List Pattern}
    (h : p ∈ host.applyPackageFilter root patterns resourceType metadata) : p.2.metadata = metadata := by
  unfold Host.applyPackageFilter at h
  dsimp only at h
  split at h
  all_goals
    obtain ⟨f, -, rfl⟩ := List.mem_map.mp h
    rfl

/-- Without a list for the type, what a package adds is enabled. -/
theorem collectPackageResources_entry {filter : Option PackageFilter}
    (hfilter : filter.bind (fun filter => filter resourceType) = none)
    (h : p ∈ host.collectPackageResources root filter metadata resourceType) : p.2 = ⟨metadata, true⟩ := by
  unfold Host.collectPackageResources at h
  cases filter with
  | some filter =>
    rw [Option.bind_some] at hfilter
    simp only [hfilter] at h
    exact collectDefaultResources_entry h
  | none =>
    dsimp only at h
    cases hmanifest : host.readPiManifest root with
    | none =>
      simp only [hmanifest] at h
      exact mem_map_enabled h
    | some manifest =>
      simp only [hmanifest] at h
      cases hentries : manifest resourceType with
      | none => simp [hentries] at h
      | some entries =>
        simp only [hentries] at h
        exact addManifestEntries_entry h

theorem collectPackageResources_metadata {filter : Option PackageFilter}
    (h : p ∈ host.collectPackageResources root filter metadata resourceType) : p.2.metadata = metadata := by
  cases hfilter : filter.bind fun filter => filter resourceType with
  | none => rw [collectPackageResources_entry hfilter h]
  | some patterns =>
    obtain ⟨filter, rfl, hpatterns⟩ := Option.bind_eq_some_iff.mp hfilter
    simp only [Host.collectPackageResources, hpatterns] at h
    exact applyPackageFilter_metadata h

end

theorem resolvePackageSource_metadata {entry : PackageEntry} {resourceType : ResourceType} {p : Path × Entry}
    (h : p ∈ host.resolvePackageSource entry resourceType) :
    p.2.metadata.origin = .package ∧ p.2.metadata.scope = entry.scope ∧ p.2.metadata.source = entry.pkg.source := by
  have hone : ∀ {path : Path} {m : PathMetadata}, p ∈ (if resourceType = .extensions then [(path, (⟨m, true⟩ : Entry))] else []) →
      p.2.metadata = m := by
    intro path m hp
    split at hp <;> simp at hp
    simp [hp]
  unfold Host.resolvePackageSource at h
  dsimp only at h
  split at h
  · exact absurd h List.not_mem_nil
  · simp [collectPackageResources_metadata h]
  · split at h
    · exact absurd h List.not_mem_nil
    · exact absurd h List.not_mem_nil
    · simp [hone h]
    · split at h
      · simp [collectPackageResources_metadata h]
      · simp [hone h]

end

end Trek.Packages
