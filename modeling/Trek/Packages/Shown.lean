/-
# What the resources shown depend on

The map that `resolve` fills keeps the first resource of a path. Which resources are shown, and in which order, does not
depend on whether they are enabled, so a change of these states goes through to the list (`mapToResolved_map`), and lists
with the same first resources show the same (`mapToResolved_congr`).
-/
import Trek.Packages.Patterns

namespace Trek.Packages

open OrdMap

theorem foldl_addResource : ∀ (l : List (Path × Entry)) (m : OrdMap Path Entry),
    l.foldl addResource m = (l.filter fun p => !p.1.isEmpty).foldl setIfNew m
  | [], _ => rfl
  | p :: l, m => by
    rw [List.foldl_cons, foldl_addResource l, addResource]
    cases hp : p.1.isEmpty <;> simp [hp]

theorem pairs_foldl_addResource (l : List (Path × Entry)) :
    (l.foldl addResource OrdMap.empty).pairs = firsts [] (l.filter fun p => !p.1.isEmpty) := by
  rw [foldl_addResource, pairs_foldl_setIfNew]
  rfl

/-- The resource with a state. -/
def ResolvedResource.withState (r : ResolvedResource) (enabled : Bool) : ResolvedResource := { r with enabled }

theorem ResolvedResource.withState_inj (r : ResolvedResource) {a b : Bool} : r.withState a = r.withState b ↔ a = b := by
  simp [ResolvedResource.withState]

/-- The resources with the states `state` gives them. -/
def withStates (state : Path → PathMetadata → Bool → Bool) (l : List (Path × Entry)) : List (Path × Entry) :=
  l.map fun p => (p.1, ⟨p.2.metadata, state p.1 p.2.metadata p.2.enabled⟩)

section

variable (host : Host)

theorem mapToResolved_congr {a b : List (Path × Entry)} (h : SameFirsts a b) :
    host.mapToResolved (a.foldl addResource OrdMap.empty) = host.mapToResolved (b.foldl addResource OrdMap.empty) := by
  have hpairs : (a.foldl addResource OrdMap.empty).pairs = (b.foldl addResource OrdMap.empty).pairs := by
    rw [pairs_foldl_addResource, pairs_foldl_addResource]
    exact h.filter_key fun path => !path.isEmpty
  unfold Host.mapToResolved
  rw [hpairs]

theorem mapToResolved_map (state : Path → PathMetadata → Bool → Bool) (l : List (Path × Entry)) :
    host.mapToResolved ((withStates state l).foldl addResource OrdMap.empty) =
      (host.mapToResolved (l.foldl addResource OrdMap.empty)).map fun r =>
        r.withState (state r.path r.metadata r.enabled) := by
  let change (r : ResolvedResource) : ResolvedResource := r.withState (state r.path r.metadata r.enabled)
  have hpairs : ((withStates state l).foldl addResource OrdMap.empty).pairs =
      ((l.foldl addResource OrdMap.empty).pairs).map fun p =>
        (p.1, ⟨p.2.metadata, state p.1 p.2.metadata p.2.enabled⟩) := by
    rw [pairs_foldl_addResource, pairs_foldl_addResource, ← firsts_map_pair, withStates, List.filter_map]
    rfl
  have hsorted : ∀ entries : List ResolvedResource,
      (entries.map change).insertionSort (fun a b => resourcePrecedenceRank a.metadata ≤ resourcePrecedenceRank b.metadata) =
        (entries.insertionSort fun a b => resourcePrecedenceRank a.metadata ≤ resourcePrecedenceRank b.metadata).map change :=
    fun entries => (List.map_insertionSort _ _ change entries fun _ _ _ _ => Iff.rfl).symm
  have hcanonical : ∀ entries : List ResolvedResource,
      (firsts [] ((entries.map change).map fun entry => (host.canonicalizePath entry.path, entry))).map Prod.snd =
        ((firsts [] (entries.map fun entry => (host.canonicalizePath entry.path, entry))).map Prod.snd).map change := by
    intro entries
    have hmap := firsts_map change [] (entries.map fun entry => (host.canonicalizePath entry.path, entry))
    rw [List.map_map] at hmap
    rw [List.map_map, List.map_map]
    exact (congrArg (List.map Prod.snd) hmap).trans (by rw [List.map_map]; rfl)
  unfold Host.mapToResolved
  dsimp only
  rw [hpairs, List.map_map, ← hcanonical, ← hsorted, List.map_map]
  rfl

end

end Trek.Packages
