/-
# The version store as a log

What the manifest and the artifacts hold between them is one list: the artifacts
of the recorded calls in the order of the calls (`Holds`). `record` adds to it
and `restoreToPrompt` reads the part from a prompt on.
-/
import Trek.Store.Versions

namespace Trek

/-! ### Grouping a sorted list by its keys -/

section Grouping

variable {α : Type*} {key : α → ℤ}

end Grouping

/-! ### What the store holds -/

namespace TrekManifest

theorem mem_records_of_filesOf {m : TrekManifest} {n : ℤ} {f : FileVersionRecord} (h : f ∈ m.filesOf n) :
    f ∈ m.records := by
  unfold filesOf at h
  cases hg : m.prompts.get? n with
  | none =>
    rw [hg] at h
    cases h
  | some entry =>
    rw [hg] at h
    exact List.mem_flatMap.mpr ⟨entry, OrdMap.get?_mem_values hg, h⟩

theorem le_latestVersion {m : TrekManifest} {f : FileVersionRecord} (h : f ∈ m.records) :
    f.toVersion ≤ m.latestVersion f.path := by
  have hmem : f.toVersion ∈ (m.records.filter (·.path = f.path)).map (·.toVersion) :=
    List.mem_map.mpr ⟨f, List.mem_filter.mpr ⟨h, by simp⟩, rfl⟩
  have key : ∀ (l : List ℕ) (v : ℕ), v ∈ l → v ≤ l.foldr max 0 := by
    intro l v hv
    induction l with
    | nil => cases hv
    | cons a l ih =>
      rcases List.mem_cons.mp hv with rfl | hv
      · exact le_max_left _ _
      · exact le_trans (ih hv) (le_max_right _ _)
  exact key _ _ hmem

theorem filesOf_addRecord (m : TrekManifest) (o : RecordOptions) (n : ℤ) :
    (m.addRecord o).filesOf n = m.filesOf n ++ if n = o.promptNumber then [m.newRecord o] else [] := by
  unfold filesOf addRecord
  rw [OrdMap.get?_set]
  by_cases hn : n = o.promptNumber
  · subst hn
    rw [if_pos rfl, if_pos rfl, Option.map_some, Option.getD_some, recordEntry]
    cases m.prompts.get? o.promptNumber <;> rfl
  · rw [if_neg hn, if_neg hn, List.append_nil]

theorem mem_records_addRecord {m : TrekManifest} {o : RecordOptions} {f : FileVersionRecord}
    (h : f ∈ (m.addRecord o).records) : f ∈ m.records ∨ f = m.newRecord o := by
  obtain ⟨entry, hentry, hf⟩ := List.mem_flatMap.mp h
  obtain ⟨n, hn⟩ := OrdMap.mem_values.mp hentry
  have hfiles : f ∈ (m.addRecord o).filesOf n := by
    rw [filesOf, hn]
    exact hf
  rw [filesOf_addRecord] at hfiles
  rcases List.mem_append.mp hfiles with hf | hf
  · exact Or.inl (mem_records_of_filesOf hf)
  · split at hf
    · exact Or.inr (List.mem_singleton.mp hf)
    · cases hf

/-- No record of the manifest has the artifact of the next one. -/
theorem newRecord_artifact_ne {m : TrekManifest} {o : RecordOptions} {f : FileVersionRecord} (hf : f ∈ m.records)
    (hname : f.artifact = artifactRel f.path f.toVersion) : f.artifact ≠ (m.newRecord o).artifact := by
  intro he
  rw [hname] at he
  obtain ⟨hp, hv⟩ := artifactRel_inj he
  have hle := le_latestVersion hf
  rw [hp] at hle
  omega

end TrekManifest

namespace TrekStore

open TrekManifest

/-- The artifact of a record is there and is the given one. -/
def ReadsAs (s : TrekStore) (f : FileVersionRecord) (a : VersionArtifact) : Prop :=
  f.path = a.path ∧ s.artifacts f.artifact = some a

/-- The store holds the artifacts of `log`, each prompt's in their order. -/
structure Holds (s : TrekStore) (log : List VersionArtifact) : Prop where
  files : ∀ n, List.Forall₂ s.ReadsAs (s.loadManifest.filesOf n) (log.filter (·.promptNumber = n))
  named : ∀ f ∈ s.loadManifest.records, f.artifact = artifactRel f.path f.toVersion

/-- A store with nothing in it. -/
def new : TrekStore := ⟨none, fun _ => none⟩

theorem Holds.record {s : TrekStore} {log : List VersionArtifact} (h : s.Holds log) {o : RecordOptions}
    (ho : validRelPath o.relPath = true) : (s.record o).1.Holds (log ++ [o.artifact]) := by
  have hrec : (s.record o).1 = (s.writeArtifact (s.loadManifest.newRecord o).artifact o.artifact).saveManifest
      (s.loadManifest.addRecord o) := by rw [TrekStore.record, if_pos ho]
  rw [hrec]
  constructor
  · intro n
    change List.Forall₂ _ ((s.loadManifest.addRecord o).filesOf n) _
    rw [filesOf_addRecord, List.filter_append]
    refine List.rel_append ?_ ?_
    · -- the older artifacts are not written over
      have hold := h.files n
      have hmem : ∀ f ∈ s.loadManifest.filesOf n, f ∈ s.loadManifest.records := fun f hf => mem_records_of_filesOf hf
      revert hold hmem
      generalize s.loadManifest.filesOf n = fs
      generalize log.filter (·.promptNumber = n) = l
      intro hold hmem
      induction hold with
      | nil => exact List.Forall₂.nil
      | cons hfa _ ih =>
        refine List.Forall₂.cons ⟨hfa.1, ?_⟩ (ih fun f hf => hmem f (List.mem_cons_of_mem _ hf))
        have hf := hmem _ List.mem_cons_self
        change Function.update _ _ _ _ = _
        rw [Function.update_of_ne (newRecord_artifact_ne hf (h.named _ hf)), hfa.2]
    · by_cases hn : n = o.promptNumber
      · rw [if_pos hn, List.filter_cons_of_pos (by exact decide_eq_true hn.symm), List.filter_nil]
        refine List.Forall₂.cons ⟨rfl, ?_⟩ List.Forall₂.nil
        exact Function.update_self _ _ _
      · rw [if_neg hn, List.filter_cons_of_neg (by exact mt of_decide_eq_true (Ne.symm hn)), List.filter_nil]
        exact List.Forall₂.nil
  · intro f hf
    rcases mem_records_addRecord hf with hf | rfl
    · exact h.named f hf
    · rfl

/-! ### Reading the log back -/

end TrekStore
end Trek
