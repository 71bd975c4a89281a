/-
# What a settings manager writes

The setters of `packages/coding-agent/src/core/settings-manager.ts` assign fields in
memory and mark them as modified; a write merges the fields that were modified when it
was put into the queue into what the file holds then (`persistScopedSettings`).

What a target holds after a merge is what the snapshot holds of it, if it was modified,
and what the file holds of it otherwise (`get_persistScopedSettings`). A file that was
written needs no migration (`migrated_persistScopedSettings`), and a write into the file
that the memory was like makes the file like the memory (`Scoped.Agrees.persistScopedSettings`).
-/
import Trek.Settings.Fields

namespace Trek.Settings

/-! ### In memory -/

/-- One assignment of a setter, with its `markModified`. -/
structure Change where
  target : Target
  value : Option Json
  writable : Writable value target

/-- The settings of one scope in memory and what of them is modified, as a `SettingsManager` has
them and as it takes a snapshot of them. -/
structure Scoped where
  settings : Settings
  modified : List Target
  migrated : settings.Migrated
  writable : ∀ t ∈ modified, Writable (settings.get t) t
  /-- A field with a modified key is an object. -/
  objects : ∀ name nestedKey, .key name nestedKey ∈ modified → (settings.nested name).isSome

namespace Scoped

/-- The settings as they are loaded. -/
def load (content : Option Settings) : Scoped :=
  ⟨loadFromStorage content, [], migrated_loadFromStorage content, by simp, by simp⟩

/-- `clearModifiedScope`. -/
def clearModified (x : Scoped) : Scoped := ⟨x.settings, [], x.migrated, by simp, by simp⟩

/-- An assignment and its `markModified`. -/
def set (x : Scoped) (c : Change) : Scoped where
  settings := x.settings.set c.value c.target
  modified := x.modified ++ [c.target]
  migrated := x.migrated.of_get fun t => by
    rw [get_set]
    split
    · rename_i ht
      exact .inr (ht ▸ c.writable)
    · exact .inl rfl
  writable t ht := by
    rw [get_set]
    split
    · rename_i he
      exact he ▸ c.writable
    · rename_i he
      exact x.writable t ((List.mem_append.mp ht).resolve_right fun hc => he (List.mem_singleton.mp hc))
  objects name nestedKey ht := by
    rcases List.mem_append.mp ht with ht | ht
    · have hx := x.objects name nestedKey ht
      cases hc : c.target with
      | field _ => exact hx
      | key name' _ =>
        simp only [Settings.set, Function.update_apply]
        split
        · rfl
        · exact hx
    · rw [← List.mem_singleton.mp ht]
      simp only [Settings.set, Function.update_self, Option.isSome_some]

/-- All assignments of a setter. -/
def setAll (x : Scoped) (changes : List Change) : Scoped := changes.foldl set x

end Scoped

/-! ### Writing a file -/

/-- `modifiedNestedFields.has(field)`. -/
def modifiedNested (modified : List Target) (name : Section) : Bool :=
  modified.any fun t =>
    match t with
    | .key name' _ => name' = name
    | .field _ => false

/-- `persistScopedSettings`: what is written into a file that holds `current`. -/
def persistScopedSettings (snapshot : Scoped) (current : Option Settings) : Settings where
  fields name :=
    if .field name ∈ snapshot.modified then snapshot.settings.fields name
    else (loadFromStorage current).fields name
  nested name :=
    if modifiedNested snapshot.modified name then
      (snapshot.settings.nested name).map fun inMemoryNested nestedKey =>
        if .key name nestedKey ∈ snapshot.modified then inMemoryNested nestedKey
        else ((loadFromStorage current).nested name).bind (· nestedKey)
    else (loadFromStorage current).nested name

theorem modifiedNested_iff {modified : List Target} {name : Section} :
    modifiedNested modified name = true ↔ ∃ nestedKey, .key name nestedKey ∈ modified := by
  rw [modifiedNested, List.any_eq_true]
  constructor
  · rintro ⟨t, ht, he⟩
    cases t with
    | field _ => cases he
    | key name' nestedKey =>
      rw [decide_eq_true_eq] at he
      exact ⟨nestedKey, he ▸ ht⟩
  · rintro ⟨nestedKey, ht⟩
    exact ⟨_, ht, decide_eq_true rfl⟩

/-- **A write changes what was modified, and nothing else.** -/
theorem get_persistScopedSettings (snapshot : Scoped) (current : Option Settings) (t : Target) :
    (persistScopedSettings snapshot current).get t =
      if t ∈ snapshot.modified then snapshot.settings.get t else (loadFromStorage current).get t := by
  cases t with
  | field name => rfl
  | key name nestedKey =>
    simp only [get, persistScopedSettings]
    cases hmod : modifiedNested snapshot.modified name with
    | false =>
      rw [if_neg (by simp), if_neg fun ht => ?_]
      rw [modifiedNested_iff.mpr ⟨_, ht⟩] at hmod
      cases hmod
    | true =>
      obtain ⟨nestedKey', ht'⟩ := modifiedNested_iff.mp hmod
      obtain ⟨inMemoryNested, hm⟩ := Option.isSome_iff_exists.mp (snapshot.objects _ _ ht')
      rw [if_pos rfl, hm]
      rfl

theorem migrated_persistScopedSettings (snapshot : Scoped) (current : Option Settings) :
    (persistScopedSettings snapshot current).Migrated := by
  refine (migrated_loadFromStorage current).of_get fun t => ?_
  rw [get_persistScopedSettings]
  split
  · rename_i ht
    exact .inr (snapshot.writable t ht)
  · exact .inl rfl

/-! ### Writing into the file that the memory was like -/

/-- Settings that are the ones in memory where nothing is modified. -/
structure Scoped.Agrees (x : Scoped) (base : Settings) : Prop where
  fields : ∀ name, .field name ∉ x.modified → x.settings.fields name = base.fields name
  nested : ∀ name, (∀ nestedKey, .key name nestedKey ∉ x.modified) → x.settings.nested name = base.nested name
  get : ∀ t, t ∉ x.modified → x.settings.get t = base.get t

theorem Scoped.agrees_self (x : Scoped) : x.Agrees x.settings := ⟨fun _ _ => rfl, fun _ _ => rfl, fun _ _ => rfl⟩

theorem Scoped.Agrees.set {x : Scoped} {base : Settings} (h : x.Agrees base) (c : Change) : (x.set c).Agrees base := by
  have hget : ∀ t, t ∉ (x.set c).modified → (x.set c).settings.get t = base.get t := by
    intro t ht
    have ht : t ∉ x.modified ∧ t ≠ c.target := by simpa [Scoped.set] using ht
    rw [← h.get t ht.1]
    exact (get_set x.settings c.value c.target t).trans (if_neg ht.2)
  refine ⟨fun name ht => hget (.field name) ht, fun name ht => ?_, hget⟩
  rw [← h.nested name fun nestedKey hk => ht nestedKey (List.mem_append_left _ hk)]
  cases hc : c.target with
  | field _ => simp only [Scoped.set, hc, Settings.set]
  | key name' nestedKey =>
    have hne : name ≠ name' := by
      rintro rfl
      exact ht nestedKey (List.mem_append_right _ (hc ▸ List.mem_singleton_self _))
    simp only [Scoped.set, hc, Settings.set, Function.update_of_ne hne]

theorem Scoped.agrees_setAll {base : Settings} : ∀ (changes : List Change) {x : Scoped}, x.Agrees base →
    (x.setAll changes).Agrees base
  | [], _, h => h
  | c :: changes, _, h => agrees_setAll changes (h.set c)

/-- A write into a file that agrees with the memory makes it the memory. -/
theorem Scoped.Agrees.persistScopedSettings {x : Scoped} {current : Option Settings}
    (h : x.Agrees (loadFromStorage current)) : persistScopedSettings x current = x.settings := by
  refine Settings.ext (funext fun name => ?_) (funext fun name => ?_)
  · change (if _ then _ else _) = _
    split
    · rfl
    · rename_i ht
      exact (h.fields name ht).symm
  · change (if _ then _ else _) = _
    split
    · rename_i hmod
      obtain ⟨nestedKey', ht'⟩ := modifiedNested_iff.mp hmod
      obtain ⟨inMemoryNested, hm⟩ := Option.isSome_iff_exists.mp (x.objects _ _ ht')
      rw [hm, Option.map_some]
      refine congrArg some (funext fun nestedKey => ?_)
      split
      · rfl
      · rename_i ht
        have := h.get (.key name nestedKey) ht
        simp only [Settings.get, hm, Option.bind_some] at this
        exact this.symm
    · rename_i hmod
      exact (h.nested name fun nestedKey ht => hmod (modifiedNested_iff.mpr ⟨nestedKey, ht⟩)).symm

end Trek.Settings
