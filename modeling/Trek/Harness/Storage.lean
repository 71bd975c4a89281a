/-
# Session storage of the agent harness

The session tree of `packages/agent/src/harness`: entries, an index of them by
id, the labels and the leaf. `InMemorySessionStorage` and `JsonlSessionStorage`
keep the same state in the same way; the second writes an entry to its file
before it takes it in.
-/
import Trek.Messages
import Trek.Lib.OrdMap
import Trek.Lib.Lineage
import Trek.Lib.Text
import Trek.Harness.Uuid

namespace Trek

/-- `SessionErrorCode`, as far as the storages use it. -/
inductive SessionErrorCode
  | notFound | invalidSession | invalidEntry | storage
  deriving DecidableEq

/-- `SessionError`. -/
structure SessionError where
  code : SessionErrorCode
  message : String
  deriving DecidableEq

/-- What an entry holds besides `id`, `parentId` and `timestamp`, by `type`. -/
inductive TreeBody
  | message (message : AgentMessage)
  | thinkingLevelChange (thinkingLevel : String)
  | modelChange (provider modelId : String)
  | activeToolsChange (activeToolNames : List String)
  | compaction (summary firstKeptEntryId : String) (tokensBefore : ℕ) (details : Option Json)
      (fromHook : Option Bool)
  | branchSummary (fromId summary : String) (details : Option Json) (fromHook : Option Bool)
  | custom (customType : String) (data : Option Json)
  | customMessage (customType : String) (content : UserContent) (details : Option Json) (display : Bool)
  | label (targetId : String) (label : Option String)
  | sessionInfo (name : Option String)
  | leaf (targetId : Option String)
  deriving DecidableEq

/-- `SessionTreeEntry`. -/
structure TreeEntry where
  id : String
  parentId : Option String
  timestamp : String
  body : TreeBody
  deriving DecidableEq

/-- `leafIdAfterEntry`. -/
def leafIdAfterEntry (e : TreeEntry) : Option String :=
  match e.body with
  | .leaf targetId => targetId
  | _ => some e.id

/-- `updateLabelCache`. -/
def updateLabelCache (labelsById : OrdMap String String) (e : TreeEntry) : OrdMap String String :=
  match e.body with
  | .label targetId label =>
    let label := jsTrim (label.getD "")
    if label ≠ "" then labelsById.set targetId label else labelsById.delete targetId
  | _ => labelsById

/-- The fields both storages have. -/
structure TreeStorage where
  entries : List TreeEntry
  byId : OrdMap String TreeEntry
  labelsById : OrdMap String String
  leafId : Option String

/-- `current.parentId` where it is not empty. -/
def TreeEntry.parentKey (e : TreeEntry) : Option String := e.parentId.filter (· ≠ "")

/-- The parent of an entry in the index. -/
def parentInTree (byId : OrdMap String TreeEntry) (e : TreeEntry) : Option TreeEntry := e.parentKey.bind byId.get?

/-- The loop of `getPathToRoot`, for at most `n` entries; `none` if it goes on. -/
def pathLoop (byId : OrdMap String TreeEntry) :
    ℕ → TreeEntry → List TreeEntry → Option (Except SessionError (List TreeEntry))
  | 0, _, _ => none
  | n + 1, current, path =>
    match current.parentKey with
    | none => some (.ok (current :: path))
    | some parentId =>
      match byId.get? parentId with
      | none => some (.error ⟨.invalidSession, "Entry " ++ parentId ++ " not found"⟩)
      | some parent => pathLoop byId n parent (current :: path)

namespace TreeStorage

/-- The storage of a list of entries: the constructor of `InMemorySessionStorage`,
and `open` of `JsonlSessionStorage`, without their check of the leaf. -/
def ofEntries (entries : List TreeEntry) : TreeStorage where
  entries := entries
  byId := entries.foldl (fun m e => m.set e.id e) .empty
  labelsById := entries.foldl updateLabelCache .empty
  leafId := entries.foldl (fun _ e => leafIdAfterEntry e) none

/-- `getLeafId`. -/
def getLeafId (s : TreeStorage) : Except SessionError (Option String) :=
  match s.leafId with
  | none => .ok none
  | some id => if s.byId.has id then .ok (some id) else .error ⟨.invalidSession, "Entry " ++ id ++ " not found"⟩

/-- `appendEntry`, the part in memory. -/
def appendEntry (s : TreeStorage) (e : TreeEntry) : TreeStorage where
  entries := s.entries ++ [e]
  byId := s.byId.set e.id e
  labelsById := updateLabelCache s.labelsById e
  leafId := leafIdAfterEntry e

/-- `getPathToRoot`. After the entry of `leafId` the loop visits entries of `byId`,
so one that has not ended after `byId.size + 1` of them never ends; it is `none`
then. -/
def getPathToRoot (s : TreeStorage) : Option String → Option (Except SessionError (List TreeEntry))
  | none => some (.ok [])
  | some leafId =>
    match s.byId.get? leafId with
    | none => some (.error ⟨.notFound, "Entry " ++ leafId ++ " not found"⟩)
    | some current => pathLoop s.byId (s.byId.size + 1) current []

end TreeStorage

/-! ### The walk to the root -/

theorem pathLoop_ok {byId : OrdMap String TreeEntry} : ∀ {n : ℕ} {e : TreeEntry} {acc q : List TreeEntry},
    pathLoop byId n e acc = some (.ok q) → ∃ p, Lineage (parentInTree byId) e p ∧ q = p ++ acc
  | 0, _, _, _, h => by cases h
  | n + 1, e, acc, q, h => by
    unfold pathLoop at h
    split at h
    · rename_i hk
      rw [Option.some.injEq, Except.ok.injEq] at h
      exact ⟨[e], .root (by rw [parentInTree, hk]; rfl), h.symm⟩
    · rename_i parentId hk
      split at h
      · cases h
      · rename_i parent hget
        obtain ⟨p, hp, rfl⟩ := pathLoop_ok h
        refine ⟨p ++ [e], .child ?_ hp, by simp⟩
        rw [parentInTree, hk]
        exact hget

theorem pathLoop_of_lineage {byId : OrdMap String TreeEntry} {e : TreeEntry} {p : List TreeEntry}
    (h : Lineage (parentInTree byId) e p) : (∀ x ∈ p, ∀ k, x.parentKey = some k → (byId.get? k).isSome) →
    ∀ {n : ℕ} {acc : List TreeEntry}, p.length ≤ n → pathLoop byId n e acc = some (.ok (p ++ acc)) := by
  induction h with
  | @root e h0 =>
    intro hclosed n acc hn
    obtain ⟨n, rfl⟩ : ∃ m, n = m + 1 := ⟨n - 1, by simp at hn; omega⟩
    have hk : e.parentKey = none := by
      cases hk : e.parentKey with
      | none => rfl
      | some k =>
        have := hclosed e (by simp) k hk
        rw [parentInTree, hk, Option.bind_some] at h0
        rw [h0] at this
        cases this
    simp only [pathLoop, hk]
    rfl
  | @child e b p h0 hp ih =>
    intro hclosed n acc hn
    rw [List.length_append, List.length_singleton] at hn
    obtain ⟨n, rfl⟩ : ∃ m, n = m + 1 := ⟨n - 1, by omega⟩
    obtain ⟨k, hk, hget⟩ := Option.bind_eq_some_iff.mp h0
    simp only [pathLoop, hk, hget]
    rw [ih (fun x hx => hclosed x (List.mem_append_left _ hx)) (by omega), List.append_assoc]
    rfl

/-! ### Trees -/

/-- The storage holds a tree: the ids are its entries' own, parents are there, and
from every entry the parents lead to a root. -/
structure TreeStorage.Sound (s : TreeStorage) : Prop where
  ids : (s.entries.map TreeEntry.id).Nodup
  byId : ∀ id e, s.byId.get? id = some e ↔ e ∈ s.entries ∧ e.id = id
  named : ∀ e ∈ s.entries, e.id ≠ ""
  closed : ∀ e ∈ s.entries, ∀ k, e.parentKey = some k → ∃ parent ∈ s.entries, parent.id = k
  rooted : ∀ e ∈ s.entries, ∃ p, Lineage (parentInTree s.byId) e p
  leaf : ∀ id, s.leafId = some id → ∃ e ∈ s.entries, e.id = id

namespace TreeStorage.Sound

variable {s : TreeStorage} {e x : TreeEntry} {p : List TreeEntry}

theorem has_iff (h : s.Sound) {id : String} : s.byId.has id = true ↔ ∃ e ∈ s.entries, e.id = id := by
  rw [OrdMap.has, Option.isSome_iff_exists]
  exact exists_congr fun e => h.byId id e

theorem parent_mem (h : s.Sound) {y : TreeEntry} (hy : parentInTree s.byId e = some y) : y ∈ s.entries := by
  obtain ⟨k, -, hget⟩ := Option.bind_eq_some_iff.mp hy
  exact ((h.byId k y).mp hget).1

theorem subset (h : s.Sound) (hp : Lineage (parentInTree s.byId) e p) (he : e ∈ s.entries) : p ⊆ s.entries :=
  hp.subset (fun _ _ _ hy => h.parent_mem hy) he

/-- A new entry does not change the parents of those that are there. -/
theorem parent_appendEntry (h : s.Sound) (hx : s.byId.has x.id = false) (he : e ∈ s.entries) :
    parentInTree (s.appendEntry x).byId e = parentInTree s.byId e := by
  unfold parentInTree appendEntry
  cases hk : e.parentKey with
  | none => rfl
  | some k =>
    obtain ⟨parent, hmem, hid⟩ := h.closed e he k hk
    refine OrdMap.get?_set_ne _ _ fun hkx => ?_
    have : s.byId.has x.id = true := h.has_iff.mpr ⟨parent, hmem, hid.trans hkx⟩
    rw [hx] at this
    cases this

theorem lineage_appendEntry (h : s.Sound) (hx : s.byId.has x.id = false)
    (hp : Lineage (parentInTree s.byId) e p) (he : e ∈ s.entries) :
    Lineage (parentInTree (s.appendEntry x).byId) e p :=
  hp.congr fun _ hy => h.parent_appendEntry hx (h.subset hp he hy)

/-- The path to a new entry goes through its parent. -/
theorem lineage_new (h : s.Sound) (hx : s.byId.has x.id = false)
    (hparent : ∀ k, x.parentKey = some k → ∃ e ∈ s.entries, e.id = k) :
    (x.parentKey = none ∧ Lineage (parentInTree (s.appendEntry x).byId) x [x]) ∨
    ∃ e ∈ s.entries, x.parentKey = some e.id ∧ ∃ p, Lineage (parentInTree s.byId) e p ∧
      Lineage (parentInTree (s.appendEntry x).byId) x (p ++ [x]) := by
  cases hk : x.parentKey with
  | none =>
    refine Or.inl ⟨rfl, .root ?_⟩
    rw [parentInTree, hk]
    rfl
  | some k =>
    obtain ⟨e, he, rfl⟩ := hparent k hk
    obtain ⟨p, hp⟩ := h.rooted e he
    refine Or.inr ⟨e, he, rfl, p, hp, .child ?_ (h.lineage_appendEntry hx hp he)⟩
    have hne : e.id ≠ x.id := fun hid => by
      have : s.byId.has x.id = true := h.has_iff.mpr ⟨e, he, hid⟩
      rw [hx] at this
      cases this
    rw [parentInTree, hk, Option.bind_some]
    exact (OrdMap.get?_set_ne _ _ hne).trans ((h.byId _ _).mpr ⟨he, rfl⟩)

/-- Appending an entry with a new id under one that is there keeps the tree. -/
theorem appendEntry (h : s.Sound) (hx : s.byId.has x.id = false) (hname : x.id ≠ "")
    (hparent : ∀ k, x.parentKey = some k → ∃ e ∈ s.entries, e.id = k) (hleaf : leafIdAfterEntry x = some x.id) :
    (s.appendEntry x).Sound := by
  have hnew : ∀ e ∈ s.entries, e.id ≠ x.id := fun e he hid => by
    have : s.byId.has x.id = true := h.has_iff.mpr ⟨e, he, hid⟩
    rw [hx] at this
    cases this
  have hmem : ∀ e, e ∈ (s.appendEntry x).entries ↔ e ∈ s.entries ∨ e = x := fun e => by
    rw [TreeStorage.appendEntry, List.mem_append, List.mem_singleton]
  refine ⟨?_, fun id e => ?_, fun e he => ?_, fun e he k hk => ?_, fun e he => ?_, fun id hid => ?_⟩
  · rw [TreeStorage.appendEntry, List.map_append, List.nodup_append]
    refine ⟨h.ids, by simp, fun a ha b hb hab => ?_⟩
    obtain ⟨e, he, rfl⟩ := List.mem_map.mp ha
    rw [List.map_singleton, List.mem_singleton] at hb
    exact hnew e he (hab.trans hb)
  · change (s.byId.set x.id x).get? id = some e ↔ _
    rw [hmem, OrdMap.get?_set]
    by_cases hid : id = x.id
    · rw [if_pos hid, Option.some.injEq]
      constructor
      · rintro rfl
        exact ⟨Or.inr rfl, hid.symm⟩
      · rintro ⟨he | rfl, hee⟩
        · exact absurd (hee.trans hid) (hnew e he)
        · rfl
    · rw [if_neg hid, h.byId]
      constructor
      · exact fun he => ⟨Or.inl he.1, he.2⟩
      · rintro ⟨he | rfl, hee⟩
        · exact ⟨he, hee⟩
        · exact absurd hee.symm hid
  · rcases (hmem e).mp he with he | rfl
    · exact h.named e he
    · exact hname
  · rcases (hmem e).mp he with he | rfl
    · obtain ⟨parent, hp, hpk⟩ := h.closed e he k hk
      exact ⟨parent, (hmem _).mpr (Or.inl hp), hpk⟩
    · obtain ⟨parent, hp, hpk⟩ := hparent k hk
      exact ⟨parent, (hmem _).mpr (Or.inl hp), hpk⟩
  · rcases (hmem e).mp he with he | rfl
    · obtain ⟨p, hp⟩ := h.rooted e he
      exact ⟨p, h.lineage_appendEntry hx hp he⟩
    · rcases h.lineage_new hx hparent with ⟨-, hp⟩ | ⟨_, _, _, _, _, hp⟩
      · exact ⟨_, hp⟩
      · exact ⟨_, hp⟩
  · change leafIdAfterEntry x = some id at hid
    rw [hleaf, Option.some.injEq] at hid
    exact ⟨x, (hmem _).mpr (Or.inr rfl), hid⟩

/-- The path to the root from an entry that is there. -/
theorem getPathToRoot (h : s.Sound) (he : e ∈ s.entries) (hp : Lineage (parentInTree s.byId) e p) :
    s.getPathToRoot (some e.id) = some (.ok p) := by
  have hget : s.byId.get? e.id = some e := (h.byId _ _).mpr ⟨he, rfl⟩
  have hvalues : ∀ y ∈ s.entries, y ∈ s.byId.values := fun y hy =>
    OrdMap.get?_mem_values ((h.byId _ _).mpr ⟨hy, rfl⟩)
  have hlen : p.length ≤ s.byId.size := by
    have := @Lineage.length_le _ _ _ _ s.byId.values
      (fun _ _ _ hparent => hvalues _ (h.parent_mem hparent)) hp (hvalues e he)
    rwa [OrdMap.values, List.length_map] at this
  have hclosed : ∀ x ∈ p, ∀ k, x.parentKey = some k → (s.byId.get? k).isSome := fun x hx k hk => by
    obtain ⟨parent, hmem, hid⟩ := h.closed x (h.subset hp he hx) k hk
    rw [(h.byId k parent).mpr ⟨hmem, hid⟩]
    rfl
  rw [TreeStorage.getPathToRoot, hget]
  simp only
  rw [pathLoop_of_lineage hp hclosed (Nat.le_succ_of_le hlen), List.append_nil]

end TreeStorage.Sound

theorem sound_empty : (TreeStorage.ofEntries []).Sound :=
  ⟨List.nodup_nil, fun _ _ => by simp [TreeStorage.ofEntries], fun _ h => (nomatch h), fun _ h => (nomatch h),
    fun _ h => (nomatch h), fun _ h => (nomatch h)⟩

end Trek
