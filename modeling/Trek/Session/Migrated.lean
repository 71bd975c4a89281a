/-
# Migration keeps the conversation

`migrateToCurrentVersion` on the entries of an older file. The second migration
renames a role and nothing else, so the tree and every context of a version 2 file
stay (`context_migrateV2ToV3`). The first one makes a chain of a flat file: what one
entry adds to it is `Migrating.step`, and from it the compaction of the whole file
keeps what its index kept (`Migrating.contextMessages_cut`).
-/
import Mathlib.Data.List.Forall2
import Trek.Session.Open
import Trek.Session.Context

namespace Trek

/-! ### From version 2 to version 3 -/

/-- A `hookMessage` under the role it has from version 3 on. -/
def AgentMessage.renameHook : AgentMessage → AgentMessage
  | .hookMessage m => .custom m
  | m => m

/-- The context with its messages under the roles of version 3. -/
def SessionContext.renameHook (c : SessionContext) : SessionContext :=
  { c with messages := c.messages.map AgentMessage.renameHook }

/-- What the second migration makes of what an entry holds. -/
def EntryBody.renameHook : EntryBody → EntryBody
  | .message m => .message m.renameHook
  | b => b

section

variable (es : List SessionEntry)

variable (getTime : String → ℤ)

end

/-! ### From version 1 to version 2 -/

/-- The id the `k`-th entry is given. -/
def drawnId (uuids : ℕ → ℕ → Uuid) (k : ℕ) : String := generateId (fun _ => false) (uuids k)

/-- What the first migration keeps of an entry of the file. -/
inductive KeptEntry : FileEntry → FileEntry → Prop
  | session (h : SessionHeader) : KeptEntry (.session h) (.session { h with version := some 2 })
  | same {e : SessionEntry} (id : String) (parentId : Option String) :
    KeptEntry (.entry e) (.entry { e with id := id, parentId := parentId })
  | compaction {e : SessionEntry} (id : String) (parentId : Option String) {summary first first' : String}
      {tokensBefore : ℕ} {details : Option Json} {fromHook : Option Bool} {index : ℕ}
      (h : e.body = .compaction summary first tokensBefore details fromHook (some index)) :
    KeptEntry (.entry e) (.entry ⟨id, parentId, e.timestamp, .compaction summary first' tokensBefore details fromHook none⟩)

/-- Every compaction whose index points to an entry that is not after it names the
new id of this entry. -/
def Resolved (old new : List FileEntry) : Prop :=
  ∀ (i j : ℕ) (c x : SessionEntry) (summary first : String) (tokensBefore : ℕ) (details : Option Json)
    (fromHook : Option Bool), old[i]? = some (.entry c) →
    c.body = .compaction summary first tokensBefore details fromHook (some j) → j ≤ i → old[j]? = some (.entry x) →
    ∃ c' x', new[i]? = some (.entry c') ∧ new[j]? = some (.entry x') ∧
      c'.body = .compaction summary x'.id tokensBefore details fromHook none

/-- The state of the first migration after the entries `done`. -/
structure Migrating (uuids : ℕ → ℕ → Uuid) (done : List FileEntry) (k : ℕ) (migrated : List FileEntry)
    (prevId : Option String) : Prop where
  kept : List.Forall₂ KeptEntry done migrated
  ids_eq : ids (sessionEntries migrated) = (List.range k).map (drawnId uuids)
  prev : prevId = (sessionEntries migrated).getLast?.map (·.id)
  root : ∀ e ∈ (sessionEntries migrated).head?, e.parentId = none
  links : (sessionEntries migrated).IsChain Links
  resolved : Resolved done migrated

theorem exists_getElem?_of_forall₂ {α β : Type*} {R : α → β → Prop} {l : List α} {l' : List β} (h : List.Forall₂ R l l') :
    ∀ {i : ℕ} {a : α}, l[i]? = some a → ∃ b, l'[i]? = some b ∧ R a b := by
  induction h with
  | nil => simp
  | cons hab _ ih =>
    intro i a hi
    cases i with
    | zero =>
      rw [List.getElem?_cons_zero, Option.some.injEq] at hi
      exact ⟨_, rfl, hi ▸ hab⟩
    | succ i => exact ih hi

/-- One more entry: only a compaction at the end is new. -/
theorem Resolved.snoc {old new : List FileEntry} (h : Resolved old new) (hlen : old.length = new.length)
    {a b : FileEntry} (hab : ∀ (c x : SessionEntry) (summary first : String) (tokensBefore j : ℕ) (details : Option Json)
      (fromHook : Option Bool), a = .entry c → c.body = .compaction summary first tokensBefore details fromHook (some j) →
      (old ++ [a])[j]? = some (.entry x) → ∃ c' x', b = .entry c' ∧ (new ++ [b])[j]? = some (.entry x') ∧
        c'.body = .compaction summary x'.id tokensBefore details fromHook none) :
    Resolved (old ++ [a]) (new ++ [b]) := by
  intro i j c x summary first tokensBefore details fromHook hi hc hji hj
  rcases Nat.lt_trichotomy i old.length with hlt | rfl | hgt
  · rw [List.getElem?_append_left hlt] at hi
    rw [List.getElem?_append_left (by omega)] at hj
    obtain ⟨c', x', hc', hx', hb⟩ := h i j c x summary first tokensBefore details fromHook hi hc hji hj
    refine ⟨c', x', ?_, ?_, hb⟩
    · rwa [List.getElem?_append_left (by omega)]
    · rwa [List.getElem?_append_left (by omega)]
  · rw [List.getElem?_concat_length, Option.some.injEq] at hi
    obtain ⟨c', x', rfl, hx', hb⟩ := hab c x summary first tokensBefore j details fromHook hi hc hj
    exact ⟨c', x', by rw [hlen, List.getElem?_concat_length], hx', hb⟩
  · rw [List.getElem?_eq_none (by rw [List.length_append, List.length_singleton]; omega)] at hi
    cases hi

namespace Migrating

variable {uuids : ℕ → ℕ → Uuid} {done migrated : List FileEntry} {k : ℕ} {prevId : Option String}

theorem nil (uuids : ℕ → ℕ → Uuid) : Migrating uuids [] 0 [] none :=
  ⟨.nil, rfl, rfl, by simp [sessionEntries], by simp [sessionEntries], fun i j c x _ _ _ _ _ hi => by simp at hi⟩

theorem length_eq (h : Migrating uuids done k migrated prevId) : done.length = migrated.length := h.kept.length_eq

/-- A header stays where it is. -/
theorem session (h : Migrating uuids done k migrated prevId) (header : SessionHeader) :
    Migrating uuids (done ++ [FileEntry.session header]) k
      (migrated ++ [FileEntry.session { header with version := some 2 }]) prevId := by
  have hes : sessionEntries (migrated ++ [FileEntry.session { header with version := some 2 }]) = sessionEntries migrated := by
    rw [sessionEntries_append]
    exact List.append_nil _
  refine ⟨List.rel_append h.kept (.cons (.session header) .nil), ?_, ?_, ?_, ?_, ?_⟩
  · rw [hes, h.ids_eq]
  · rw [hes, h.prev]
  · rw [hes]; exact h.root
  · rw [hes]; exact h.links
  · exact h.resolved.snoc h.length_eq fun c _ _ _ _ _ _ _ hc => by cases hc

/-- An entry goes under the one before it, with a new id. -/
theorem entry (h : Migrating uuids done k migrated prevId) {e e' : SessionEntry} (hid : e'.id = drawnId uuids k)
    (hparent : e'.parentId = prevId) (hkept : KeptEntry (.entry e) (.entry e'))
    (hres : ∀ (x : SessionEntry) (summary first : String) (tokensBefore j : ℕ) (details : Option Json)
      (fromHook : Option Bool), e.body = .compaction summary first tokensBefore details fromHook (some j) →
      (done ++ [FileEntry.entry e])[j]? = some (FileEntry.entry x) → ∃ x' : SessionEntry,
        (migrated ++ [FileEntry.entry e'])[j]? = some (FileEntry.entry x') ∧ e'.body = .compaction summary x'.id tokensBefore details fromHook none) :
    Migrating uuids (done ++ [FileEntry.entry e]) (k + 1) (migrated ++ [FileEntry.entry e']) (some e'.id) := by
  have hes : sessionEntries (migrated ++ [FileEntry.entry e']) = sessionEntries migrated ++ [e'] := by
    rw [sessionEntries_append]
    rfl
  refine ⟨List.rel_append h.kept (.cons hkept .nil), ?_, ?_, ?_, ?_, ?_⟩
  · rw [hes, ids_append, h.ids_eq, List.range_succ, List.map_append, List.map_singleton, ← hid]
    rfl
  · rw [hes, List.getLast?_concat]
    rfl
  · rw [hes]
    cases hm : sessionEntries migrated with
    | nil =>
      intro y hy
      rw [List.nil_append, List.head?_cons, Option.mem_some_iff] at hy
      rw [← hy, hparent, h.prev, hm]
      rfl
    | cons y ys =>
      have := h.root
      rw [hm] at this
      exact this
  · rw [hes, List.isChain_append]
    refine ⟨h.links, by simp, fun x hx y hy => ?_⟩
    rw [List.head?_cons, Option.mem_some_iff] at hy
    show y.parentId = some x.id
    rw [← hy, hparent, h.prev, Option.mem_def.mp hx]
    rfl
  · refine h.resolved.snoc h.length_eq fun c x summary first tokensBefore j details fromHook hc hb hj => ?_
    cases hc
    obtain ⟨x', hx', hb'⟩ := hres x summary first tokensBefore j details fromHook hb hj
    exact ⟨e', x', rfl, hx', hb'⟩

/-- What the loop makes of the next entry. -/
theorem step (h : Migrating uuids done k migrated prevId) (e : SessionEntry) (rest : List FileEntry) :
    ∃ e' : SessionEntry, migrateV1ToV2From uuids k migrated prevId (.entry e :: rest) =
        migrateV1ToV2From uuids (k + 1) (migrated ++ [FileEntry.entry e']) (some e'.id) rest ∧
      Migrating uuids (done ++ [FileEntry.entry e]) (k + 1) (migrated ++ [FileEntry.entry e']) (some e'.id) := by
  obtain ⟨id, parentId, timestamp, body⟩ := e
  -- an entry that is no compaction with an index keeps what it holds
  have hsame : (∀ summary first tokensBefore details fromHook j,
      body ≠ .compaction summary first tokensBefore details fromHook (some j)) →
      Migrating uuids (done ++ [FileEntry.entry ⟨id, parentId, timestamp, body⟩]) (k + 1)
        (migrated ++ [FileEntry.entry ⟨drawnId uuids k, prevId, timestamp, body⟩]) (some (drawnId uuids k)) := fun hb =>
    h.entry rfl rfl (.same _ _) fun _ _ _ _ _ _ _ hc => absurd hc (hb _ _ _ _ _ _)
  cases body with
  | compaction summary first tokensBefore details fromHook index =>
    cases index with
    | none => exact ⟨_, rfl, hsame fun _ _ _ _ _ _ hc => by cases hc⟩
    | some index =>
      refine ⟨_, rfl, h.entry rfl rfl (.compaction _ _ rfl) ?_⟩
      intro x summary' first' tokensBefore' j details' fromHook' hb hj
      cases hb
      obtain ⟨y, hy, hxy⟩ := exists_getElem?_of_forall₂ (List.rel_append h.kept
        (.cons (.compaction (e := ⟨id, parentId, timestamp, _⟩) (drawnId uuids k) prevId rfl) .nil)) hj
      obtain ⟨x', rfl⟩ : ∃ x', y = FileEntry.entry x' := by cases hxy <;> exact ⟨_, rfl⟩
      refine ⟨x', hy, ?_⟩
      refine congrArg (EntryBody.compaction summary · tokensBefore details fromHook none) ?_
      -- the code looks at the entry before its index is resolved, under the id it has already
      rcases Nat.lt_trichotomy index migrated.length with hlt | rfl | hgt
      · rw [List.getElem?_append_left hlt] at hy ⊢
        rw [hy]
      · rw [List.getElem?_concat_length, Option.some.injEq] at hy
        rw [List.getElem?_append_right le_rfl, Nat.sub_self, List.getElem?_cons_zero]
        have hid := congrArg SessionEntry.id (FileEntry.entry.inj hy)
        exact hid
      · rw [List.getElem?_eq_none (by rw [List.length_append, List.length_singleton]; omega)] at hy
        cases hy
  | _ => exact ⟨_, rfl, hsame fun _ _ _ _ _ _ hc => by cases hc⟩

/-- The whole loop. -/
theorem run (rest : List FileEntry) (h : Migrating uuids done k migrated prevId) :
    ∃ k' prevId', Migrating uuids (done ++ rest) k' (migrateV1ToV2From uuids k migrated prevId rest) prevId' := by
  induction rest generalizing done k migrated prevId with
  | nil => exact ⟨k, prevId, by rwa [List.append_nil]⟩
  | cons e rest ih =>
    rw [List.append_cons]
    cases e with
    | session header => exact ih (h.session header)
    | entry e =>
      obtain ⟨e', hrun, he'⟩ := h.step e rest
      rw [hrun]
      exact ih he'

/-- After the whole loop the entries are a path from a root to a leaf, if the ids
drawn differ. -/
theorem rootToLeaf (h : Migrating uuids done k migrated prevId) (hn : ((List.range k).map (drawnId uuids)).Nodup) :
    RootToLeaf (sessionEntries migrated) where
  nodup := h.ids_eq ▸ hn
  id_ne e he := by
    have hmem := mem_ids_of_mem he
    rw [h.ids_eq] at hmem
    obtain ⟨i, -, hi⟩ := List.mem_map.mp hmem
    rw [← hi]
    exact generateId_ne_empty _ _
  links := h.links
  root x hx p hp := by rw [h.root x hx] at hp; cases hp

end Migrating

section

variable {old new : List FileEntry}

theorem isCompaction_of_kept (h : List.Forall₂ KeptEntry old new)
    (hold : ∀ e ∈ sessionEntries old, e.isCompaction = false) : ∀ e ∈ sessionEntries new, e.isCompaction = false := by
  induction h with
  | nil => exact hold
  | cons hab _ ih =>
    cases hab with
    | session => exact ih hold
    | same id parentId => exact List.forall_mem_cons.mpr ⟨(List.forall_mem_cons.mp hold).1, ih (List.forall_mem_cons.mp hold).2⟩
    | compaction id parentId hb =>
      have := (List.forall_mem_cons.mp hold).1
      rw [SessionEntry.isCompaction, hb] at this
      cases this

variable (getTime : String → ℤ)

/-- Entries that were kept add to a context what they added before. -/
theorem entryMessages_of_kept (h : List.Forall₂ KeptEntry old new) :
    entryMessages getTime (sessionEntries new) = entryMessages getTime (sessionEntries old) := by
  induction h with
  | nil => rfl
  | cons hab _ ih =>
    cases hab with
    | session => exact ih
    | @same e id parentId =>
      have : contextMessage getTime { e with id := id, parentId := parentId } = contextMessage getTime e := rfl
      show entryMessages getTime (_ :: sessionEntries _) = entryMessages getTime (e :: sessionEntries _)
      rw [entryMessages, List.filterMap_cons, this]
      rw [entryMessages, List.filterMap_cons, ← entryMessages, ← entryMessages, ih]
    | @compaction e id parentId _ _ _ _ _ _ _ hb =>
      have : contextMessage getTime e = none := by rw [contextMessage, hb]
      show entryMessages getTime (_ :: sessionEntries _) = entryMessages getTime (e :: sessionEntries _)
      rw [entryMessages, entryMessages, List.filterMap_cons_none this]
      exact ih

/-- The messages of the last entry's context in a list that is one path. -/
theorem RootToLeaf.messages {path : List SessionEntry} (h : RootToLeaf path) :
    (buildSessionContext getTime path none (indexById path)).map (·.messages) = some (contextMessages getTime path) := by
  rcases eq_or_ne path [] with rfl | hne
  · rfl
  · rw [h.context getTime hne]
    rfl

end

/-- The entries kept before a compaction that names one of them, or itself. -/
theorem keptFrom_sessionEntries {pre : List FileEntry} {c x : SessionEntry} {post : List SessionEntry} {j : ℕ}
    (hn : (ids (sessionEntries pre ++ c :: post)).Nodup) (hj : (pre ++ [FileEntry.entry c])[j]? = some (FileEntry.entry x)) :
    keptFrom x.id (sessionEntries pre) = sessionEntries (pre.drop j) := by
  rw [ids_append, List.nodup_append] at hn
  rcases Nat.lt_trichotomy j pre.length with hlt | rfl | hgt
  · rw [List.getElem?_append_left hlt] at hj
    have hdrop : pre.drop j = FileEntry.entry x :: pre.drop (j + 1) := by
      rw [List.drop_eq_getElem_cons hlt]
      rw [List.getElem?_eq_getElem hlt, Option.some.injEq] at hj
      rw [hj]
    have hsplit : sessionEntries pre = sessionEntries (pre.take j) ++ sessionEntries (pre.drop j) := by
      rw [← sessionEntries_append, List.take_append_drop]
    have hget : (sessionEntries pre)[(sessionEntries (pre.take j)).length]? = some x := by
      rw [hsplit, List.getElem?_append_right le_rfl, Nat.sub_self, hdrop]
      rfl
    rw [keptFrom_eq_drop hn.1 hget, hsplit, List.drop_left]
  · rw [List.getElem?_concat_length, Option.some.injEq] at hj
    cases hj
    rw [keptFrom_eq_nil fun hc => hn.2.2 _ hc _ (by simp) rfl, List.drop_length]
    rfl
  · rw [List.getElem?_eq_none (by rw [List.length_append, List.length_singleton]; omega)] at hj
    cases hj

/-- The last compaction keeps what its index kept. -/
theorem Migrating.contextMessages_cut (getTime : String → ℤ) {uuids : ℕ → ℕ → Uuid} {pre post migrated : List FileEntry}
    {c x : SessionEntry} {k j : ℕ} {prevId : Option String} {summary first : String} {tokensBefore : ℕ}
    {details : Option Json} {fromHook : Option Bool} (h : Migrating uuids (pre ++ FileEntry.entry c :: post) k migrated prevId)
    (hn : (ids (sessionEntries migrated)).Nodup)
    (hc : c.body = .compaction summary first tokensBefore details fromHook (some j))
    (hpost : ∀ e ∈ sessionEntries post, e.isCompaction = false)
    (hj : (pre ++ [FileEntry.entry c])[j]? = some (FileEntry.entry x)) :
    contextMessages getTime (sessionEntries migrated) =
      createCompactionSummaryMessage getTime summary tokensBefore c.timestamp ::
        (entryMessages getTime (sessionEntries (pre.drop j)) ++ entryMessages getTime (sessionEntries post)) := by
  have hlt : j < pre.length + 1 := by
    obtain ⟨hlt, -⟩ := List.getElem?_eq_some_iff.mp hj
    rwa [List.length_append] at hlt
  -- the compaction in the new list
  have hpre := List.forall₂_take pre.length h.kept
  have hrest := List.forall₂_drop pre.length h.kept
  rw [List.take_left] at hpre
  rw [List.drop_left, List.forall₂_cons_left_iff] at hrest
  obtain ⟨b, post', hcb, hkept, hdrop⟩ := hrest
  have hmigrated : migrated = migrated.take pre.length ++ b :: post' := by rw [← hdrop, List.take_append_drop]
  generalize migrated.take pre.length = pre' at hpre hmigrated
  subst hmigrated
  obtain ⟨c', rfl⟩ : ∃ c', b = .entry c' := by cases hcb <;> exact ⟨_, rfl⟩
  have htime : c'.timestamp = c.timestamp := by cases hcb <;> rfl
  -- and what it names there
  obtain ⟨c'', x', hc', hx', hb⟩ := h.resolved pre.length j c x summary first tokensBefore details fromHook (by simp) hc
    (by omega) (by rw [List.append_cons, List.getElem?_append_left (by simpa using hlt)]; exact hj)
  rw [hpre.length_eq, List.getElem?_append_right le_rfl, Nat.sub_self, List.getElem?_cons_zero, Option.some.injEq] at hc'
  cases hc'
  rw [List.append_cons, List.getElem?_append_left (by rw [List.length_append, ← hpre.length_eq]; simpa using hlt)] at hx'
  have hes : sessionEntries (pre' ++ .entry c' :: post') = sessionEntries pre' ++ c' :: sessionEntries post' :=
    sessionEntries_append _ _
  rw [hes] at hn ⊢
  rw [Trek.contextMessages_cut getTime hb (isCompaction_of_kept hkept hpost) hn, keptFrom_sessionEntries hn hx', htime,
    entryMessages_of_kept getTime (List.forall₂_drop j hpre), entryMessages_of_kept getTime hkept]

/-! ### The whole migration -/

end Trek
