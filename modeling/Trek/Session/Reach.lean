/-
# What every session manager keeps

The operations that grow the tree of a session, what one of them does
(`TreeOp.step_grows`), and what holds of every state they reach from a new
session (`TreeReach.sound`): ids are non-empty and pairwise different, the
parent of an entry was there before it, the index is the entries by id, and the
leaf is an entry.
-/
import Trek.Session.Manager

namespace Trek

/-! ### Lists of entries that grew one by one -/

/-- The ids of some entries. -/
def ids (es : List SessionEntry) : List String := es.map (·.id)

@[simp] theorem ids_append (a b : List SessionEntry) : ids (a ++ b) = ids a ++ ids b := List.map_append

@[simp] theorem ids_nil : ids [] = [] := rfl

@[simp] theorem ids_cons (e : SessionEntry) (es : List SessionEntry) : ids (e :: es) = e.id :: ids es := rfl

theorem mem_ids_of_mem {e : SessionEntry} {es : List SessionEntry} (h : e ∈ es) : e.id ∈ ids es :=
  List.mem_map.mpr ⟨e, h, rfl⟩

/-- An entry goes under an entry that is there, under an id that is not. -/
structure Fits (es : List SessionEntry) (e : SessionEntry) : Prop where
  fresh : e.id ∉ ids es
  id_ne : e.id ≠ ""
  parent : ∀ p ∈ e.parentId, p ∈ ids es

/-- Entries that were added one by one. -/
inductive Grown : List SessionEntry → Prop
  | nil : Grown []
  | snoc {es : List SessionEntry} {e : SessionEntry} : Grown es → Fits es e → Grown (es ++ [e])

namespace Grown

variable {es : List SessionEntry}

theorem nodup (h : Grown es) : (ids es).Nodup := by
  induction h with
  | nil => exact List.nodup_nil
  | snoc _ hf ih =>
    rw [ids_append, List.nodup_append]
    refine ⟨ih, by simp [ids], fun a ha b hb hab => hf.fresh ?_⟩
    rw [ids_cons, ids_nil, List.mem_singleton] at hb
    exact hb ▸ hab ▸ ha

theorem id_ne (h : Grown es) : ∀ e ∈ es, e.id ≠ "" := by
  induction h with
  | nil => simp
  | snoc _ hf ih =>
    intro e he
    rcases List.mem_append.mp he with he | he
    · exact ih e he
    · rw [List.mem_singleton.mp he]; exact hf.id_ne

theorem parent_mem (h : Grown es) : ∀ e ∈ es, ∀ p ∈ e.parentId, p ∈ ids es := by
  induction h with
  | nil => simp
  | snoc _ hf ih =>
    intro e he p hp
    rw [ids_append, List.mem_append]
    rcases List.mem_append.mp he with he | he
    · exact Or.inl (ih e he p hp)
    · rw [List.mem_singleton.mp he] at hp; exact Or.inl (hf.parent p hp)

end Grown

/-! ### The index -/

theorem indexById_snoc (es : List SessionEntry) (e : SessionEntry) :
    indexById (es ++ [e]) = (indexById es).set e.id e := by
  simp [indexById]

theorem mem_keys_indexById {es : List SessionEntry} {id : String} : id ∈ (indexById es).keys ↔ id ∈ ids es := by
  induction es using List.reverseRecOn with
  | nil => simp [indexById, OrdMap.empty, OrdMap.keys]
  | append_singleton es e ih =>
    rw [indexById_snoc, OrdMap.mem_keys_set, ih, ids_append]
    simp [ids, or_comm]

/-- Entries with different ids are found under their ids. -/
theorem indexById_get? {es : List SessionEntry} (h : (ids es).Nodup) {id : String} {e : SessionEntry} :
    (indexById es).get? id = some e ↔ e ∈ es ∧ e.id = id := by
  induction es using List.reverseRecOn with
  | nil => simp [indexById]
  | append_singleton es x ih =>
    rw [ids_append, List.nodup_append] at h
    rw [indexById_snoc, OrdMap.get?_set]
    by_cases hx : id = x.id
    · subst hx
      rw [if_pos rfl, Option.some.injEq]
      constructor
      · rintro rfl; simp
      · rintro ⟨he, hid⟩
        rcases List.mem_append.mp he with he | he
        · exact absurd hid (h.2.2 _ (mem_ids_of_mem he) _ (by simp))
        · exact (List.mem_singleton.mp he).symm
    · rw [if_neg hx, ih h.1]
      constructor
      · rintro ⟨he, hid⟩; exact ⟨List.mem_append_left _ he, hid⟩
      · rintro ⟨he, rfl⟩
        rcases List.mem_append.mp he with he | he
        · exact ⟨he, rfl⟩
        · exact absurd (congrArg SessionEntry.id (List.mem_singleton.mp he)) hx

/-- The parent of an entry, among entries with different ids. -/
theorem parentEntry_eq_some {es : List SessionEntry} (h : (ids es).Nodup) {e x : SessionEntry} :
    parentEntry (indexById es) e = some x ↔ e.parentId = some x.id ∧ x.id ≠ "" ∧ x ∈ es := by
  unfold parentEntry
  cases hp : e.parentId with
  | none => simp
  | some p =>
    by_cases ht : p = ""
    · subst ht
      simp only [truthy, ne_eq, not_true_eq_false, decide_false, Bool.false_eq_true, ↓reduceIte, reduceCtorEq,
        Option.some.injEq, false_iff, not_and]
      exact fun h0 h1 => absurd h0.symm h1
    · simp only [truthy, ne_eq, ht, not_false_eq_true, decide_true, ↓reduceIte, indexById_get? h,
        Option.some.injEq]
      constructor
      · rintro ⟨hx, rfl⟩; exact ⟨rfl, ht, hx⟩
      · rintro ⟨rfl, _, hx⟩; exact ⟨hx, rfl⟩

theorem parentEntry_eq_none {es : List SessionEntry} {e : SessionEntry} :
    parentEntry (indexById es) e = none ↔ ∀ p ∈ e.parentId, p ≠ "" → p ∉ ids es := by
  unfold parentEntry
  cases hp : e.parentId with
  | none => simp
  | some p =>
    by_cases ht : p = ""
    · simp [truthy, ht]
    · simp [truthy, ht, OrdMap.get?_eq_none, mem_keys_indexById]

/-- Every entry of a grown list has a path to a root, and all of it is in the list. -/
theorem Grown.lineage {es : List SessionEntry} (h : Grown es) :
    ∀ e ∈ es, ∃ p, Lineage (parentEntry (indexById es)) e p ∧ p ⊆ es := by
  induction h with
  | nil => simp
  | @snoc es x hg hf ih =>
    have hnd := (Grown.snoc hg hf).nodup
    -- the new entry is nobody's parent yet, so the old paths stay
    have hold : ∀ e ∈ es, parentEntry (indexById (es ++ [x])) e = parentEntry (indexById es) e := by
      intro e he
      refine Option.ext fun y => ?_
      rw [parentEntry_eq_some hnd, parentEntry_eq_some hg.nodup]
      refine and_congr_right fun hp => and_congr_right fun _ => ⟨fun hy => ?_, List.mem_append_left _⟩
      rcases List.mem_append.mp hy with hy | hy
      · exact hy
      · rw [List.mem_singleton.mp hy] at hp
        exact absurd (hg.parent_mem e he _ hp) hf.fresh
    have hkeep : ∀ e ∈ es, ∃ p, Lineage (parentEntry (indexById (es ++ [x]))) e p ∧ p ⊆ es := by
      intro e he
      obtain ⟨p, hp, hsub⟩ := ih e he
      exact ⟨p, hp.congr fun y hy => hold y (hsub hy), hsub⟩
    intro e he
    rcases List.mem_append.mp he with he | he
    · obtain ⟨p, hp, hsub⟩ := hkeep e he
      exact ⟨p, hp, fun y hy => List.mem_append_left _ (hsub hy)⟩
    · rw [List.mem_singleton.mp he]
      cases hpar : parentEntry (indexById (es ++ [x])) x with
      | none => exact ⟨[x], .root hpar, by simp⟩
      | some y =>
        obtain ⟨hy, _, hmem⟩ := (parentEntry_eq_some hnd).mp hpar
        have hyes : y ∈ es := by
          rcases List.mem_append.mp hmem with h0 | h0
          · exact h0
          · exact absurd (List.mem_singleton.mp h0 ▸ hf.parent _ hy) hf.fresh
        obtain ⟨p, hp, hsub⟩ := hkeep y hyes
        refine ⟨p ++ [x], .child hpar hp, fun z hz => ?_⟩
        rcases List.mem_append.mp hz with hz | hz
        · exact List.mem_append_left _ (hsub hz)
        · exact List.mem_append_right _ hz

/-! ### New ids -/

theorem generateId_cases (has : String → Bool) (uuids : ℕ → Uuid) :
    (has (generateId has uuids) = false ∧ ∃ u : Uuid, generateId has uuids = u.short) ∨
      generateId has uuids = (uuids 100).text := by
  unfold generateId
  split
  · rename_i i hi
    have := List.find?_some hi
    exact Or.inl ⟨by simpa using this, _, rfl⟩
  · exact Or.inr rfl

theorem Uuid.short_length (u : Uuid) : u.short.length = 8 := by
  have h := u.length_eq
  rw [← String.length_toList] at h
  simp [Uuid.short, h]

theorem Uuid.short_ne_text (u v : Uuid) : u.short ≠ v.text := by
  intro h
  have := congrArg String.length h
  rw [u.short_length, v.length_eq] at this
  cases this

theorem generateId_ne_empty (has : String → Bool) (uuids : ℕ → Uuid) : generateId has uuids ≠ "" := by
  intro h
  rcases generateId_cases has uuids with ⟨_, u, hu⟩ | hu
  · have := u.short_length
    rw [← hu, h] at this
    cases this
  · have := (uuids 100).length_eq
    rw [← hu, h] at this
    cases this

theorem generateId_fresh {has : String → Bool} {uuids : ℕ → Uuid} (h : has (uuids 100).text = false) :
    has (generateId has uuids) = false := by
  rcases generateId_cases has uuids with ⟨h0, _⟩ | h0
  · exact h0
  · rw [h0, h]

/-- The UUIDs that the first `n` calls of `generateId` fall back to are not in
use as ids and differ from each other. The short ids are checked by the code
and need no such assumption. -/
structure UuidsUnused (d : Draws) (used : List String) (n : ℕ) : Prop where
  unused : ∀ k < n, (d.uuids k 100).text ∉ used
  distinct : ∀ j < n, ∀ k < n, j ≠ k → (d.uuids j 100).text ≠ (d.uuids k 100).text

/-- Every UUID is 36 times the same character. -/
def sameDraws (c : Char) : Draws :=
  ⟨fun _ _ => ⟨String.ofList (List.replicate 36 c), by simp⟩, "2025-01-01T00:00:00.000Z", "branch"⟩

theorem sameDraws_unused {c : Char} {used : List String} (h : String.ofList (List.replicate 36 c) ∉ used) :
    UuidsUnused (sameDraws c) used 1 :=
  ⟨fun _ _ => h, fun _ hj _ hk hjk => absurd (by omega) hjk⟩

/-- An entry goes under the one before it. -/
def Links (x y : SessionEntry) : Prop := y.parentId = some x.id

/-- A chain has new ids. -/
theorem chainEntries_nodup {d : Draws} {n : ℕ}
    (hd : ∀ j < n, ∀ k < n, j ≠ k → (d.uuids j 100).text ≠ (d.uuids k 100).text) :
    ∀ (items : List (String × EntryBody)) (k : ℕ) (reserved : List String) (parentId : Option String)
      (used : List String), k + items.length ≤ n → used.Nodup → (∀ s, s ∈ reserved ↔ s ∈ used) →
      (∀ i, k ≤ i → i < n → (d.uuids i 100).text ∉ used) →
      (used ++ ids (World.chainEntries d k reserved parentId items)).Nodup
  | [], _, _, _, used, _, hn, _, _ => by simpa [World.chainEntries] using hn
  | (timestamp, body) :: items, k, reserved, parentId, used, hk, hn, hr, hu => by
    rw [List.length_cons] at hk
    rw [World.chainEntries]
    set id := generateId (fun s => decide (s ∈ reserved)) (d.uuids k) with hid
    have hfresh : id ∉ used := by
      have := @generateId_fresh (fun s => decide (s ∈ reserved)) (d.uuids k)
        (by simpa [hr] using hu k le_rfl (by omega))
      exact fun hm => of_decide_eq_false this ((hr id).mpr hm)
    have hnext := chainEntries_nodup hd items (k + 1) (reserved ++ [id]) (some id) (used ++ [id])
      (by omega) (List.nodup_append.mpr ⟨hn, by simp, fun a ha b hb hab => hfresh (by simp_all)⟩)
      (by intro s; simp [hr]) (by
        intro i hi hin
        rw [List.mem_append, not_or, List.mem_singleton]
        refine ⟨hu i (by omega) hin, ?_⟩
        rcases generateId_cases (fun s => decide (s ∈ reserved)) (d.uuids k) with ⟨_, u, h0⟩ | h0
        · rw [hid, h0]; exact (u.short_ne_text _).symm
        · rw [hid, h0]; exact hd i hin k (by omega) (by omega))
    rw [List.append_assoc, List.singleton_append] at hnext
    exact hnext

theorem chainEntries_id_ne {d : Draws} : ∀ (items : List (String × EntryBody)) (k : ℕ) (reserved : List String)
    (parentId : Option String), ∀ e ∈ World.chainEntries d k reserved parentId items, e.id ≠ ""
  | [], _, _, _ => by simp [World.chainEntries]
  | (timestamp, body) :: items, k, reserved, parentId => by
    intro e he
    rcases List.mem_cons.mp he with rfl | he
    · have hne : generateId (fun s => decide (s ∈ reserved)) (d.uuids k) ≠ "" := generateId_ne_empty _ _
      exact hne
    · exact chainEntries_id_ne items _ _ _ e he

theorem mem_chainEntries {d : Draws} {e : SessionEntry} : ∀ {items : List (String × EntryBody)} {k : ℕ}
    {reserved : List String} {parentId : Option String}, e ∈ World.chainEntries d k reserved parentId items →
    ∃ item ∈ items, e.timestamp = item.1 ∧ e.body = item.2
  | [], _, _, _, h => by simp [World.chainEntries] at h
  | item :: items, k, reserved, parentId, h => by
    rcases List.mem_cons.mp h with rfl | h
    · exact ⟨item, List.mem_cons_self, rfl, rfl⟩
    · obtain ⟨x, hx, hxe⟩ := mem_chainEntries h
      exact ⟨x, List.mem_cons_of_mem _ hx, hxe⟩

/-- The first entry of a chain goes under `parentId`, each other one under the
one before it. -/
theorem chainEntries_links {d : Draws} : ∀ (items : List (String × EntryBody)) (k : ℕ) (reserved : List String)
    (parentId : Option String),
    (∀ x ∈ (World.chainEntries d k reserved parentId items).head?, x.parentId = parentId) ∧
      (World.chainEntries d k reserved parentId items).IsChain Links
  | [], _, _, _ => by simp [World.chainEntries]
  | (timestamp, body) :: items, k, reserved, parentId => by
    have ih := chainEntries_links (d := d) items (k + 1)
      (reserved ++ [generateId (fun s => decide (s ∈ reserved)) (d.uuids k)])
      (some (generateId (fun s => decide (s ∈ reserved)) (d.uuids k)))
    rw [World.chainEntries]
    refine ⟨by simp, ?_⟩
    rw [List.isChain_cons]
    exact ⟨fun y hy => ih.1 y hy, ih.2⟩

/-- The ids the next `n` calls of `generateId` draw, from the `k`-th on. -/
def drawnIds (d : Draws) : ℕ → List String → ℕ → List String
  | _, _, 0 => []
  | k, reserved, n + 1 =>
    let id := generateId (fun s => s ∈ reserved) (d.uuids k)
    id :: drawnIds d (k + 1) (reserved ++ [id]) n

theorem ids_chainEntries {d : Draws} : ∀ (items : List (String × EntryBody)) (k : ℕ) (reserved : List String)
    (parentId : Option String),
    ids (World.chainEntries d k reserved parentId items) = drawnIds d k reserved items.length
  | [], _, _, _ => rfl
  | (timestamp, body) :: items, k, reserved, parentId => by
    rw [World.chainEntries, List.length_cons, drawnIds, ids_cons, ids_chainEntries items]

/-- Entries that link to one another below entries that are there fit. -/
theorem Grown.append_chain {es : List SessionEntry} (hg : Grown es) : ∀ {chain : List SessionEntry},
    (ids es ++ ids chain).Nodup → (∀ e ∈ chain, e.id ≠ "") →
    (∀ x ∈ chain.head?, ∀ p ∈ x.parentId, p ∈ ids es) → chain.IsChain Links → Grown (es ++ chain) := by
  intro chain
  induction chain generalizing es with
  | nil => intro _ _ _ _; simpa using hg
  | cons x chain ih =>
    intro hn hne hhead hlinks
    rw [ids_cons, List.nodup_append] at hn
    rw [List.isChain_cons] at hlinks
    have hfits : Fits es x :=
      ⟨fun hx => hn.2.2 _ hx _ List.mem_cons_self rfl, hne x List.mem_cons_self, hhead x (by simp)⟩
    have := ih (hg.snoc hfits) ?_ (fun e he => hne e (List.mem_cons_of_mem _ he)) ?_ hlinks.2
    · rwa [List.append_assoc, List.singleton_append] at this
    · rw [ids_append, List.append_assoc, List.nodup_append]
      exact hn
    · intro y hy p hp
      rw [show y.parentId = some x.id from hlinks.1 y hy, Option.mem_def, Option.some.injEq] at hp
      simp [hp]

/-! ### The operations -/

/-- The operations that grow the tree of a session or move its leaf. -/
inductive TreeOp
  | appendMessage (message : AgentMessage)
  | appendThinkingLevelChange (thinkingLevel : String)
  | appendModelChange (provider modelId : String)
  | appendCompaction (summary firstKeptEntryId : String) (tokensBefore : ℕ) (details : Option Json)
      (fromHook : Option Bool)
  | appendCustomEntries (records : List (String × Option Json))
  | appendSessionInfo (name : String)
  | appendPromptMeta (promptNumber : ℕ) (promptId : String) (preview : Option String)
  | appendCustomMessageEntry (customType : String) (content : UserContent) (display : Bool)
      (details : Option Json)
  | appendLabelChange (targetId : String) (label : Option String)
  | branch (branchFromId : String)
  | branchWithSummary (branchFromId : Option String) (summary : String) (details : Option Json)
      (fromHook : Option Bool)
  | resetLeaf

/-- How many ids an operation draws at most. -/
def TreeOp.draws : TreeOp → ℕ
  | .appendCustomEntries records => records.length
  | _ => 1

/-- What an operation does, and the error it throws. -/
def TreeOp.step (w : World) (d : Draws) : TreeOp → World × Option String
  | .appendMessage m => w.appendMessage d m
  | .appendThinkingLevelChange l => w.appendThinkingLevelChange d l
  | .appendModelChange p i => w.appendModelChange d p i
  | .appendCompaction s f t de h => w.appendCompaction d s f t de h
  | .appendCustomEntries r => w.appendCustomEntries d r
  | .appendSessionInfo n => w.appendSessionInfo d n
  | .appendPromptMeta n i p => w.appendPromptMeta d n i p
  | .appendCustomMessageEntry t c disp de => w.appendCustomMessageEntry d t c disp de
  | .appendLabelChange t l => w.appendLabelChange d t l
  | .branch i => w.branch i
  | .branchWithSummary i s de h => w.branchWithSummary d i s de h
  | .resetLeaf => w.resetLeaf

/-- A state of a session manager that was made for a new session. -/
inductive TreeReach : World → Prop
  | create (disk : Disk) (cwd sessionDir : String) (persist : Bool) (d : Draws) :
    TreeReach (World.create d disk cwd sessionDir persist)
  | step {w : World} (d : Draws) (op : TreeOp) : TreeReach w → UuidsUnused d (ids w.manager.entries) op.draws →
    TreeReach (op.step w d).1

/-! ### What they keep -/

@[simp] theorem sessionEntries_append (a b : List FileEntry) :
    sessionEntries (a ++ b) = sessionEntries a ++ sessionEntries b := List.filterMap_append

@[simp] theorem sessionEntries_map (es : List SessionEntry) : sessionEntries (es.map .entry) = es := by
  simp [sessionEntries, List.filterMap_map]

@[simp] theorem sessionEntries_session (h : SessionHeader) (es : List FileEntry) :
    sessionEntries (.session h :: es) = sessionEntries es := rfl

/-- What holds of every manager. -/
structure Sound (m : SessionManager) : Prop where
  grown : Grown m.entries
  indexed : m.byId = indexById m.entries
  leaf : ∀ l ∈ m.leafId, l ∈ ids m.entries

theorem Sound.has_iff {m : SessionManager} (h : Sound m) {id : String} : m.byId.has id = true ↔ id ∈ ids m.entries := by
  rw [h.indexed, OrdMap.has_iff, mem_keys_indexById]

/-- Persisting touches the file, its descriptor and `flushed` only. -/
theorem persistBatch_manager (w : World) (es : List SessionEntry) :
    ∃ fd fl, (w.persistBatch es).1.manager = { w.manager with appendFd := fd, flushed := fl } := by
  obtain ⟨m, disk⟩ := w
  unfold World.persistBatch World.writeJsonlChunk World.closeFile SessionManager.closeAppendFd
  dsimp only
  repeat' split
  all_goals exact ⟨_, _, rfl⟩

theorem foldl_pushEntry : ∀ (es : List SessionEntry) (m : SessionManager),
    (es.foldl World.pushEntry m).fileEntries = m.fileEntries ++ es.map .entry ∧
      (es.foldl World.pushEntry m).byId = es.foldl (fun b e => b.set e.id e) m.byId ∧
      (es.foldl World.pushEntry m).leafId = (es.getLast?.map (·.id)).or m.leafId
  | [], m => by simp
  | e :: es, m => by
    obtain ⟨h1, h2, h3⟩ := foldl_pushEntry es (World.pushEntry m e)
    simp only [List.foldl_cons, h1, h2, h3]
    refine ⟨by simp [World.pushEntry], rfl, ?_⟩
    cases es with
    | nil => rfl
    | cons x es => simp [List.getLast?_cons]

/-- The loop of `_buildIndex`. -/
theorem foldl_indexEntry : ∀ (es : List SessionEntry) (m : SessionManager),
    (es.foldl SessionManager.indexEntry m).fileEntries = m.fileEntries ∧
      (es.foldl SessionManager.indexEntry m).byId = es.foldl (fun b e => b.set e.id e) m.byId ∧
      (es.foldl SessionManager.indexEntry m).leafId = (es.getLast?.map (·.id)).or m.leafId
  | [], m => by simp
  | e :: es, m => by
    obtain ⟨h1, h2, h3⟩ := foldl_indexEntry es (m.indexEntry e)
    have hstep : (m.indexEntry e).fileEntries = m.fileEntries ∧ (m.indexEntry e).byId = m.byId.set e.id e ∧
        (m.indexEntry e).leafId = some e.id := by
      unfold SessionManager.indexEntry SessionManager.recordLabel SessionManager.noteEntry
      repeat' split
      all_goals exact ⟨rfl, rfl, rfl⟩
    simp only [List.foldl_cons, h1, h2, h3, hstep]
    refine ⟨trivial, trivial, ?_⟩
    cases es with
    | nil => rfl
    | cons x es => simp [List.getLast?_cons]

/-- What `_buildIndex` makes of the entries. -/
theorem buildIndex_spec (m : SessionManager) : m.buildIndex.entries = m.entries ∧
    m.buildIndex.byId = indexById m.entries ∧ m.buildIndex.leafId = m.entries.getLast?.map (·.id) := by
  obtain ⟨h1, h2, h3⟩ := foldl_indexEntry m.entries
    { m with byId := .empty, labelsById := .empty, labelTimestampsById := .empty, leafId := none, hasAssistant := false }
  refine ⟨?_, h2, ?_⟩
  · unfold SessionManager.entries SessionManager.buildIndex
    rw [h1]
  · rw [SessionManager.buildIndex, h3, Option.or_none]

/-- Entries that fit below what is there keep a manager sound. -/
theorem Sound.appendEntries {w : World} (h : Sound w.manager) {es : List SessionEntry}
    (hg : Grown (w.manager.entries ++ es)) : Sound (w.appendEntries es).1.manager := by
  obtain ⟨h1, h2, h3⟩ := foldl_pushEntry es w.manager
  obtain ⟨fd, fl, hp⟩ := persistBatch_manager { w with manager := es.foldl World.pushEntry w.manager } es
  have he : (w.appendEntries es).1.manager.entries = w.manager.entries ++ es := by
    rw [World.appendEntries, hp]
    simp [SessionManager.entries, h1]
  refine ⟨by rw [he]; exact hg, ?_, ?_⟩
  · rw [he, World.appendEntries, hp]
    show (es.foldl World.pushEntry w.manager).byId = _
    rw [h2, h.indexed, indexById, indexById, List.foldl_append]
  · intro l hl
    rw [World.appendEntries, hp] at hl
    change l ∈ (es.foldl World.pushEntry w.manager).leafId at hl
    rw [he, ids_append, List.mem_append]
    rw [h3, Option.mem_def, Option.or_eq_some_iff] at hl
    rcases hl with hl | ⟨-, hl⟩
    · obtain ⟨e, he, rfl⟩ := Option.map_eq_some_iff.mp hl
      exact Or.inr (mem_ids_of_mem (List.mem_of_getLast? he))
    · exact Or.inl (h.leaf l hl)

theorem newEntry_fits {w : World} (h : Sound w.manager) {d : Draws}
    (hd : UuidsUnused d (ids w.manager.entries) 1) (body : EntryBody) :
    Fits w.manager.entries (w.newEntry d body) := by
  have hfresh : w.manager.byId.has (generateId w.manager.byId.has (d.uuids 0)) = false := by
    apply generateId_fresh
    rw [Bool.eq_false_iff, ne_eq, h.has_iff]
    exact hd.unused 0 Nat.one_pos
  rw [Bool.eq_false_iff, ne_eq, h.has_iff] at hfresh
  exact ⟨hfresh, generateId_ne_empty _ _, h.leaf⟩

theorem Sound.appendBody {w : World} (h : Sound w.manager) {d : Draws}
    (hd : UuidsUnused d (ids w.manager.entries) 1) (body : EntryBody) :
    Sound (w.appendBody d body).1.manager :=
  h.appendEntries (h.grown.snoc (newEntry_fits h hd body))

theorem Sound.moveLeaf {m : SessionManager} (h : Sound m) (leafId : Option String)
    (hl : ∀ l ∈ leafId, l ∈ ids m.entries) : Sound { m with leafId := leafId } :=
  ⟨h.grown, h.indexed, hl⟩

theorem Sound.recordLabel {m : SessionManager} (h : Sound m) (targetId : String) (label : Option String)
    (timestamp : String) : Sound (m.recordLabel targetId label timestamp) := by
  unfold SessionManager.recordLabel
  split <;> exact ⟨h.grown, h.indexed, h.leaf⟩

/-- A step keeps a manager sound. -/
theorem TreeOp.step_sound {w : World} (h : Sound w.manager) {d : Draws}
    (op : TreeOp) (hd : UuidsUnused d (ids w.manager.entries) op.draws) : Sound (op.step w d).1.manager := by
  cases op with
  | appendMessage _ => exact h.appendBody hd _
  | appendThinkingLevelChange _ => exact h.appendBody hd _
  | appendModelChange _ _ => exact h.appendBody hd _
  | appendCompaction _ _ _ _ _ => exact h.appendBody hd _
  | appendCustomEntries records =>
    refine h.appendEntries (h.grown.append_chain ?_ (chainEntries_id_ne _ _ _ _) ?_ (chainEntries_links _ _ _ _).2)
    · refine chainEntries_nodup hd.distinct _ _ _ _ _ ?_ h.grown.nodup ?_ fun i _ => hd.unused i
      · rw [List.length_map, Nat.zero_add]
        exact le_rfl
      · intro s
        rw [← OrdMap.has_iff, h.has_iff]
    · intro x hx
      rw [(chainEntries_links _ _ _ _).1 x hx]
      exact h.leaf
  | appendSessionInfo _ => exact h.appendBody hd _
  | appendPromptMeta _ _ _ => exact h.appendBody hd _
  | appendCustomMessageEntry _ _ _ _ => exact h.appendBody hd _
  | appendLabelChange targetId label =>
    simp only [TreeOp.step, World.appendLabelChange]
    split
    · have hs := h.appendBody hd (.label targetId label)
      unfold World.appendBody at hs
      split
      · rename_i heq; rw [heq] at hs; exact hs
      · rename_i heq; rw [heq] at hs; exact hs.recordLabel _ _ _
    · exact h
  | branch i =>
    simp only [TreeOp.step, World.branch]
    split
    · rename_i hi
      exact h.moveLeaf (some i) fun l hl => by rw [← Option.some.inj hl]; exact h.has_iff.mp hi
    · exact h
  | branchWithSummary i _ _ _ =>
    cases i with
    | none =>
      have hs := h.moveLeaf none (by simp)
      exact Sound.appendBody (w := { w with manager := { w.manager with leafId := none } }) hs hd _
    | some i =>
      simp only [TreeOp.step, World.branchWithSummary]
      split
      · rename_i hi
        have hs := h.moveLeaf (some i) fun l hl => by rw [← Option.some.inj hl]; exact h.has_iff.mp hi
        exact Sound.appendBody (w := { w with manager := { w.manager with leafId := some i } }) hs hd _
      · exact h
  | resetLeaf => exact h.moveLeaf none (by simp)

/-- **Every state of a session manager is sound.** -/
theorem TreeReach.sound {w : World} (h : TreeReach w) : Sound w.manager := by
  induction h with
  | create disk cwd sessionDir persist d => exact ⟨.nil, rfl, by simp [World.create, World.newSession]⟩
  | step d op _ hd ih => exact op.step_sound ih hd

end Trek
