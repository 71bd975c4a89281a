/-
# What the context of a path consists of

`buildSessionContext` finds the last compaction of a path by a loop over it and
its place by a search. Here the path is cut there once and for all
(`contextMessages_cut`), and the label entries, which add nothing to a context,
are dropped from it (the `_withoutLabels` lemmas).
-/
import Mathlib.Data.List.TakeWhile
import Trek.Session.Reach

namespace Trek

/-! ### Paths in entries with different ids -/

/-- A path is entries that link to one another below one whose parent is not
there. -/
theorem lineage_iff_links {es p : List SessionEntry} {x : SessionEntry} (hn : (ids es).Nodup)
    (hne : ∀ e ∈ es, e.id ≠ "") (hp : p ⊆ es) :
    Lineage (parentEntry (indexById es)) x p ↔ p.getLast? = some x ∧
      (∀ y ∈ p.head?, ∀ q ∈ y.parentId, q ≠ "" → q ∉ ids es) ∧ p.IsChain Links := by
  rw [Lineage.iff_chain]
  refine and_congr_right fun _ => and_congr (forall₂_congr fun y _ => parentEntry_eq_none) ?_
  refine List.IsChain.iff_of_mem_imp fun y z hy _ => ?_
  rw [parentEntry_eq_some hn]
  exact ⟨fun h => h.1, fun h => ⟨h, hne y (hp hy), hp hy⟩⟩

theorem Lineage.subset_entries {es p : List SessionEntry} {x : SessionEntry} (hn : (ids es).Nodup) (hx : x ∈ es)
    (h : Lineage (parentEntry (indexById es)) x p) : p ⊆ es :=
  h.subset (fun _ _ _ hz => ((parentEntry_eq_some hn).mp hz).2.2) hx

theorem nodup_ids_of_subset {es p : List SessionEntry} (hn : (ids es).Nodup) (hp : p ⊆ es) (hpn : p.Nodup) :
    (ids p).Nodup :=
  List.Nodup.map_on (fun _ hx _ hy hxy => List.inj_on_of_nodup_map hn (hp hx) (hp hy) hxy) hpn

/-- The path to an entry of a sound manager. -/
theorem Sound.getBranch_eq {m : SessionManager} (h : Sound m) {e : SessionEntry} (he : e ∈ m.entries) :
    ∃ path, m.getBranch (some e.id) = some path ∧ Lineage (parentEntry (indexById m.entries)) e path ∧
      path ⊆ m.entries := by
  obtain ⟨path, hp, hsub⟩ := h.grown.lineage e he
  refine ⟨path, ?_, hp, hsub⟩
  have hid : truthy e.id = true := decide_eq_true (h.grown.id_ne e he)
  have hget : m.byId.get? e.id = some e := by
    rw [h.indexed]; exact (indexById_get? h.grown.nodup).mpr ⟨he, rfl⟩
  simp only [SessionManager.getBranch, Option.some_or, hid, ↓reduceIte, hget]
  rw [h.indexed]
  exact pathToRoot_eq_some_iff.mpr hp

/-- The context of an entry is the context of the path to it. -/
theorem buildSessionContext_of_lineage {es p : List SessionEntry} {e : SessionEntry} (getTime : String → ℤ)
    (hn : (ids es).Nodup) (he : e ∈ es) (hne : e.id ≠ "") (hp : Lineage (parentEntry (indexById es)) e p) :
    buildSessionContext getTime es (some (some e.id)) (indexById es) = some (contextOfPath getTime p) := by
  have hget : (indexById es).get? e.id = some e := (indexById_get? hn).mpr ⟨he, rfl⟩
  simp only [buildSessionContext, contextLeaf, Option.join_some, Option.bind_some, truthy, ne_eq, hne,
    not_false_eq_true, decide_true, ↓reduceIte, hget, pathToRoot_eq_some_iff.mpr hp, Option.map_some]

/-- A manager whose leaf is the last of its entries: its context is that of the
path to it. -/
theorem context_of_indexed (getTime : String → ℤ) {m : SessionManager} {es : List SessionEntry} {x : SessionEntry}
    (hb : m.byId = indexById es) (hl : m.leafId = some x.id) (hn : (ids es).Nodup)
    (hx : x ∈ es) (hne : x.id ≠ "") :
    m.context getTime = (pathToRoot (indexById es) x).map (contextOfPath getTime) ∧
      m.getBranch none = pathToRoot (indexById es) x := by
  have hget : (indexById es).get? x.id = some x := (indexById_get? hn).mpr ⟨hx, rfl⟩
  have ht : truthy x.id = true := decide_eq_true hne
  constructor
  · simp only [SessionManager.context, hb, hl, buildSessionContext, contextLeaf, Option.join_some,
      Option.bind_some, ht, ↓reduceIte, hget]
  · simp only [SessionManager.getBranch, hb, hl, Option.none_or, ht, ↓reduceIte, hget]

/-- The entries of a path from a root to a leaf, root first. -/
structure RootToLeaf (path : List SessionEntry) : Prop where
  nodup : (ids path).Nodup
  id_ne : ∀ e ∈ path, e.id ≠ ""
  links : path.IsChain Links
  root : ∀ x ∈ path.head?, ∀ p ∈ x.parentId, p ≠ "" → p ∉ ids path

namespace RootToLeaf

variable {path rest : List SessionEntry}

/-- The walk from the last entry is the whole path. -/
theorem lineage (h : RootToLeaf path) {x : SessionEntry} (hx : path.getLast? = some x) :
    Lineage (parentEntry (indexById path)) x path :=
  (lineage_iff_links h.nodup h.id_ne (List.Subset.refl _)).mpr ⟨hx, h.root, h.links⟩

theorem context (h : RootToLeaf path) (getTime : String → ℤ) (hne : path ≠ []) :
    buildSessionContext getTime path none (indexById path) = some (contextOfPath getTime path) := by
  have hx := List.getLast?_eq_some_getLast hne
  have hp := pathToRoot_eq_some_iff.mpr (h.lineage hx)
  simp only [buildSessionContext, contextLeaf, Option.join_none, Option.bind_none, hx, hp, Option.map_some]

theorem of_append (h : RootToLeaf (path ++ rest)) : RootToLeaf path := by
  have hn := h.nodup
  rw [ids_append] at hn
  refine ⟨(List.nodup_append.mp hn).1, fun e he => h.id_ne e (List.mem_append_left _ he), h.links.left_of_append, ?_⟩
  intro x hx p hp hp0 hm
  refine h.root x ?_ p hp hp0 (by rw [ids_append]; exact List.mem_append_left _ hm)
  rw [List.head?_append, Option.mem_def.mp hx, Option.some_or]
  rfl

end RootToLeaf

/-- The branch of an entry of a sound manager is such a path. -/
theorem Sound.rootToLeaf {m : SessionManager} (h : Sound m) {e : SessionEntry} {path : List SessionEntry}
    (hp : Lineage (parentEntry (indexById m.entries)) e path) (hsub : path ⊆ m.entries) : RootToLeaf path := by
  obtain ⟨-, hroot, hlinks⟩ := (lineage_iff_links h.grown.nodup h.grown.id_ne hsub).mp hp
  refine ⟨nodup_ids_of_subset h.grown.nodup hsub hp.nodup, fun x hx => h.grown.id_ne x (hsub hx), hlinks, ?_⟩
  intro x hx p hp hp0 hm
  obtain ⟨y, hy, rfl⟩ := List.mem_map.mp hm
  exact hroot x hx _ hp hp0 (mem_ids_of_mem (hsub hy))

/-! ### The last compaction -/

theorem lastCompaction_snoc (path : List SessionEntry) (e : SessionEntry) :
    lastCompaction (path ++ [e]) = if e.isCompaction then some e else lastCompaction path := by
  simp [lastCompaction]

theorem lastCompaction_append_of_none {path post : List SessionEntry}
    (h : ∀ x ∈ post, x.isCompaction = false) : lastCompaction (path ++ post) = lastCompaction path := by
  induction post using List.reverseRecOn with
  | nil => simp
  | append_singleton post x ih =>
    rw [← List.append_assoc, lastCompaction_snoc, h x (by simp)]
    exact ih fun y hy => h y (by simp [hy])

theorem lastCompaction_cut (pre post : List SessionEntry) {c : SessionEntry} (hc : c.isCompaction = true)
    (h : ∀ x ∈ post, x.isCompaction = false) : lastCompaction (pre ++ c :: post) = some c := by
  have : pre ++ c :: post = (pre ++ [c]) ++ post := by simp
  rw [this, lastCompaction_append_of_none h, lastCompaction_snoc, if_pos hc]

/-- The loop ends with the last compaction of the path, if there is one. -/
theorem lastCompaction_cases (path : List SessionEntry) :
    (lastCompaction path = none ∧ ∀ x ∈ path, x.isCompaction = false) ∨
      ∃ pre c post, path = pre ++ c :: post ∧ c.isCompaction = true ∧
        (∀ x ∈ post, x.isCompaction = false) ∧ lastCompaction path = some c := by
  induction path using List.reverseRecOn with
  | nil => exact Or.inl ⟨rfl, by simp⟩
  | append_singleton path e ih =>
    by_cases he : e.isCompaction = true
    · exact Or.inr ⟨path, e, [], rfl, he, by simp, by rw [lastCompaction_snoc, if_pos he]⟩
    · rw [lastCompaction_snoc, if_neg he]
      have he := Bool.eq_false_iff.mpr he
      rcases ih with ⟨h0, h1⟩ | ⟨pre, c, post, rfl, hc, hpost, hl⟩
      · refine Or.inl ⟨h0, fun x hx => ?_⟩
        rcases List.mem_append.mp hx with hx | hx
        · exact h1 x hx
        · rw [List.mem_singleton.mp hx]; exact he
      · refine Or.inr ⟨pre, c, post ++ [e], by simp, hc, fun x hx => ?_, hl⟩
        rcases List.mem_append.mp hx with hx | hx
        · exact hpost x hx
        · rw [List.mem_singleton.mp hx]; exact he

/-- The cut of a path at its last compaction is the only one. -/
theorem lastCut_unique {pre pre' post post' : List SessionEntry} {c c' : SessionEntry}
    (h : pre ++ c :: post = pre' ++ c' :: post') (hc : c.isCompaction = true) (hc' : c'.isCompaction = true)
    (hpost : ∀ x ∈ post, x.isCompaction = false) (hpost' : ∀ x ∈ post', x.isCompaction = false) :
    pre = pre' ∧ c = c' ∧ post = post' := by
  rcases List.append_eq_append_iff.mp h with ⟨t, rfl, ht⟩ | ⟨t, rfl, ht⟩
  · cases t with
    | nil => simpa using ht
    | cons y t =>
      rw [List.cons_append, List.cons.injEq] at ht
      have := hpost c' (ht.2 ▸ by simp)
      rw [hc'] at this; cases this
  · cases t with
    | nil => simpa [eq_comm] using ht
    | cons y t =>
      rw [List.cons_append, List.cons.injEq] at ht
      have := hpost' c (ht.2 ▸ by simp)
      rw [hc] at this; cases this

/-- The search for the compaction by id stops at it. -/
theorem findIdx_compaction {pre post : List SessionEntry} {c : SessionEntry} (hc : c.isCompaction = true)
    (hn : (ids (pre ++ c :: post)).Nodup) :
    (pre ++ c :: post).findIdx (fun e => e.isCompaction && decide (e.id = c.id)) = pre.length := by
  have hpre : ∀ x ∈ pre, (x.isCompaction && decide (x.id = c.id)) = false := by
    intro x hx
    rw [ids_append, List.nodup_append] at hn
    have hne : x.id ≠ c.id := hn.2.2 _ (mem_ids_of_mem hx) _ (by simp)
    simp [hne]
  rw [List.findIdx_append, List.findIdx_eq_length_of_false hpre, if_neg (lt_irrefl _), List.findIdx_cons]
  simp [hc]

/-- The entries from the one with a given id on. -/
theorem keptFrom_eq_drop : ∀ {path : List SessionEntry} {k : ℕ} {e : SessionEntry}, (ids path).Nodup →
    path[k]? = some e → keptFrom e.id path = path.drop k
  | [], _, _, _, h => by simp at h
  | x :: path, 0, e, _, h => by
    rw [List.getElem?_cons_zero, Option.some.injEq] at h
    simp [keptFrom, h]
  | x :: path, k + 1, e, hn, h => by
    rw [List.getElem?_cons_succ] at h
    rw [ids_cons, List.nodup_cons] at hn
    have hx : x.id ≠ e.id := fun h0 => hn.1 (h0 ▸ mem_ids_of_mem (List.mem_of_getElem? h))
    have hstep : keptFrom e.id (x :: path) = keptFrom e.id path := by simp [keptFrom, hx]
    rw [hstep, List.drop_succ_cons, keptFrom_eq_drop hn.2 h]

theorem keptFrom_eq_nil {first : String} {path : List SessionEntry} (h : first ∉ ids path) :
    keptFrom first path = [] := by
  refine List.dropWhile_eq_nil_iff.mpr fun x hx => ?_
  have : x.id ≠ first := fun h0 => h (h0 ▸ mem_ids_of_mem hx)
  simpa using this

section

variable (getTime : String → ℤ)

/-- The messages some entries add to a context. -/
def entryMessages (es : List SessionEntry) : List AgentMessage := es.filterMap (contextMessage getTime)

@[simp] theorem entryMessages_nil : entryMessages getTime [] = [] := rfl

@[simp] theorem entryMessages_append (a b : List SessionEntry) :
    entryMessages getTime (a ++ b) = entryMessages getTime a ++ entryMessages getTime b :=
  List.filterMap_append

theorem contextMessages_of_none {path : List SessionEntry} (h : lastCompaction path = none) :
    contextMessages getTime path = entryMessages getTime path := by
  rw [contextMessages, h]
  rfl

/-- The messages of a path cut at its last compaction: the summary, the entries
kept of those before it, and those after it. -/
theorem contextMessages_cut {pre post : List SessionEntry} {c : SessionEntry}
    {summary firstKeptEntryId : String} {tokensBefore : ℕ} {details : Option Json} {fromHook : Option Bool}
    {index : Option ℕ}
    (hb : c.body = .compaction summary firstKeptEntryId tokensBefore details fromHook index)
    (hpost : ∀ x ∈ post, x.isCompaction = false) (hn : (ids (pre ++ c :: post)).Nodup) :
    contextMessages getTime (pre ++ c :: post) =
      createCompactionSummaryMessage getTime summary tokensBefore c.timestamp ::
        (entryMessages getTime (keptFrom firstKeptEntryId pre) ++ entryMessages getTime post) := by
  have hc : c.isCompaction = true := by rw [SessionEntry.isCompaction, hb]
  rw [contextMessages, lastCompaction_cut pre post hc hpost]
  simp only [hb]
  rw [findIdx_compaction hc hn, List.take_left, ← List.drop_drop, List.drop_left]
  rfl

/-! ### Labels add nothing to a context -/

theorem contextMessage_of_isLabel {e : SessionEntry} (h : e.isLabel = true) : contextMessage getTime e = none := by
  cases hb : e.body <;> simp_all [SessionEntry.isLabel, contextMessage]

end

/-- A fold does not see the entries it leaves alone. -/
theorem foldl_filter_of_fixed {α β : Type*} (f : β → α → β) (p : α → Bool)
    (h : ∀ a b, p a = false → f b a = b) : ∀ (l : List α) (b : β), (l.filter p).foldl f b = l.foldl f b
  | [], _ => rfl
  | a :: l, b => by
    cases hp : p a with
    | true => simp [hp, foldl_filter_of_fixed f p h l]
    | false => simp [hp, foldl_filter_of_fixed f p h l, h a b hp]

theorem thinkingLevelOf_withoutLabels (path : List SessionEntry) :
    thinkingLevelOf (World.withoutLabels path) = thinkingLevelOf path := by
  refine foldl_filter_of_fixed _ _ (fun e t he => ?_) path "off"
  cases hb : e.body <;> simp_all [SessionEntry.isLabel]

theorem modelOf_withoutLabels (path : List SessionEntry) :
    modelOf (World.withoutLabels path) = modelOf path := by
  refine foldl_filter_of_fixed _ _ (fun e m he => ?_) path none
  cases hb : e.body <;> simp_all [SessionEntry.isLabel]

theorem lastCompaction_withoutLabels (path : List SessionEntry) :
    lastCompaction (World.withoutLabels path) = lastCompaction path := by
  refine foldl_filter_of_fixed _ _ (fun e c he => ?_) path none
  cases hb : e.body <;> simp_all [SessionEntry.isLabel, SessionEntry.isCompaction]

theorem entryMessages_withoutLabels (getTime : String → ℤ) (es : List SessionEntry) :
    entryMessages getTime (World.withoutLabels es) = entryMessages getTime es := by
  rw [entryMessages, entryMessages, World.withoutLabels, List.filterMap_filter]
  refine List.filterMap_congr fun e _ => ?_
  by_cases he : e.isLabel = true
  · simp [he, contextMessage_of_isLabel getTime he]
  · simp [he]

end Trek
