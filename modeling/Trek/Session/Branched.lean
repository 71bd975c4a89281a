/-
# What a branched session keeps of the conversation

`createBranchedSession(e)` takes the path to `e`, drops its label entries and
appends new ones for the labels of the entries it kept. An entry that stood
under a dropped label still names it as its parent, so the path of the new
session ends there: the conversation is kept exactly when the labels of the
path stand outside of it (`createBranchedSession_keeps_iff`).
-/
import Trek.Session.Context

namespace Trek

open World

/-! ### Where the labels of a path stand -/

@[simp] theorem withoutLabels_append (a b : List SessionEntry) :
    withoutLabels (a ++ b) = withoutLabels a ++ withoutLabels b := List.filter_append _ _

theorem withoutLabels_eq_nil {es : List SessionEntry} (h : ∀ e ∈ es, e.isLabel = true) : withoutLabels es = [] :=
  List.filter_eq_nil_iff.mpr fun e he => by simp [h e he]

theorem withoutLabels_eq_self {es : List SessionEntry} (h : ∀ e ∈ es, e.isLabel = false) : withoutLabels es = es :=
  List.filter_eq_self.mpr fun e he => by simp [h e he]

theorem mem_withoutLabels {es : List SessionEntry} {e : SessionEntry} :
    e ∈ withoutLabels es ↔ e ∈ es ∧ e.isLabel = false := by
  simp [withoutLabels]

/-- No label entry stands between two entries that are not labels: after the
labels the path starts with and the entries that follow them there are only
labels. -/
def noInnerLabel (path : List SessionEntry) : Bool :=
  ((path.dropWhile (·.isLabel)).dropWhile (!·.isLabel)).all (·.isLabel)

/-- Such a path: labels, entries that are none, labels. -/
theorem noInnerLabel_split {path : List SessionEntry} (h : noInnerLabel path = true) :
    ∃ lead trail, path = lead ++ withoutLabels path ++ trail ∧ (∀ e ∈ lead, e.isLabel = true) ∧
      ∀ e ∈ trail, e.isLabel = true := by
  set lead := path.takeWhile (·.isLabel) with hlead
  set rest := path.dropWhile (·.isLabel) with hrest
  have hpath : path = lead ++ (rest.takeWhile (!·.isLabel) ++ rest.dropWhile (!·.isLabel)) := by
    rw [List.takeWhile_append_dropWhile, hlead, hrest, List.takeWhile_append_dropWhile]
  have hl : ∀ e ∈ lead, e.isLabel = true := fun e he => List.mem_takeWhile_imp (p := SessionEntry.isLabel) he
  have hc : ∀ e ∈ rest.takeWhile (!·.isLabel), e.isLabel = false := by
    intro e he
    have := List.mem_takeWhile_imp he
    simpa using this
  have ht : ∀ e ∈ rest.dropWhile (!·.isLabel), e.isLabel = true := List.all_eq_true.mp h
  have hw : withoutLabels path = rest.takeWhile (!·.isLabel) := by
    rw [hpath, withoutLabels_append, withoutLabels_append, withoutLabels_eq_nil hl, withoutLabels_eq_self hc,
      withoutLabels_eq_nil ht, List.nil_append, List.append_nil]
  refine ⟨lead, rest.dropWhile (!·.isLabel), ?_, hl, ht⟩
  rw [hw, List.append_assoc]
  exact hpath

/-- Once the entries that are no labels link to one another there is no label
between them: the one after it would have two parents. -/
theorem noInnerLabel_after : ∀ (x : SessionEntry) (rest : List SessionEntry), (ids (x :: rest)).Nodup →
    (x :: rest).IsChain Links → (x :: withoutLabels rest).IsChain Links →
    (rest.dropWhile (!·.isLabel)).all (·.isLabel) = true
  | _, [], _, _, _ => by simp
  | x, y :: rest, hn, hp, hw => by
    rw [ids_cons, List.nodup_cons] at hn
    rw [List.isChain_cons_cons] at hp
    by_cases hy : y.isLabel = true
    · have hrest : withoutLabels rest = [] := by
        by_contra hne
        obtain ⟨z, zs, hz⟩ := List.exists_cons_of_ne_nil hne
        have hwy : withoutLabels (y :: rest) = z :: zs := by
          rw [← hz]; simp [withoutLabels, hy]
        rw [hwy, List.isChain_cons_cons] at hw
        have hzrest : z ∈ rest := (mem_withoutLabels.mp (hz ▸ List.mem_cons_self)).1
        obtain ⟨a, b, hab⟩ := List.append_of_mem hzrest
        -- the entry before `z` on the path
        obtain ⟨c, u, hcu⟩ : ∃ c u, y :: a = c ++ [u] :=
          ⟨_, _, (List.dropLast_append_getLast (List.cons_ne_nil y a)).symm⟩
        have huz : Links u z := by
          have hch : (c ++ [u] ++ z :: b).IsChain Links := by
            rw [← hcu, List.cons_append, ← hab]; exact hp.2
          exact (List.isChain_append.mp hch).2.2 u (by simp) z (by simp)
        have hux : u.id = x.id := Option.some.inj (huz.symm.trans hw.1)
        have hu : u ∈ y :: rest := by
          rw [hab, ← List.cons_append, hcu]; simp
        exact hn.1 (hux ▸ mem_ids_of_mem hu)
      have hall : ∀ e ∈ y :: rest, e.isLabel = true := by
        intro e he
        rcases List.mem_cons.mp he with rfl | he
        · exact hy
        · by_contra h0
          have : e ∈ withoutLabels rest := mem_withoutLabels.mpr ⟨he, Bool.eq_false_iff.mpr h0⟩
          rw [hrest] at this
          cases this
      have hdrop : (y :: rest).dropWhile (!·.isLabel) = y :: rest := by simp [hy]
      rw [hdrop]
      exact List.all_eq_true.mpr hall
    · have hyf := Bool.eq_false_iff.mpr hy
      have hwy : withoutLabels (y :: rest) = y :: withoutLabels rest := by simp [withoutLabels, hyf]
      rw [hwy, List.isChain_cons_cons] at hw
      have hdrop : (y :: rest).dropWhile (!·.isLabel) = rest.dropWhile (!·.isLabel) := by simp [hyf]
      rw [hdrop]
      exact noInnerLabel_after y rest hn.2 hp.2 hw.2

theorem noInnerLabel_of_links : ∀ (path : List SessionEntry), (ids path).Nodup → path.IsChain Links →
    (withoutLabels path).IsChain Links → noInnerLabel path = true
  | [], _, _, _ => rfl
  | x :: rest, hn, hp, hw => by
    by_cases hx : x.isLabel = true
    · have hstep : noInnerLabel (x :: rest) = noInnerLabel rest := by simp [noInnerLabel, hx]
      have hwx : withoutLabels (x :: rest) = withoutLabels rest := by simp [withoutLabels, hx]
      rw [hstep]
      exact noInnerLabel_of_links rest (List.nodup_cons.mp hn).2 hp.tail (hwx ▸ hw)
    · have hxf := Bool.eq_false_iff.mpr hx
      have hstep : noInnerLabel (x :: rest) = (rest.dropWhile (!·.isLabel)).all (·.isLabel) := by
        simp [noInnerLabel, hxf]
      have hwx : withoutLabels (x :: rest) = x :: withoutLabels rest := by simp [withoutLabels, hxf]
      rw [hstep]
      exact noInnerLabel_after x rest hn hp (hwx ▸ hw)

/-- **The entries of a path that are no labels link to one another exactly when
there is no label between them.** -/
theorem noInnerLabel_iff_links {path : List SessionEntry} (hn : (ids path).Nodup) (hp : path.IsChain Links) :
    noInnerLabel path = true ↔ (withoutLabels path).IsChain Links := by
  refine ⟨fun h => ?_, noInnerLabel_of_links path hn hp⟩
  obtain ⟨lead, trail, hpath, -, -⟩ := noInnerLabel_split h
  exact hp.infix ⟨lead, trail, hpath.symm⟩

/-! ### What the compaction of a path keeps -/

/-- If the last compaction keeps the path from a label entry on, nothing
between that label and the compaction carries a message. -/
def KeepsFromNoLabel (getTime : String → ℤ) (path : List SessionEntry) : Prop :=
  ∀ (pre : List SessionEntry) (c : SessionEntry) post, path = pre ++ c :: post → (∀ x ∈ post, x.isCompaction = false) →
    ∀ summary first tokens details hook index, c.body = EntryBody.compaction summary first tokens details hook index →
      ∀ l ∈ (keptFrom first pre).head?, l.isLabel = true → entryMessages getTime (keptFrom first pre) = []

/-- Dropping the labels first: it keeps the same entries, unless it is to start
at a label. -/
theorem keptFrom_withoutLabels (first : String) : ∀ {pre : List SessionEntry}, (ids pre).Nodup →
    keptFrom first (withoutLabels pre) =
      match (keptFrom first pre).head? with
      | none => []
      | some l => if l.isLabel then [] else withoutLabels (keptFrom first pre)
  | [], _ => rfl
  | x :: pre, hn => by
    rw [ids_cons, List.nodup_cons] at hn
    by_cases hx : x.id = first
    · have hk : keptFrom first (x :: pre) = x :: pre := by simp [keptFrom, hx]
      rw [hk, List.head?_cons]
      by_cases hl : x.isLabel = true
      · have hw : withoutLabels (x :: pre) = withoutLabels pre := by simp [withoutLabels, hl]
        simp only [hw, hl, ↓reduceIte]
        refine List.dropWhile_eq_nil_iff.mpr fun y hy => ?_
        have hy : y.id ∈ ids pre := mem_ids_of_mem (mem_withoutLabels.mp hy).1
        have hne : y.id ≠ first := fun h0 => hn.1 (hx.trans h0.symm ▸ hy)
        simpa using hne
      · have hw : withoutLabels (x :: pre) = x :: withoutLabels pre := by simp [withoutLabels, hl]
        simp only [hw, hl, Bool.false_eq_true, ↓reduceIte]
        simp [keptFrom, hx]
    · have hk : keptFrom first (x :: pre) = keptFrom first pre := by simp [keptFrom, hx]
      rw [hk, ← keptFrom_withoutLabels first hn.2]
      by_cases hl : x.isLabel = true
      · have hw : withoutLabels (x :: pre) = withoutLabels pre := by simp [withoutLabels, hl]
        rw [hw]
      · have hw : withoutLabels (x :: pre) = x :: withoutLabels pre := by simp [withoutLabels, hl]
        rw [hw]
        simp [keptFrom, hx]

/-- Labels after the path change no message. -/
theorem contextMessages_append_labels (getTime : String → ℤ) {path labels : List SessionEntry}
    (hn : (ids (path ++ labels)).Nodup) (hl : ∀ e ∈ labels, e.isLabel = true) :
    contextMessages getTime (path ++ labels) = contextMessages getTime path := by
  have hnc : ∀ e ∈ labels, e.isCompaction = false := by
    intro e he
    have := hl e he
    cases hb : e.body <;> simp_all [SessionEntry.isLabel, SessionEntry.isCompaction]
  have hm : entryMessages getTime labels = [] := by
    rw [← entryMessages_withoutLabels, withoutLabels_eq_nil hl, entryMessages_nil]
  rcases lastCompaction_cases path with ⟨h0, -⟩ | ⟨pre, c, post, rfl, hc, hpost, -⟩
  · rw [contextMessages_of_none getTime h0, contextMessages_of_none getTime
      ((lastCompaction_append_of_none hnc).trans h0), entryMessages_append, hm, List.append_nil]
  · obtain ⟨s, f, t, de, ho, i, hb⟩ := SessionEntry.isCompaction_iff.mp hc
    rw [List.append_assoc, List.cons_append] at hn ⊢
    have hnl : (ids (pre ++ c :: post)).Nodup := by
      rw [← List.cons_append, ← List.append_assoc, ids_append] at hn
      exact (List.nodup_append.mp hn).1
    rw [contextMessages_cut getTime hb hpost hnl, contextMessages_cut getTime hb ?_ hn, entryMessages_append, hm,
      List.append_nil]
    intro x hx
    rcases List.mem_append.mp hx with hx | hx
    · exact hpost x hx
    · exact hnc x hx

/-- **The messages of a path without its labels are the messages of the path
exactly when its compaction does not keep it from a label on.** -/
theorem contextMessages_withoutLabels_iff (getTime : String → ℤ) {path : List SessionEntry} (hn : (ids path).Nodup) :
    contextMessages getTime (withoutLabels path) = contextMessages getTime path ↔ KeepsFromNoLabel getTime path := by
  rcases lastCompaction_cases path with ⟨h0, hnc⟩ | ⟨pre, c, post, rfl, hc, hpost, -⟩
  · rw [contextMessages_of_none getTime h0, contextMessages_of_none getTime
      ((lastCompaction_withoutLabels path).trans h0), entryMessages_withoutLabels]
    refine iff_of_true rfl fun pre c post hp _ s f t de ho i hb => ?_
    have := hnc c (hp ▸ by simp)
    simp [SessionEntry.isCompaction, hb] at this
  · obtain ⟨s, f, t, de, ho, i, hb⟩ := SessionEntry.isCompaction_iff.mp hc
    have hcl : c.isLabel = false := by simp [SessionEntry.isLabel, hb]
    have hw : withoutLabels (pre ++ c :: post) = withoutLabels pre ++ c :: withoutLabels post := by
      simp [withoutLabels, hcl]
    have hnpre : (ids pre).Nodup := by
      rw [ids_append] at hn
      exact (List.nodup_append.mp hn).1
    have hnw : (ids (withoutLabels pre ++ c :: withoutLabels post)).Nodup :=
      hw ▸ hn.sublist (List.filter_sublist.map _)
    rw [hw, contextMessages_cut getTime hb (fun x hx => hpost x (mem_withoutLabels.mp hx).1) hnw,
      contextMessages_cut getTime hb hpost hn, List.cons.injEq, entryMessages_withoutLabels getTime post,
      List.append_left_inj, keptFrom_withoutLabels f hnpre]
    have hkeep : KeepsFromNoLabel getTime (pre ++ c :: post) ↔ ∀ l ∈ (keptFrom f pre).head?, l.isLabel = true →
        entryMessages getTime (keptFrom f pre) = [] := by
      refine ⟨fun h => h pre c post rfl hpost s f t de ho i hb, fun h pre' c' post' hp hpost' => ?_⟩
      intro s' f' t' de' ho' i' hb'
      obtain ⟨rfl, rfl, rfl⟩ := lastCut_unique hp hc (by simp [SessionEntry.isCompaction, hb']) hpost hpost'
      rw [hb] at hb'
      cases hb'
      exact h
    rw [hkeep]
    cases hh : (keptFrom f pre).head? with
    | none => simp [List.head?_eq_none_iff.mp hh]
    | some l =>
      by_cases hl : l.isLabel = true
      · simp only [hl, ↓reduceIte, entryMessages_nil, Option.mem_def, Option.some.injEq, forall_eq', forall_const, true_and]
        exact eq_comm
      · simp [hl, entryMessages_withoutLabels]

/-! ### The entries of the new session -/

/-- The ids that are drawn for the new label entries. -/
def relabelIds (m : SessionManager) (d : Draws) (path : List SessionEntry) : List String :=
  drawnIds d 0 (ids (withoutLabels path)) (labelsToWrite m (ids (withoutLabels path))).length

theorem ids_relabels (m : SessionManager) (d : Draws) (path : List SessionEntry) :
    ids (relabels m d path) = relabelIds m d path := by
  unfold relabels labelEntries relabelIds
  rw [ids_chainEntries, List.length_map]
  rfl

theorem relabels_isLabel {m : SessionManager} {d : Draws} {path : List SessionEntry} :
    ∀ e ∈ relabels m d path, e.isLabel = true := by
  intro e he
  obtain ⟨item, hitem, -, hb⟩ := mem_chainEntries he
  obtain ⟨l, -, rfl⟩ := List.mem_map.mp hitem
  simp [SessionEntry.isLabel, hb]

theorem withoutLabels_branchedEntries (m : SessionManager) (d : Draws) (path : List SessionEntry) :
    withoutLabels (branchedEntries m d path) = withoutLabels path := by
  rw [branchedEntries, withoutLabels_append, withoutLabels_eq_nil relabels_isLabel, List.append_nil]
  exact withoutLabels_eq_self fun e he => (mem_withoutLabels.mp he).2

/-- No entry, no label of an entry. -/
theorem relabels_of_nil {m : SessionManager} {d : Draws} {path : List SessionEntry} (h : withoutLabels path = []) :
    relabels m d path = [] := by
  have hl : labelsToWrite m [] = [] := by simp [labelsToWrite]
  simp only [relabels, h, List.map_nil, hl, labelEntries, chainEntries]

/-- The new label entries hang below the last entry that was kept. -/
theorem relabels_links {m : SessionManager} {d : Draws} {path : List SessionEntry} {x : SessionEntry}
    (hx : (withoutLabels path).getLast? = some x) (hne : x.id ≠ "") : (x :: relabels m d path).IsChain Links := by
  obtain ⟨hhead, hchain⟩ := chainEntries_links (d := d)
    ((labelsToWrite m (ids (withoutLabels path))).map fun l => (l.2.2, EntryBody.label l.1 (some l.2.1))) 0
    (ids (withoutLabels path)) (some x.id)
  have hlast : ((withoutLabels path).getLast?.map (·.id)).filter truthy = some x.id := by
    simp [hx, truthy, hne]
  rw [List.isChain_cons]
  unfold relabels labelEntries
  dsimp only
  rw [hlast]
  exact ⟨hhead, hchain⟩

section

variable {m : SessionManager} {d : Draws} {path : List SessionEntry} (hg : Grown m.entries)
  (hd : UuidsUnused d (ids m.entries) m.labelsById.size) (hsub : path ⊆ m.entries) (hpn : path.Nodup)

include hg hd hsub hpn in
theorem branchedEntries_nodup : (ids (branchedEntries m d path)).Nodup := by
  rw [branchedEntries, ids_append]
  have hlen : (labelsToWrite m (ids (withoutLabels path))).length ≤ m.labelsById.size := List.length_filterMap_le _ _
  refine chainEntries_nodup hd.distinct _ _ _ _ _ ?_ ?_ (fun s => Iff.rfl) fun i _ h hi => hd.unused i h ?_
  · rw [List.length_map, Nat.zero_add]
    exact hlen
  · exact (nodup_ids_of_subset hg.nodup hsub hpn).sublist (List.filter_sublist.map _)
  · obtain ⟨e, he, hid⟩ := List.mem_map.mp hi
    exact hid ▸ mem_ids_of_mem (hsub (mem_withoutLabels.mp he).1)

include hg hsub in
theorem branchedEntries_id_ne : ∀ e ∈ branchedEntries m d path, e.id ≠ "" := by
  intro e he
  rcases List.mem_append.mp he with he | he
  · exact hg.id_ne e (hsub (mem_withoutLabels.mp he).1)
  · exact chainEntries_id_ne _ _ _ _ e he

end

/-- The state of the manager after `createBranchedSession`. -/
theorem createBranchedSession_spec {w : World} {d : Draws} {e : String} {path : List SessionEntry}
    (h : w.manager.getBranch (some e) = some path) (hne : path ≠ []) :
    ∃ w', w.createBranchedSession d e = some (w', none) ∧
      w'.manager.entries = branchedEntries w.manager d path ∧
      w'.manager.byId = indexById (branchedEntries w.manager d path) ∧
      w'.manager.leafId = (branchedEntries w.manager d path).getLast?.map (·.id) := by
  have hentries (h : SessionHeader) (es : List SessionEntry) (m : SessionManager)
      (hm : m.fileEntries = .session h :: es.map .entry) : m.entries = es := by
    rw [SessionManager.entries, hm, sessionEntries_session, sessionEntries_map]
  obtain ⟨x, xs, rfl⟩ := List.exists_cons_of_ne_nil hne
  unfold createBranchedSession
  simp only [h]
  have key : ∀ m : SessionManager, ∀ hdr : SessionHeader,
      m.fileEntries = .session hdr :: (branchedEntries w.manager d (x :: xs)).map .entry →
      m.buildIndex.entries = branchedEntries w.manager d (x :: xs) ∧
      m.buildIndex.byId = indexById (branchedEntries w.manager d (x :: xs)) ∧
      m.buildIndex.leafId = (branchedEntries w.manager d (x :: xs)).getLast?.map (·.id) := by
    intro m hdr hm
    obtain ⟨h1, h2, h3⟩ := buildIndex_spec m
    rw [hentries _ _ m hm] at h1 h2 h3
    exact ⟨h1, h2, h3⟩
  split
  · split
    · refine ⟨_, rfl, ?_⟩
      unfold rewriteFile SessionManager.closeAppendFd SessionManager.entries
      dsimp only
      repeat' split
      all_goals exact key _ _ rfl
    · exact ⟨_, rfl, key _ _ rfl⟩
  · exact ⟨_, rfl, key _ _ rfl⟩

/-! ### What is kept -/

/-- The new session has the context of `e` in the old one, and the path from
its leaf runs through the same entries, label entries apart, to the same root. -/
def KeepsConversation (getTime : String → ℤ) (before : SessionManager) (e : String) (after : SessionManager) : Prop :=
  (after.context getTime).isSome = true ∧
    after.context getTime = buildSessionContext getTime before.entries (some (some e)) before.byId ∧
    (after.getBranch none).map withoutLabels = (before.getBranch (some e)).map withoutLabels

/-- No new label entry has the id that the first entry of the path that is no
label has for its parent. -/
def RelabelsApart (m : SessionManager) (d : Draws) (path : List SessionEntry) : Prop :=
  ∀ x ∈ (withoutLabels path).head?, ∀ p ∈ x.parentId, p ∉ relabelIds m d path

/-- The parent of the first entry that is no label is not kept: it is a label,
or there is none. -/
theorem parent_of_head_withoutLabels {es path : List SessionEntry} {e : SessionEntry} (hn : (ids es).Nodup)
    (hne : ∀ x ∈ es, x.id ≠ "") (hsub : path ⊆ es) (hp : Lineage (parentEntry (indexById es)) e path) :
    ∀ x ∈ (withoutLabels path).head?, ∀ q ∈ x.parentId, q ≠ "" → q ∉ ids (withoutLabels path) := by
  intro x hx q hq hq0 hmem
  obtain ⟨-, hroot, hchain⟩ := (lineage_iff_links hn hne hsub).mp hp
  obtain ⟨y, hy, rfl⟩ := List.mem_map.mp hmem
  obtain ⟨t, ht⟩ : ∃ t, withoutLabels path = x :: t := List.head?_eq_some_iff.mp hx
  -- what stands before `x` on the path is labels
  obtain ⟨lead, tail, rfl, hlead, -⟩ := List.filter_eq_cons_iff.mp ht
  have hyp := mem_withoutLabels.mp hy
  rcases List.eq_nil_or_concat lead with rfl | ⟨lead, z, rfl⟩
  · exact hroot x (by simp) _ hq hq0 (mem_ids_of_mem (hsub hyp.1))
  · have hzx : Links z x := (List.isChain_append.mp hchain).2.2 z (by simp) x (by simp)
    have hyz : y.id = z.id := Option.some.inj (hq.symm.trans hzx)
    have hz : z ∈ es := hsub (by simp)
    have : y = z := List.inj_on_of_nodup_map hn (hsub hyp.1) hz hyz
    have := hlead z (by simp)
    simp_all

section

variable {m : SessionManager} {d : Draws} {e : SessionEntry} {path : List SessionEntry} (hs : Sound m)
  (hd : UuidsUnused d (ids m.entries) m.labelsById.size) (hsub : path ⊆ m.entries)
  (hp : Lineage (parentEntry (indexById m.entries)) e path)

include hs hd hsub hp

/-- If the entries that are kept link to one another, they and the new labels
are the path of the new session. -/
theorem lineage_branchedEntries (hlinks : (withoutLabels path).IsChain Links) (hapart : RelabelsApart m d path)
    {x : SessionEntry} (hx : (branchedEntries m d path).getLast? = some x) :
    Lineage (parentEntry (indexById (branchedEntries m d path))) x (branchedEntries m d path) := by
  have hn := branchedEntries_nodup hs.grown hd hsub hp.nodup
  have hne := branchedEntries_id_ne (d := d) hs.grown hsub
  refine (lineage_iff_links hn hne (List.Subset.refl _)).mpr ⟨hx, ?_, ?_⟩
  · intro y hy q hq hq0 hmem
    have hw : withoutLabels path ≠ [] := by
      intro h0
      rw [branchedEntries, relabels_of_nil h0, h0] at hy
      cases hy
    rw [branchedEntries, List.head?_append_of_ne_nil _ hw] at hy
    rw [branchedEntries, ids_append, List.mem_append, ids_relabels] at hmem
    rcases hmem with hmem | hmem
    · exact parent_of_head_withoutLabels hs.grown.nodup hs.grown.id_ne hsub hp y hy q hq hq0 hmem
    · exact hapart y hy q hq hmem
  · rw [branchedEntries, List.isChain_append]
    cases hl : (withoutLabels path).getLast? with
    | none =>
      rw [relabels_of_nil (List.getLast?_eq_none_iff.mp hl)]
      exact ⟨hlinks, List.isChain_nil, by simp⟩
    | some y =>
      have hyid : y.id ≠ "" :=
        hs.grown.id_ne y (hsub (mem_withoutLabels.mp (List.mem_of_getLast? hl)).1)
      have hrel := List.isChain_cons.mp (relabels_links (m := m) (d := d) hl hyid)
      refine ⟨hlinks, hrel.2, fun u hu v hv => ?_⟩
      rw [Option.mem_def, Option.some.injEq] at hu
      exact hu ▸ hrel.1 v hv

/-- If the new session's path runs through the entries that are kept, it is
those and the new labels. -/
theorem eq_branchedEntries_of_lineage {x : SessionEntry} {p : List SessionEntry}
    (hx : (branchedEntries m d path).getLast? = some x)
    (hlin : Lineage (parentEntry (indexById (branchedEntries m d path))) x p)
    (hkeep : withoutLabels p = withoutLabels path) : p = branchedEntries m d path := by
  have hn := branchedEntries_nodup hs.grown hd hsub hp.nodup
  have hne := branchedEntries_id_ne (d := d) hs.grown hsub
  have hpsub := hlin.subset_entries hn (List.mem_of_getLast? hx)
  have hw : withoutLabels path ≠ [] := by
    intro h0
    rw [branchedEntries, relabels_of_nil h0, h0] at hx
    cases hx
  obtain ⟨y, hy⟩ : ∃ y, (withoutLabels path).getLast? = some y := ⟨_, List.getLast?_eq_some_getLast hw⟩
  have hymem : y ∈ branchedEntries m d path := List.mem_append_left _ (List.mem_of_getLast? hy)
  have hchain : (y :: relabels m d path).IsChain
      fun a b => parentEntry (indexById (branchedEntries m d path)) b = some a := by
    refine (List.IsChain.iff_of_mem_imp fun a b ha _ => ?_).mpr (relabels_links hy (hne y hymem))
    have ha' : a ∈ branchedEntries m d path := by
      rcases List.mem_cons.mp ha with rfl | ha
      · exact hymem
      · exact List.mem_append_right _ ha
    rw [parentEntry_eq_some hn]
    exact ⟨fun h => h.1, fun h => ⟨h, hne a ha', ha'⟩⟩
  have hlast : (y :: relabels m d path).getLast? = some x := by
    rw [branchedEntries, List.getLast?_append, hy] at hx
    rw [List.getLast?_cons]
    cases hr : (relabels m d path).getLast? <;> simp_all
  obtain ⟨r, hr, rfl⟩ := Lineage.split hchain hlast hlin
  -- no label of `r` is one of the new ones, and the kept entries have none
  have hrl : ∀ z ∈ r, z.isLabel = false := by
    intro z hz
    by_contra h0
    rcases List.mem_append.mp (hpsub (List.mem_append_left _ hz)) with h1 | h1
    · exact h0 (mem_withoutLabels.mp h1).2
    · exact List.disjoint_of_nodup_append hlin.nodup hz h1
  rw [withoutLabels_append, withoutLabels_eq_self hrl, withoutLabels_eq_nil relabels_isLabel, List.append_nil] at hkeep
  rw [hkeep, branchedEntries]

/-- Through the kept entries and the new labels the context is the old one
exactly when the compaction does not keep it from a label on. -/
theorem contextOfPath_branchedEntries (getTime : String → ℤ) :
    contextOfPath getTime (branchedEntries m d path) = contextOfPath getTime path ↔
      KeepsFromNoLabel getTime path := by
  have hn := branchedEntries_nodup hs.grown hd hsub hp.nodup
  have ht : thinkingLevelOf (branchedEntries m d path) = thinkingLevelOf path := by
    rw [← thinkingLevelOf_withoutLabels, withoutLabels_branchedEntries, thinkingLevelOf_withoutLabels]
  have hm : modelOf (branchedEntries m d path) = modelOf path := by
    rw [← modelOf_withoutLabels, withoutLabels_branchedEntries, modelOf_withoutLabels]
  have hc : contextMessages getTime (branchedEntries m d path) = contextMessages getTime (withoutLabels path) :=
    contextMessages_append_labels getTime hn relabels_isLabel
  rw [contextOfPath, contextOfPath, ht, hm, hc, SessionContext.mk.injEq,
    contextMessages_withoutLabels_iff getTime (nodup_ids_of_subset hs.grown.nodup hsub hp.nodup)]
  simp

end

/-- **A branched session keeps the conversation exactly when no label stands
between two entries of the path, its compaction keeps nothing from a label on,
and no new label entry takes the id of a label that was dropped.** -/
theorem createBranchedSession_keeps_iff (getTime : String → ℤ) {w : World} (h : TreeReach w) {e : SessionEntry}
    (he : e ∈ w.manager.entries) {d : Draws} (hd : UuidsUnused d (ids w.manager.entries) w.manager.labelsById.size) :
    ∃ w' path, w.createBranchedSession d e.id = some (w', none) ∧
      w.manager.getBranch (some e.id) = some path ∧
      (KeepsConversation getTime w.manager e.id w'.manager ↔
        noInnerLabel path = true ∧ KeepsFromNoLabel getTime path ∧ RelabelsApart w.manager d path) := by
  have hs := h.sound
  obtain ⟨path, hbranch, hp, hsub⟩ := hs.getBranch_eq he
  obtain ⟨w', hw', hent, hby, hleaf⟩ := createBranchedSession_spec (d := d) hbranch hp.ne_nil
  refine ⟨w', path, hw', hbranch, ?_⟩
  have hold : buildSessionContext getTime w.manager.entries (some (some e.id)) w.manager.byId =
      some (contextOfPath getTime path) := by
    rw [hs.indexed]
    exact buildSessionContext_of_lineage getTime hs.grown.nodup he (hs.grown.id_ne e he) hp
  have hnp := nodup_ids_of_subset hs.grown.nodup hsub hp.nodup
  obtain ⟨-, hroot, hlinks⟩ := (lineage_iff_links hs.grown.nodup hs.grown.id_ne hsub).mp hp
  rw [KeepsConversation, hold, hbranch, noInnerLabel_iff_links hnp hlinks]
  cases hx : (branchedEntries w.manager d path).getLast? with
  | none =>
    -- the path is labels only, and so nothing is kept and nothing is lost
    have hw0 : withoutLabels path = [] := by
      have := List.getLast?_eq_none_iff.mp hx
      rw [branchedEntries] at this
      exact (List.append_eq_nil_iff.mp this).1
    have hctx := (contextOfPath_branchedEntries hs hd hsub hp getTime)
    have hnil : branchedEntries w.manager d path = [] := List.getLast?_eq_none_iff.mp hx
    rw [hnil] at hctx
    have hafter : w'.manager.context getTime = some (contextOfPath getTime []) := by
      simp only [SessionManager.context, hleaf, hx, Option.map_none]
      rfl
    have hb : w'.manager.getBranch none = some [] := by
      simp [SessionManager.getBranch, hleaf, hx]
    simp only [hafter, hb, Option.isSome_some, Option.some.injEq, hctx, Option.map_some, hw0, true_and]
    have : RelabelsApart w.manager d path := by simp [RelabelsApart, hw0]
    simp [this, withoutLabels]
  | some x =>
    have hn := branchedEntries_nodup hs.grown hd hsub hp.nodup
    have hne := branchedEntries_id_ne (d := d) hs.grown hsub
    have hxm := List.mem_of_getLast? hx
    obtain ⟨hafter, hb⟩ := context_of_indexed getTime hby (by rw [hleaf, hx]; rfl) hn hxm (hne x hxm)
    rw [hafter, hb]
    constructor
    · rintro ⟨hsome, hctx, hkeep⟩
      obtain ⟨p, hlin⟩ := Option.isSome_iff_exists.mp (by simpa using hsome)
      rw [hlin, Option.map_some, Option.map_some, Option.some.injEq] at hkeep
      rw [hlin, Option.map_some, Option.some.injEq] at hctx
      have hlin := pathToRoot_eq_some_iff.mp hlin
      have hpN := eq_branchedEntries_of_lineage hs hd hsub hp hx hlin hkeep
      rw [hpN] at hctx hlin
      obtain ⟨-, hroot', hlinks'⟩ := (lineage_iff_links hn hne (List.Subset.refl _)).mp hlin
      refine ⟨?_, (contextOfPath_branchedEntries hs hd hsub hp getTime).mp hctx, ?_⟩
      · rw [branchedEntries] at hlinks'
        exact hlinks'.left_of_append
      · intro y hy q hq hmem
        rw [← ids_relabels] at hmem
        have hqN : q ∈ ids (branchedEntries w.manager d path) := by
          rw [branchedEntries, ids_append]
          exact List.mem_append_right _ hmem
        have hq0 : q ≠ "" := by
          obtain ⟨z, hz, rfl⟩ := List.mem_map.mp hqN
          exact hne z hz
        refine hroot' y ?_ q hq hq0 hqN
        rw [branchedEntries, List.head?_append, Option.mem_def.mp hy, Option.some_or]
        rfl
    · rintro ⟨hl, hk, ha⟩
      have hlin := lineage_branchedEntries hs hd hsub hp hl ha hx
      rw [pathToRoot_eq_some_iff.mpr hlin]
      refine ⟨rfl, ?_, ?_⟩
      · rw [Option.map_some, (contextOfPath_branchedEntries hs hd hsub hp getTime).mpr hk]
      · rw [Option.map_some, Option.map_some, withoutLabels_branchedEntries]

/-! ### A label between two messages -/

/-- A user message, its label, and the next message under the label. -/
def labelledWorld : World :=
  [('a', .appendMessage (.user (.text "first") 1)), ('b', .appendLabelChange "aaaaaaaa" (some "start")),
    ('c', TreeOp.appendMessage (.user (.text "second") 2))].foldl (fun w (c, op) => (op.step w (sameDraws c)).1)
      (World.create (sameDraws '0') (fun _ => none) "/work" "/sessions" false)

theorem labelledWorld_reach : TreeReach labelledWorld := by
  refine .step (sameDraws 'c') _ (.step (sameDraws 'b') _ (.step (sameDraws 'a') _ (.create _ _ _ _ _) ?_) ?_) ?_
  all_goals exact sameDraws_unused (by decide)

/-- **A session is a tree in every run.** Its ids are pairwise different, the leaf is one of its entries, and the branch of
every entry leads along the parents from a root to it. -/
theorem TreeReach.branches {w : World} (h : TreeReach w) : (ids w.manager.entries).Nodup ∧
    (∀ l ∈ w.manager.leafId, l ∈ ids w.manager.entries) ∧ ∀ e ∈ w.manager.entries, ∃ path,
      w.manager.getBranch (some e.id) = some path ∧ RootToLeaf path ∧ path.getLast? = some e ∧ path ⊆ w.manager.entries := by
  have hsound := h.sound
  refine ⟨hsound.grown.nodup, hsound.leaf, fun e he => ?_⟩
  obtain ⟨path, hbranch, hpath, hsub⟩ := hsound.getBranch_eq he
  exact ⟨path, hbranch, hsound.rootToLeaf hpath hsub, hpath.getLast?, hsub⟩

theorem branches_labelledWorld : (ids labelledWorld.manager.entries).Nodup := (TreeReach.branches labelledWorld_reach).1

/-- The entry of its second message. -/
def labelledLeaf : SessionEntry :=
  ⟨"cccccccc", some "bbbbbbbb", "2025-01-01T00:00:00.000Z", .message (.user (.text "second") 2)⟩

theorem labelledLeaf_mem : labelledLeaf ∈ labelledWorld.manager.entries := by decide

/-- The branch at the second message forgets the first. -/
theorem createBranchedSession_loses : ¬ ∀ (getTime : String → ℤ) (w : World), TreeReach w → ∀ e ∈ w.manager.entries,
    ∀ d, UuidsUnused d (ids w.manager.entries) w.manager.labelsById.size →
      ∀ w', w.createBranchedSession d e.id = some (w', none) →
        w'.manager.context getTime =
          buildSessionContext getTime w.manager.entries (some (some e.id)) w.manager.byId := by
  intro h
  have hctx : ∀ w', labelledWorld.createBranchedSession (sameDraws 'd') labelledLeaf.id = some (w', none) →
      w'.manager.context (fun _ => 0) = some ⟨[.user (.text "first") 1, .user (.text "second") 2], "off", none⟩ := by
    intro w' hw'
    rw [h (fun _ => 0) labelledWorld labelledWorld_reach labelledLeaf labelledLeaf_mem (sameDraws 'd')
      (sameDraws_unused (by decide)) w' hw']
    decide
  have hbranched : ((labelledWorld.createBranchedSession (sameDraws 'd') labelledLeaf.id).bind fun r =>
      if r.2.isNone then r.1.manager.context fun _ => 0 else none) = some ⟨[.user (.text "second") 2], "off", none⟩ := by
    decide
  obtain ⟨⟨w', err⟩, hw', hc⟩ := Option.bind_eq_some_iff.mp hbranched
  cases err with
  | some err => simp at hc
  | none =>
    rw [Option.isNone_none, if_pos rfl, hctx w' hw'] at hc
    revert hc
    decide

theorem createBranchedSession_keeps_iff_labelled : ∃ w' path,
    labelledWorld.createBranchedSession (sameDraws 'd') labelledLeaf.id = some (w', none) ∧
      labelledWorld.manager.getBranch (some labelledLeaf.id) = some path ∧
      (KeepsConversation (fun _ => 0) labelledWorld.manager labelledLeaf.id w'.manager ↔
        noInnerLabel path = true ∧ KeepsFromNoLabel (fun _ => 0) path ∧
          RelabelsApart labelledWorld.manager (sameDraws 'd') path) :=
  createBranchedSession_keeps_iff (fun _ => 0) labelledWorld_reach labelledLeaf_mem (sameDraws_unused (by decide))

end Trek
