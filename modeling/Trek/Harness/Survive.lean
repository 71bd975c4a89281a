/-
# When the session tree survives

Appends that run at once keep the tree, with all of them on the path to its leaf,
exactly when each of them writes under the leaf of that moment an id that no entry
has. An append that is overtaken between its read of the leaf and its write forks
the tree: what overtook it and what it writes are on different branches, and no
path has both.
-/
import Trek.Harness.Appends

namespace Trek

open SessionWorld

section

variable {ops : List AppendOp} {w : SessionWorld} {n : ℕ} {e l x : TreeEntry} {i : ℕ}

/-! ### What holds while ids are not taken -/

/-- Every operation appends an id that is not taken. -/
def NoneTaken (ops : List AppendOp) (w : SessionWorld) (t : List (ℕ × AppendStep)) : Prop :=
  ∀ t₁ i t₂, t = t₁ ++ (i, AppendStep.appendEntry) :: t₂ → ∀ e, (w.run ops t₁).pending ops i = some e →
    (w.run ops t₁).storage.byId.has e.id = false

theorem NoneTaken.snoc {t : List (ℕ × AppendStep)} {y : ℕ × AppendStep} (h : NoneTaken ops w (t ++ [y])) :
    NoneTaken ops w t ∧ ∀ e, y.2 = .appendEntry → (w.run ops t).pending ops y.1 = some e →
      (w.run ops t).storage.byId.has e.id = false := by
  refine ⟨fun t₁ i t₂ ht => h t₁ i (t₂ ++ [y]) (by rw [ht]; simp), fun e hy => ?_⟩
  exact h t y.1 [] (by rw [← hy]) e

/-- The operation read the leaf, or has been overtaken since: the leaf is an appended
entry that is not above the one it read. -/
def Overtaken (n : ℕ) (s : TreeStorage) (parentId : Option String) : Prop :=
  parentId = s.leafId ∨ ∃ l ∈ s.entries.drop n, s.leafId = some l.id ∧
    ∀ e ∈ s.entries, parentId = some e.id → ∀ p, Lineage (parentInTree s.byId) e p → l ∉ p

/-- The storage is a tree, and what the operations have got fits it. `n` entries were
there at the beginning. -/
structure TreeWorld (n : ℕ) (w : SessionWorld) : Prop where
  sound : w.storage.Sound
  length : n ≤ w.storage.entries.length
  ids : ∀ i id, (w.calls i).id = some id → id ≠ ""
  parents : ∀ i k, (w.calls i).parentId = some (some k) → ∃ e ∈ w.storage.entries, e.id = k
  reads : ∀ i parentId, (w.calls i).parentId = some parentId → Overtaken n w.storage parentId

/-- The pending entry goes under an entry that is there. -/
theorem TreeWorld.pending (h : TreeWorld n w) (hx : w.pending ops i = some x) :
    x.id ≠ "" ∧ (∀ k, x.parentKey = some k → ∃ e ∈ w.storage.entries, e.id = k) ∧
      leafIdAfterEntry x = some x.id := by
  obtain ⟨hid, hparent, hleaf⟩ := pending_eq_some hx
  refine ⟨h.ids i _ hid, fun k hk => ?_, hleaf⟩
  obtain ⟨hk, -⟩ := Option.filter_eq_some_iff.mp hk
  exact h.parents i k (by rw [hparent, hk])

/-- An entry is in front of all others for whoever has read the leaf before. -/
theorem Overtaken.appendEntry {s : TreeStorage} (h : s.Sound) (hn : n ≤ s.entries.length)
    (hx : s.byId.has x.id = false) (hleaf : leafIdAfterEntry x = some x.id) {parentId : Option String}
    (hparent : ∀ k, parentId = some k → ∃ e ∈ s.entries, e.id = k) : Overtaken n (s.appendEntry x) parentId := by
  refine Or.inr ⟨x, ?_, hleaf, fun e he hek p hp hxp => ?_⟩
  · change x ∈ (s.entries ++ [x]).drop n
    rw [List.drop_append_of_le_length hn]
    exact List.mem_append_right _ (List.mem_singleton.mpr rfl)
  · obtain ⟨y, hy, hye⟩ := hparent e.id hek
    have hex : e ∈ s.entries := by
      rcases List.mem_append.mp he with he | he
      · exact he
      · rw [List.mem_singleton] at he
        subst he
        rw [h.has_iff.mpr ⟨y, hy, hye⟩] at hx
        cases hx
    obtain ⟨q, hq⟩ := h.rooted e hex
    rw [hp.unique (h.lineage_appendEntry hx hq hex)] at hxp
    rw [h.has_iff.mpr ⟨x, h.subset hq hex hxp, rfl⟩] at hx
    cases hx

theorem TreeWorld.step (h : TreeWorld n w) (y : ℕ × AppendStep)
    (hfresh : ∀ e, y.2 = .appendEntry → w.pending ops y.1 = some e → w.storage.byId.has e.id = false) :
    TreeWorld n (w.step ops y) := by
  rcases step_cases ops w y with ⟨hstorage, hcalls, -⟩ | ⟨x, hy, hx, hstorage, hcalls⟩
  · refine ⟨by rw [hstorage]; exact h.sound, by rw [hstorage]; exact h.length, fun i id hid => ?_,
      fun i k hk => ?_, fun i parentId hk => ?_⟩
    · rcases (hcalls i).1 with hsame | ⟨id', hid', hne⟩
      · exact h.ids i id (hsame ▸ hid)
      · rw [hid', Option.some.injEq] at hid
        exact hid ▸ hne
    · rw [hstorage]
      rcases (hcalls i).2 with hsame | hread
      · exact h.parents i k (hsame ▸ hk)
      · rw [hread, Option.some.injEq] at hk
        exact h.sound.leaf k hk
    · rw [hstorage]
      rcases (hcalls i).2 with hsame | hread
      · exact h.reads i parentId (hsame ▸ hk)
      · rw [hread, Option.some.injEq] at hk
        exact Or.inl hk.symm
  · have hnew := hfresh x hy hx
    obtain ⟨hne, hparent, hleaf⟩ := h.pending hx
    have hsub : ∀ e ∈ w.storage.entries, e ∈ (w.storage.appendEntry x).entries := fun e he =>
      List.mem_append_left _ he
    refine ⟨by rw [hstorage]; exact h.sound.appendEntry hnew hne hparent hleaf, ?_, fun i id hid => ?_,
      fun i k hk => ?_, fun i parentId hk => ?_⟩
    · rw [hstorage]
      have := h.length
      simp only [TreeStorage.appendEntry, List.length_append, List.length_singleton]
      omega
    · exact h.ids i id (hcalls ▸ hid)
    · rw [hstorage]
      obtain ⟨e, he, hek⟩ := h.parents i k (hcalls ▸ hk)
      exact ⟨e, hsub e he, hek⟩
    · rw [hstorage]
      refine Overtaken.appendEntry h.sound h.length hnew hleaf fun k hk' => ?_
      exact h.parents i k (by rw [← hcalls, hk, hk'])

theorem treeWorld_start {s : TreeStorage} (h : s.Sound) (uuids : UuidState) :
    TreeWorld s.entries.length (start s uuids) :=
  ⟨h, le_rfl, fun _ _ hid => (nomatch hid), fun _ _ hk => (nomatch hk), fun _ _ hk => (nomatch hk)⟩

theorem TreeWorld.run (h : TreeWorld n w) (t : List (ℕ × AppendStep)) (hfresh : NoneTaken ops w t) :
    TreeWorld n (w.run ops t) := by
  induction t using List.reverseRecOn with
  | nil => exact h
  | append_singleton t y ih =>
    obtain ⟨ht, hy⟩ := hfresh.snoc
    rw [run_snoc]
    exact (ih ht).step y hy

/-! ### All on one path -/

/-- The entries from the `n`-th on are on the path to the leaf. -/
def OnPath (n : ℕ) (s : TreeStorage) : Prop :=
  s.entries.drop n = [] ∨ ∃ l ∈ s.entries, s.leafId = some l.id ∧ ∃ p, Lineage (parentInTree s.byId) l p ∧
    s.entries.drop n ⊆ p

theorem OnPath.appendEntry {s : TreeStorage} (h : s.Sound) (hn : n ≤ s.entries.length) (hpath : OnPath n s)
    (hx : s.byId.has x.id = false) (hleaf : leafIdAfterEntry x = some x.id) (hparent : x.parentId = s.leafId) :
    OnPath n (s.appendEntry x) := by
  have hkey : ∀ k, x.parentKey = some k → ∃ e ∈ s.entries, e.id = k := fun k hk => by
    obtain ⟨hk, -⟩ := Option.filter_eq_some_iff.mp hk
    exact h.leaf k (hparent ▸ hk)
  have hdrop : (s.appendEntry x).entries.drop n = s.entries.drop n ++ [x] :=
    List.drop_append_of_le_length hn
  refine Or.inr ⟨x, List.mem_append_right _ (List.mem_singleton.mpr rfl), hleaf, ?_⟩
  rw [hdrop]
  have hpar : ∀ l ∈ s.entries, s.leafId = some l.id → x.parentKey = some l.id := fun l hl hlid => by
    rw [TreeEntry.parentKey, hparent, hlid]
    exact Option.filter_eq_some_iff.mpr ⟨rfl, by simp [h.named l hl]⟩
  rcases h.lineage_new hx hkey with ⟨hroot, hp⟩ | ⟨e, he, hek, p, hp, hxp⟩
  · refine ⟨_, hp, ?_⟩
    rcases hpath with hnil | ⟨l, hl, hlid, -⟩
    · rw [hnil]
      exact fun y hy => hy
    · rw [hpar l hl hlid] at hroot
      cases hroot
  · refine ⟨_, hxp, ?_⟩
    rcases hpath with hnil | ⟨l, hl, hlid, q, hq, hsub⟩
    · rw [hnil]
      exact fun y hy => List.mem_append_right _ hy
    · have hel : l = e := by
        rw [hpar l hl hlid, Option.some.injEq] at hek
        exact List.inj_on_of_nodup_map h.ids hl he hek
      subst hel
      rw [hq.unique hp] at hsub
      exact List.append_subset.mpr ⟨fun y hy => List.mem_append_left _ (hsub hy), List.subset_append_right _ _⟩

/-- Undisputed appends stay on the path to the leaf. -/
theorem onPath_run (h : TreeWorld n w) (hpath : OnPath n w.storage) (t : List (ℕ × AppendStep))
    (hund : Undisputed ops w t) : OnPath n (w.run ops t).storage := by
  induction t using List.reverseRecOn with
  | nil => exact hpath
  | append_singleton t y ih =>
    have ht : Undisputed ops w t := fun t₁ i t₂ heq => hund t₁ i (t₂ ++ [y]) (by rw [heq]; simp)
    have hworld := h.run t fun t₁ i t₂ heq e he => (ht t₁ i t₂ heq e he).1
    rw [run_snoc]
    rcases step_cases ops (w.run ops t) y with ⟨hstorage, -, -⟩ | ⟨x, hy, hx, hstorage, -⟩
    · rw [hstorage]
      exact ih ht
    · obtain ⟨hnew, hparent⟩ := hund t y.1 [] (by rw [← hy]) x hx
      rw [hstorage]
      exact (ih ht).appendEntry hworld.sound hworld.length hnew (hworld.pending hx).2.2 hparent

/-! ### Two branches -/

/-- Two appended entries, neither above the other. -/
def Forked (n : ℕ) (s : TreeStorage) : Prop :=
  ∃ l ∈ s.entries.drop n, ∃ e ∈ s.entries.drop n, ∃ p q, Lineage (parentInTree s.byId) l p ∧
    Lineage (parentInTree s.byId) e q ∧ l ∉ q ∧ e ∉ p

theorem Forked.appendEntry {s : TreeStorage} (h : s.Sound) (hn : n ≤ s.entries.length) (hfork : Forked n s)
    (hx : s.byId.has x.id = false) : Forked n (s.appendEntry x) := by
  obtain ⟨l, hl, e, he, p, q, hp, hq, hlq, hep⟩ := hfork
  have hsub : ∀ y ∈ s.entries.drop n, y ∈ (s.appendEntry x).entries.drop n := fun y hy => by
    change y ∈ (s.entries ++ [x]).drop n
    rw [List.drop_append_of_le_length hn]
    exact List.mem_append_left _ hy
  exact ⟨l, hsub l hl, e, hsub e he, p, q, h.lineage_appendEntry hx hp (List.mem_of_mem_drop hl),
    h.lineage_appendEntry hx hq (List.mem_of_mem_drop he), hlq, hep⟩

/-- An overtaken append forks the tree. -/
theorem forked_appendEntry {s : TreeStorage} (h : s.Sound) (hn : n ≤ s.entries.length)
    (hx : s.byId.has x.id = false) (hparent : ∀ k, x.parentKey = some k → ∃ e ∈ s.entries, e.id = k)
    (hover : Overtaken n s x.parentId) (hstale : x.parentId ≠ s.leafId) : Forked n (s.appendEntry x) := by
  obtain ⟨l, hl, -, hoff⟩ := hover.resolve_left hstale
  have hls : l ∈ s.entries := List.mem_of_mem_drop hl
  obtain ⟨p, hp⟩ := h.rooted l hls
  have hxs : ∀ y ∈ s.entries, y ≠ x := fun y hy hyx => by
    rw [h.has_iff.mpr ⟨y, hy, by rw [hyx]⟩] at hx
    cases hx
  have hdrop : (s.appendEntry x).entries.drop n = s.entries.drop n ++ [x] :=
    List.drop_append_of_le_length hn
  obtain ⟨q, hq, hlq⟩ : ∃ q, Lineage (parentInTree (s.appendEntry x).byId) x q ∧ l ∉ q := by
    rcases h.lineage_new hx hparent with ⟨-, hq⟩ | ⟨e, he, hek, r, hr, hq⟩
    · exact ⟨_, hq, fun hlx => hxs l hls (List.mem_singleton.mp hlx)⟩
    · refine ⟨_, hq, fun hlx => ?_⟩
      rcases List.mem_append.mp hlx with hlr | hlx
      · exact hoff e he (Option.filter_eq_some_iff.mp hek).1 r hr hlr
      · exact hxs l hls (List.mem_singleton.mp hlx)
  refine ⟨l, by rw [hdrop]; exact List.mem_append_left _ hl, x, by rw [hdrop]; simp, p, q,
    h.lineage_appendEntry hx hp hls, hq, hlq, fun hxp => ?_⟩
  exact hxs x (h.subset hp hls hxp) rfl

theorem forked_run (h : TreeWorld n w) (hfork : Forked n w.storage) (t : List (ℕ × AppendStep))
    (hfresh : NoneTaken ops w t) : Forked n (w.run ops t).storage := by
  induction t using List.reverseRecOn with
  | nil => exact hfork
  | append_singleton t y ih =>
    obtain ⟨ht, hy⟩ := hfresh.snoc
    have hworld := h.run t ht
    rw [run_snoc]
    rcases step_cases ops (w.run ops t) y with ⟨hstorage, -, -⟩ | ⟨x, hyx, hx, hstorage, -⟩
    · rw [hstorage]
      exact ih ht
    · rw [hstorage]
      exact (ih ht).appendEntry hworld.sound hworld.length (hy x hyx hx)

/-- A path has no two branches. -/
theorem Forked.not_path {s : TreeStorage} (hfork : Forked n s) {leafId : Option String} {path : List TreeEntry}
    (hpath : s.getPathToRoot leafId = some (.ok path)) : ¬ ∀ e ∈ s.entries.drop n, e ∈ path := by
  intro hall
  obtain ⟨l, hl, e, he, p, q, hp, hq, hlq, hep⟩ := hfork
  obtain ⟨leaf, hleaf⟩ : ∃ leaf, Lineage (parentInTree s.byId) leaf path := by
    unfold TreeStorage.getPathToRoot at hpath
    split at hpath
    · simp only [Option.some.injEq, Except.ok.injEq] at hpath
      have := hall l hl
      rw [← hpath] at this
      cases this
    · split at hpath
      · cases hpath
      · obtain ⟨r, hr, rfl⟩ := pathLoop_ok hpath
        exact ⟨_, by rw [List.append_nil]; exact hr⟩
  obtain ⟨p', hp', hpp⟩ := hleaf.prefix_of_mem l (hall l hl)
  obtain ⟨q', hq', hqp⟩ := hleaf.prefix_of_mem e (hall e he)
  rw [hp'.unique hp] at hpp
  rw [hq'.unique hq] at hqp
  rcases List.prefix_or_prefix_of_prefix hpp hqp with hpq | hqp
  · exact hlq (hpq.subset hp.mem)
  · exact hep (hqp.subset hq.mem)

/-! ### Ids -/

/-- Entries are never removed, and the index has no other ids. -/
theorem entries_run (ops : List AppendOp) (w : SessionWorld) (t : List (ℕ × AppendStep)) :
    w.storage.entries <+: (w.run ops t).storage.entries := by
  induction t using List.reverseRecOn with
  | nil => exact List.prefix_refl _
  | append_singleton t y ih =>
    rw [run_snoc]
    rcases step_cases ops (w.run ops t) y with ⟨hstorage, -, -⟩ | ⟨x, -, -, hstorage, -⟩
    · rw [hstorage]
      exact ih
    · rw [hstorage]
      exact ih.trans (List.prefix_append _ _)

theorem has_run (hinit : ∀ id, w.storage.byId.has id = true → ∃ e ∈ w.storage.entries, e.id = id)
    (t : List (ℕ × AppendStep)) :
    ∀ id, (w.run ops t).storage.byId.has id = true → ∃ e ∈ (w.run ops t).storage.entries, e.id = id := by
  induction t using List.reverseRecOn with
  | nil => exact hinit
  | append_singleton t y ih =>
    intro id hid
    rw [run_snoc] at hid ⊢
    rcases step_cases ops (w.run ops t) y with ⟨hstorage, -, -⟩ | ⟨x, -, -, hstorage, -⟩
    · rw [hstorage] at hid ⊢
      exact ih id hid
    · rw [hstorage] at hid ⊢
      by_cases hx : id = x.id
      · exact ⟨x, List.mem_append_right _ (List.mem_singleton.mpr rfl), hx.symm⟩
      · rw [TreeStorage.appendEntry, OrdMap.has, OrdMap.get?_set_ne _ _ hx] at hid
        obtain ⟨e, he, hek⟩ := ih id hid
        exact ⟨e, List.mem_append_left _ he, hek⟩

/-- Where all ids are different in the end, none was taken. -/
theorem noneTaken_of_nodup (hinit : ∀ id, w.storage.byId.has id = true → ∃ e ∈ w.storage.entries, e.id = id)
    {t : List (ℕ × AppendStep)} (hids : ((w.run ops t).storage.entries.map TreeEntry.id).Nodup) :
    NoneTaken ops w t := by
  intro t₁ i t₂ ht x hx
  by_contra htaken
  rw [Bool.not_eq_false] at htaken
  obtain ⟨e, he, hek⟩ := has_run hinit t₁ x.id htaken
  have hpre : (w.run ops t₁).storage.entries ++ [x] <+: (w.run ops t).storage.entries := by
    rw [ht, run_append_cons]
    have := entries_run ops ((w.run ops t₁).step ops (i, .appendEntry)) t₂
    rwa [step_commit hx] at this
  have hnodup := hids.sublist (hpre.sublist.map _)
  rw [List.map_append, List.nodup_append] at hnodup
  exact hnodup.2.2 _ (List.mem_map_of_mem he) _ (by simp) hek

end

/-! ### The theorem -/

/-- Any steps of the operations. -/
theorem survives_run_iff {ops : List AppendOp} {s : TreeStorage} (hs : s.Sound) (uuids : UuidState)
    (t : List (ℕ × AppendStep)) :
    Survives s ((start s uuids).run ops t).storage ↔ Undisputed ops (start s uuids) t := by
  have hworld := treeWorld_start hs uuids
  constructor
  · intro h
    have hfresh : NoneTaken ops (start s uuids) t :=
      noneTaken_of_nodup (fun id hid => hs.has_iff.mp hid) h.ids
    intro t₁ i t₂ ht x hx
    have hnew := hfresh t₁ i t₂ ht x hx
    refine ⟨hnew, ?_⟩
    by_contra hstale
    have hfresh₁ : NoneTaken ops (start s uuids) t₁ := fun a j b hab => by
      refine hfresh a j (b ++ (i, .appendEntry) :: t₂) ?_
      rw [ht, hab]
      simp
    have hworld₁ := hworld.run t₁ hfresh₁
    obtain ⟨-, hparent, -⟩ := hworld₁.pending hx
    have hfork : Forked s.entries.length (((start s uuids).run ops t₁).step ops (i, .appendEntry)).storage := by
      rw [step_commit hx]
      exact forked_appendEntry hworld₁.sound hworld₁.length hnew hparent
        (hworld₁.reads i _ (pending_eq_some hx).2.1) hstale
    obtain ⟨path, hpath, hall⟩ := h.path
    rw [ht, run_append_cons] at hpath hall
    refine (forked_run (hworld₁.step _ fun e _ he => ?_) hfork t₂ fun a j b hab e he => ?_).not_path hpath hall
    · rw [hx, Option.some.injEq] at he
      exact he ▸ hnew
    · rw [← run_append_cons] at he ⊢
      exact hfresh (t₁ ++ (i, .appendEntry) :: a) j b (by rw [ht, hab]; simp) e he
  · intro hund
    have hfinal := hworld.run t fun t₁ i t₂ ht e he => (hund t₁ i t₂ ht e he).1
    have hpath := onPath_run hworld (Or.inl List.drop_length) t hund
    have hsound := hfinal.sound
    refine ⟨hsound.ids, fun e he => ?_, ?_⟩
    · obtain ⟨p, hp⟩ := hsound.rooted e he
      exact hp.not_ancestor_self
    · rcases hpath with hnil | ⟨l, hl, hlid, p, hp, hsub⟩
      · rw [hnil]
        cases hleaf : ((start s uuids).run ops t).storage.leafId with
        | none => exact ⟨[], rfl, fun _ h => (nomatch h)⟩
        | some id =>
          obtain ⟨e, he, rfl⟩ := hsound.leaf id hleaf
          obtain ⟨p, hp⟩ := hsound.rooted e he
          exact ⟨p, hsound.getPathToRoot he hp, fun _ h => (nomatch h)⟩
      · rw [hlid]
        exact ⟨p, hsound.getPathToRoot hl hp, hsub⟩

/-- **The session tree survives appends made at once exactly when each of them writes
under the leaf of that moment, an id that is not taken**: then ids stay different,
nothing is above itself, and the path from the leaf to the root has all new
entries. -/
theorem appendAll_survives_iff (kind : StorageKind) (schedule : List ℕ) (ops : List AppendOp) (s : TreeStorage)
    (uuids : UuidState) (hs : s.Sound) :
    Survives s (appendAll kind schedule ops s uuids) ↔
      Undisputed ops (start s uuids) (appendTrace kind schedule ops) :=
  survives_run_iff hs uuids _

/-- A session named, in a new session. -/
theorem appendAll_survives_iff_new :
    (TreeStorage.ofEntries []).Sound ∧
      (Survives (.ofEntries []) (appendAll .jsonl [0]
        [⟨.sessionName "a", "", fun _ => ⟨0, fun _ => 0⟩, false⟩] (.ofEntries []) .initial) ↔
        Undisputed [⟨.sessionName "a", "", fun _ => ⟨0, fun _ => 0⟩, false⟩] (start (.ofEntries []) .initial)
          (appendTrace .jsonl [0] [⟨.sessionName "a", "", fun _ => ⟨0, fun _ => 0⟩, false⟩])) :=
  ⟨sound_empty, appendAll_survives_iff _ _ _ _ _ sound_empty⟩

/-- Two entries appended in the same instant get the same id: each looks for it before
the other is there. -/
theorem appendAll_takes_id :
    ¬ Survives (.ofEntries []) (appendAll .memory [0, 1]
      [⟨.sessionName "a", "", fun _ => ⟨0, fun _ => 0⟩, false⟩,
        ⟨.sessionName "b", "", fun _ => ⟨0, fun _ => 0⟩, false⟩] (.ofEntries []) .initial) := by
  intro h
  exact absurd h.ids (by decide +kernel)

end Trek
