/-
# The entries a branch summary is about

When a session goes from one leaf to another entry, `collectEntriesForBranchSummary`
(`core/compaction/branch-summarization.ts`, and the same in `packages/agent/src/harness/compaction`)
collects the entries that are left behind. It takes the last entry of the path to the target that is on
the path to the old leaf, and walks from the old leaf back to it. In a tree these are the entries of the
old path after the deepest entry that both paths have (`collectEntriesForBranchSummary_abandoned`).
-/
import Trek.Harness.Storage
import Trek.Session.Context

namespace Trek

/-! ### The code -/

/-- `CollectEntriesResult`. -/
structure CollectEntriesResult (ε : Type*) where
  entries : List ε
  commonAncestorId : Option String
  deriving DecidableEq

section

variable {ε : Type*} (key : ε → String) (parentId : ε → Option String) (getEntry : String → Option ε)

/-- The loop over `targetPath`, from its end. -/
def deepestCommon (oldPath targetPath : List ε) : Option ε :=
  targetPath.reverse.find? fun e => oldPath.any fun o => decide (key o = key e)

/-- The loop from the old leaf back, with the entries in chronological order, and the id it stopped at if there
is no entry of it. `none` if it has not ended after that many entries. -/
def collectBack (commonAncestorId : Option String) : ℕ → Option String → List ε → Option (List ε × Option String)
  | 0, _, _ => none
  | n + 1, current, entries =>
    match current.filter truthy with
    | none => some (entries, none)
    | some id =>
      if some id = commonAncestorId then some (entries, none)
      else
        match getEntry id with
        | none => some (entries, some id)
        | some entry => collectBack commonAncestorId n (parentId entry) (entry :: entries)

end

/-- `collectEntriesForBranchSummary` of the coding agent. The loop visits entries of `byId`, so one that has not
ended after `byId.size + 1` of them never ends; it is `none` then. -/
def SessionManager.collectEntriesForBranchSummary (session : SessionManager) (oldLeafId : Option String)
    (targetId : String) : Option (CollectEntriesResult SessionEntry) :=
  match oldLeafId.filter truthy with
  | none => some ⟨[], none⟩
  | some oldLeafId => do
    let oldPath ← session.getBranch (some oldLeafId)
    let targetPath ← session.getBranch (some targetId)
    let commonAncestorId := (deepestCommon (·.id) oldPath targetPath).map (·.id)
    let (entries, _) ← collectBack (·.parentId) session.byId.get? commonAncestorId (session.byId.size + 2)
      (some oldLeafId) []
    some ⟨entries, commonAncestorId⟩

/-- `collectEntriesForBranchSummary` of the harness: a missing entry is an error. -/
def TreeStorage.collectEntriesForBranchSummary (session : TreeStorage) (oldLeafId : Option String)
    (targetId : String) : Option (Except SessionError (CollectEntriesResult TreeEntry)) :=
  match oldLeafId.filter truthy with
  | none => some (.ok ⟨[], none⟩)
  | some oldLeafId => do
    match ← session.getPathToRoot (some oldLeafId), ← session.getPathToRoot (some targetId) with
    | .error e, _ | _, .error e => some (.error e)
    | .ok oldPath, .ok targetPath =>
      let commonAncestorId := (deepestCommon (·.id) oldPath targetPath).map (·.id)
      match ← collectBack (·.parentId) session.byId.get? commonAncestorId (session.byId.size + 2) (some oldLeafId) [] with
      | (_, some missing) => some (.error ⟨.invalidSession, "Entry " ++ missing ++ " not found"⟩)
      | (entries, none) => some (.ok ⟨entries, commonAncestorId⟩)

/-! ### The walk back -/

/-- The entries of the old path after the deepest entry that is on both paths, and the id of that entry. -/
def IsAbandoned {ε : Type*} (key : ε → String) (oldPath targetPath : List ε) (result : CollectEntriesResult ε) : Prop :=
  match result.commonAncestorId with
  | none => result.entries = oldPath ∧ ∀ x ∈ oldPath, x ∉ targetPath
  | some id => ∃ before ancestor, oldPath = before ++ ancestor :: result.entries ∧ key ancestor = id ∧
      ancestor ∈ targetPath ∧ ∀ x ∈ result.entries, x ∉ targetPath

section

variable {ε : Type*} {key : ε → String} {parentId : ε → Option String} {getEntry : String → Option ε}
  {commonAncestorId : Option String}

/-- The walk back over entries that link to one another, none of which it stops at. -/
theorem collectBack_chain {x : ε} : ∀ (rest : List ε) {last : ε} (n : ℕ) (acc : List ε),
    (x :: rest).getLast? = some last → (x :: rest).IsChain (fun u v => parentId v = some (key u)) →
    (∀ y ∈ rest, key y ≠ "" ∧ getEntry (key y) = some y ∧ some (key y) ≠ commonAncestorId) →
    collectBack parentId getEntry commonAncestorId (n + rest.length) (some (key last)) acc =
      collectBack parentId getEntry commonAncestorId n (some (key x)) (rest ++ acc) := by
  intro rest
  induction rest using List.reverseRecOn with
  | nil =>
    intro last n acc hlast _ _
    rw [← Option.some.inj hlast]
    rfl
  | append_singleton rest y ih =>
    intro last n acc hlast hchain hkeys
    rw [← List.cons_append, List.getLast?_append, List.getLast?_singleton, Option.some_or, Option.some.injEq] at hlast
    rw [← List.cons_append, List.isChain_append] at hchain
    obtain ⟨prev, hprev⟩ : ∃ prev, (x :: rest).getLast? = some prev := ⟨_, List.getLast?_cons⟩
    have hparent : parentId y = some (key prev) := hchain.2.2 prev hprev y rfl
    obtain ⟨hne, hget, hstop⟩ := hkeys y (by simp)
    have htruthy : (some (key y)).filter truthy = some (key y) := by simp [truthy, hne]
    rw [← hlast, List.length_append, List.length_singleton, ← Nat.add_assoc, collectBack, htruthy]
    simp only [if_neg hstop, hget, hparent]
    rw [ih n (y :: acc) hprev hchain.1 fun z hz => hkeys z (List.mem_append_left _ hz), List.append_assoc,
      List.singleton_append]

variable {parent : ε → Option ε} {oldPath targetPath : List ε} {old target : ε}

/-- What the code makes of the two paths of a tree. -/
theorem collectBack_abandoned (getEntry : String → Option ε) (hold : Lineage parent old oldPath) (htarget : Lineage parent target targetPath)
    (hlink : ∀ x y, parent x = some y → parentId x = some (key y))
    (hroot : ∀ x k, parent x = none → parentId x = some k → k ≠ "" → getEntry k = none)
    (hkey : ∀ x ∈ oldPath, key x ≠ "" ∧ getEntry (key x) = some x) (hsame : ∀ x ∈ targetPath, getEntry (key x) = some x)
    {n : ℕ} (hn : oldPath.length + 1 ≤ n) :
    ∃ entries missing, collectBack parentId getEntry ((deepestCommon key oldPath targetPath).map key) n (some (key old)) [] =
        some (entries, missing) ∧
      (∀ k, missing = some k → ∃ x ∈ oldPath, parent x = none ∧ parentId x = some k ∧ k ≠ "" ∧ getEntry k = none) ∧
      IsAbandoned key oldPath targetPath ⟨entries, (deepestCommon key oldPath targetPath).map key⟩ := by
  have hany : ∀ x ∈ targetPath, (oldPath.any fun o => decide (key o = key x)) = true ↔ x ∈ oldPath := by
    intro x hx
    rw [List.any_eq_true]
    constructor
    · rintro ⟨y, hy, hyx⟩
      have hget := (hkey y hy).2
      rw [of_decide_eq_true hyx, hsame x hx] at hget
      rwa [Option.some.inj hget]
    · exact fun hmem => ⟨x, hmem, by simp⟩
  obtain ⟨hlast, hhead, hchain⟩ := Lineage.iff_chain.mp hold
  have hchain : oldPath.IsChain fun u v => parentId v = some (key u) := hchain.imp fun u v => hlink v u
  cases hcommon : deepestCommon key oldPath targetPath with
  | none =>
    have hdisjoint : ∀ x ∈ oldPath, x ∉ targetPath := by
      intro x hx hxt
      have := List.find?_eq_none.mp hcommon x (List.mem_reverse.mpr hxt)
      exact this ((hany x hxt).mpr hx)
    obtain ⟨root, rest, rfl⟩ := List.exists_cons_of_ne_nil hold.ne_nil
    obtain ⟨m, rfl⟩ : ∃ m, n = m + 2 + rest.length := by
      rw [List.length_cons] at hn
      exact ⟨n - 2 - rest.length, by omega⟩
    obtain ⟨hne, hget⟩ := hkey root List.mem_cons_self
    have htruthy : (some (key root)).filter truthy = some (key root) := by simp [truthy, hne]
    have hstep : collectBack parentId getEntry none (m + 2 + rest.length) (some (key old)) [] =
        collectBack parentId getEntry none (m + 2) (some (key root)) (rest ++ []) :=
      collectBack_chain rest (m + 2) [] hlast hchain fun y hy => by simpa using hkey y (List.mem_cons_of_mem _ hy)
    rw [Option.map_none, hstep, List.append_nil, collectBack, htruthy]
    simp only [reduceCtorEq, if_false, hget]
    rw [collectBack]
    cases hparent : (parentId root).filter truthy with
    | none => exact ⟨root :: rest, none, rfl, fun k hk => (by cases hk), rfl, hdisjoint⟩
    | some k =>
      obtain ⟨hk, htk⟩ := Option.filter_eq_some_iff.mp hparent
      have hnone := hroot root k (hhead root rfl) hk (by simpa [truthy] using htk)
      simp only [reduceCtorEq, if_false, hnone]
      refine ⟨root :: rest, some k, rfl, fun k' hk' => ?_, rfl, hdisjoint⟩
      rw [← Option.some.inj hk']
      exact ⟨root, List.mem_cons_self, hhead root rfl, hk, by simpa [truthy] using htk, hnone⟩
  | some ancestor =>
    obtain ⟨hp, after, before, hsplit, hafter⟩ := List.find?_eq_some_iff_append.mp hcommon
    have htargetPath : targetPath = before.reverse ++ ancestor :: after.reverse := by
      rw [← List.reverse_reverse targetPath, hsplit]
      simp
    have hmem : ancestor ∈ targetPath := by
      rw [htargetPath]
      simp
    have hmemOld := (hany ancestor hmem).mp hp
    obtain ⟨front, rest, rfl, hrest⟩ := hold.split_common htarget htargetPath hmemOld fun x hx hxo => by
      have hno := hafter x (List.mem_reverse.mp hx)
      rw [(hany x (by rw [htargetPath]; simp [List.mem_reverse.mp hx])).mpr hxo] at hno
      cases hno
    have hlast : (ancestor :: rest).getLast? = some old := by
      rwa [List.getLast?_append_of_ne_nil _ (List.cons_ne_nil _ _)] at hlast
    obtain ⟨m, rfl⟩ : ∃ m, n = m + 1 + rest.length := by
      rw [List.length_append, List.length_cons] at hn
      exact ⟨n - 1 - rest.length, by omega⟩
    have hne := (hkey ancestor hmemOld).1
    have htruthy : (some (key ancestor)).filter truthy = some (key ancestor) := by simp [truthy, hne]
    have hstep : collectBack parentId getEntry (some (key ancestor)) (m + 1 + rest.length) (some (key old)) [] =
        collectBack parentId getEntry (some (key ancestor)) (m + 1) (some (key ancestor)) (rest ++ []) := by
      refine collectBack_chain rest (m + 1) [] hlast hchain.right_of_append fun y hy => ?_
      have hyo : y ∈ front ++ ancestor :: rest := by simp [hy]
      refine ⟨(hkey y hyo).1, (hkey y hyo).2, fun heq => ?_⟩
      -- entries of the same id are the same
      have hget := (hkey y hyo).2
      rw [Option.some.inj heq, (hkey ancestor hmemOld).2] at hget
      obtain rfl := Option.some.inj hget
      exact hrest ancestor hy hmem
    rw [Option.map_some, hstep, List.append_nil, collectBack, htruthy]
    simp only [if_true]
    exact ⟨rest, none, rfl, fun k hk => (by cases hk), front, ancestor, rfl, rfl, hmem, hrest⟩

end

/-! ### Trees -/

/-- The manager holds a tree: its entries are kept by their ids, and from every one the parents lead to a root. -/
structure SessionManager.IsTree (m : SessionManager) : Prop where
  named : ∀ id e, m.byId.get? id = some e → e.id = id ∧ id ≠ ""
  rooted : ∀ id e, m.byId.get? id = some e → ∃ path, Lineage (parentEntry m.byId) e path

/-- Every manager of a run does. -/
theorem Sound.isTree {m : SessionManager} (h : Sound m) : m.IsTree := by
  have hget : ∀ {id e}, m.byId.get? id = some e ↔ e ∈ m.entries ∧ e.id = id := by
    intro id e
    rw [h.indexed]
    exact indexById_get? h.grown.nodup
  refine ⟨fun id e he => ?_, fun id e he => ?_⟩
  · obtain ⟨hmem, rfl⟩ := hget.mp he
    exact ⟨rfl, h.grown.id_ne e hmem⟩
  · obtain ⟨path, hpath, -⟩ := h.grown.lineage e (hget.mp he).1
    exact ⟨path, h.indexed ▸ hpath⟩

namespace SessionManager.IsTree

variable {m : SessionManager} {e x y : SessionEntry} {path : List SessionEntry}

theorem get?_of_mem (h : m.IsTree) (he : e ∈ m.byId.values) : m.byId.get? e.id = some e := by
  obtain ⟨id, hid⟩ := OrdMap.mem_values.mp he
  rwa [(h.named id e hid).1]

theorem parentEntry_eq_some (h : m.IsTree) :
    parentEntry m.byId x = some y → x.parentId = some y.id ∧ y ∈ m.byId.values := by
  intro hxy
  unfold parentEntry at hxy
  split at hxy
  · cases hxy
  · rename_i id hid
    split at hxy
    · exact ⟨by rw [hid, (h.named id y hxy).1], OrdMap.get?_mem_values hxy⟩
    · cases hxy

theorem subset (h : m.IsTree) (hp : Lineage (parentEntry m.byId) e path) (he : e ∈ m.byId.values) :
    path ⊆ m.byId.values :=
  hp.subset (fun _ _ _ hy => (h.parentEntry_eq_some hy).2) he

theorem getBranch_eq (h : m.IsTree) (he : m.byId.get? e.id = some e) (hp : Lineage (parentEntry m.byId) e path) :
    m.getBranch (some e.id) = some path := by
  have hid : truthy e.id = true := decide_eq_true (h.named _ e he).2
  simp only [SessionManager.getBranch, Option.some_or, hid, if_true, he]
  exact pathToRoot_eq_some_iff.mpr hp

theorem collectEntriesForBranchSummary_eq (h : m.IsTree) {old target : SessionEntry} {oldPath targetPath : List SessionEntry}
    (hold : m.byId.get? old.id = some old) (htarget : m.byId.get? target.id = some target)
    (hp : Lineage (parentEntry m.byId) old oldPath) (hq : Lineage (parentEntry m.byId) target targetPath) :
    ∃ result, m.collectEntriesForBranchSummary (some old.id) target.id = some result ∧
      IsAbandoned SessionEntry.id oldPath targetPath result := by
  have hget : ∀ {e path}, m.byId.get? e.id = some e → Lineage (parentEntry m.byId) e path → ∀ x ∈ path,
      x.id ≠ "" ∧ m.byId.get? x.id = some x := by
    intro e path he hpath x hx
    have hx := h.get?_of_mem (h.subset hpath (OrdMap.get?_mem_values he) hx)
    exact ⟨(h.named _ x hx).2, hx⟩
  have hlength : oldPath.length + 1 ≤ m.byId.size + 2 := by
    have hle := hp.length_le (fun _ _ _ hy => (h.parentEntry_eq_some hy).2) (OrdMap.get?_mem_values hold)
    rw [OrdMap.values, List.length_map] at hle
    rw [OrdMap.size]
    omega
  have hroot : ∀ x k, parentEntry m.byId x = none → x.parentId = some k → k ≠ "" → m.byId.get? k = none := by
    intro x k hx hk hne
    have htruthy : truthy k = true := decide_eq_true hne
    simpa [parentEntry, hk, htruthy] using hx
  obtain ⟨entries, missing, hcollect, -, habandoned⟩ := collectBack_abandoned m.byId.get? hp hq
    (fun x y hxy => (h.parentEntry_eq_some hxy).1) hroot (hget hold hp) (fun x hx => (hget htarget hq x hx).2) hlength
  have htruthy : (some old.id).filter truthy = some old.id := by
    simp [truthy, (h.named _ old hold).2]
  refine ⟨⟨entries, (deepestCommon (·.id) oldPath targetPath).map (·.id)⟩, ?_, habandoned⟩
  simp only [SessionManager.collectEntriesForBranchSummary, htruthy, h.getBranch_eq hold hp, h.getBranch_eq htarget hq,
    Option.bind_eq_bind, Option.bind_some]
  rw [hcollect]
  rfl

end SessionManager.IsTree

theorem TreeStorage.Sound.collectEntriesForBranchSummary_eq {s : TreeStorage} (h : s.Sound) {old target : TreeEntry}
    {oldPath targetPath : List TreeEntry} (hold : old ∈ s.entries) (htarget : target ∈ s.entries)
    (hp : Lineage (parentInTree s.byId) old oldPath) (hq : Lineage (parentInTree s.byId) target targetPath) :
    ∃ result, s.collectEntriesForBranchSummary (some old.id) target.id = some (.ok result) ∧
      IsAbandoned TreeEntry.id oldPath targetPath result := by
  have hget : ∀ x ∈ s.entries, x.id ≠ "" ∧ s.byId.get? x.id = some x := fun x hx =>
    ⟨h.named x hx, (h.byId _ _).mpr ⟨hx, rfl⟩⟩
  have hlink : ∀ x y, parentInTree s.byId x = some y → x.parentId = some y.id := by
    intro x y hxy
    obtain ⟨k, hk, hky⟩ := Option.bind_eq_some_iff.mp hxy
    rw [((h.byId k y).mp hky).2]
    exact (Option.filter_eq_some_iff.mp hk).1
  have hroot : ∀ x k, parentInTree s.byId x = none → x.parentId = some k → k ≠ "" → s.byId.get? k = none := by
    intro x k hx hk hne
    simpa [parentInTree, TreeEntry.parentKey, hk, hne] using hx
  have hlength : oldPath.length + 1 ≤ s.byId.size + 2 := by
    have hvalues : ∀ y ∈ s.entries, y ∈ s.byId.values := fun y hy => OrdMap.get?_mem_values (hget y hy).2
    have hle := hp.length_le (fun _ _ _ hy => hvalues _ (h.parent_mem hy)) (hvalues old hold)
    rw [OrdMap.values, List.length_map] at hle
    rw [OrdMap.size]
    omega
  obtain ⟨entries, missing, hcollect, hmissing, habandoned⟩ := collectBack_abandoned s.byId.get? hp hq
    hlink hroot (fun x hx => hget x (h.subset hp hold hx)) (fun x hx => (hget x (h.subset hq htarget hx)).2) hlength
  -- the parents of a sound storage are there
  obtain rfl : missing = none := by
    cases missing with
    | none => rfl
    | some k =>
      obtain ⟨x, hx, -, hk, hne, hnone⟩ := hmissing k rfl
      obtain ⟨parent, hparent, rfl⟩ := h.closed x (h.subset hp hold hx) k (by simp [TreeEntry.parentKey, hk, hne])
      rw [(hget parent hparent).2] at hnone
      cases hnone
  have htruthy : (some old.id).filter truthy = some old.id := by
    simp [truthy, (hget old hold).1]
  refine ⟨⟨entries, (deepestCommon (·.id) oldPath targetPath).map (·.id)⟩, ?_, habandoned⟩
  simp only [TreeStorage.collectEntriesForBranchSummary, htruthy, h.getPathToRoot hold hp, h.getPathToRoot htarget hq,
    Option.bind_eq_bind, Option.bind_some]
  rw [hcollect]
  rfl

/-- **The abandoned branch is found exactly**, by the coding agent and by the harness. -/
theorem collectEntriesForBranchSummary_abandoned :
    (∀ (m : SessionManager) (target : SessionEntry), m.IsTree → m.byId.get? target.id = some target →
      m.collectEntriesForBranchSummary none target.id = some ⟨[], none⟩ ∧
      ∀ old : SessionEntry, m.byId.get? old.id = some old →
        ∃ oldPath targetPath result, Lineage (parentEntry m.byId) old oldPath ∧
          Lineage (parentEntry m.byId) target targetPath ∧
          m.collectEntriesForBranchSummary (some old.id) target.id = some result ∧
          IsAbandoned SessionEntry.id oldPath targetPath result) ∧
    ∀ (s : TreeStorage) (target : TreeEntry), s.Sound → target ∈ s.entries →
      s.collectEntriesForBranchSummary none target.id = some (.ok ⟨[], none⟩) ∧
      ∀ old ∈ s.entries,
        ∃ oldPath targetPath result, Lineage (parentInTree s.byId) old oldPath ∧
          Lineage (parentInTree s.byId) target targetPath ∧
          s.collectEntriesForBranchSummary (some old.id) target.id = some (.ok result) ∧
          IsAbandoned TreeEntry.id oldPath targetPath result := by
  refine ⟨fun m target h htarget => ⟨rfl, fun old hold => ?_⟩, fun s target h htarget => ⟨rfl, fun old hold => ?_⟩⟩
  · obtain ⟨oldPath, hp⟩ := h.rooted _ old hold
    obtain ⟨targetPath, hq⟩ := h.rooted _ target htarget
    obtain ⟨result, hresult, habandoned⟩ := h.collectEntriesForBranchSummary_eq hold htarget hp hq
    exact ⟨oldPath, targetPath, result, hp, hq, hresult, habandoned⟩
  · obtain ⟨oldPath, hp⟩ := h.rooted old hold
    obtain ⟨targetPath, hq⟩ := h.rooted target htarget
    obtain ⟨result, hresult, habandoned⟩ := h.collectEntriesForBranchSummary_eq hold htarget hp hq
    exact ⟨oldPath, targetPath, result, hp, hq, hresult, habandoned⟩

/-! ### Two branches -/

/-- A request and two answers to it, in branches of their own. -/
def forkedEntries : List SessionEntry :=
  [⟨"a", none, "", .message (.user (.text "go") 0)⟩, ⟨"b", some "a", "", .custom "left" none⟩,
    ⟨"c", some "a", "", .custom "right" none⟩]

/-- A manager of these entries. -/
def forkedManager : SessionManager where
  sessionId := "s"
  sessionFile := none
  sessionDir := ""
  cwd := ""
  persist := false
  flushed := false
  hasAssistant := false
  appendFd := none
  fileEntries := forkedEntries.map .entry
  byId := indexById forkedEntries
  labelsById := .empty
  labelTimestampsById := .empty
  leafId := some "b"

theorem forkedManager_isTree : forkedManager.IsTree := by
  have hcases : ∀ id e, forkedManager.byId.get? id = some e → e ∈ forkedEntries ∧ e.id = id := fun id e he =>
    (indexById_get? (by decide)).mp he
  have hroot : Lineage (parentEntry forkedManager.byId) forkedEntries[0] [forkedEntries[0]] := .root (by decide)
  refine ⟨fun id e he => ?_, fun id e he => ?_⟩
  · obtain ⟨hmem, rfl⟩ := hcases id e he
    have hne : ∀ e ∈ forkedEntries, e.id ≠ "" := by decide
    exact ⟨rfl, hne e hmem⟩
  · have hmem := (hcases id e he).1
    simp only [forkedEntries, List.mem_cons, List.not_mem_nil, or_false] at hmem
    rcases hmem with rfl | rfl | rfl
    · exact ⟨_, hroot⟩
    · exact ⟨_, .child (by decide) hroot⟩
    · exact ⟨_, .child (by decide) hroot⟩

theorem forkedManager_abandoned : ∃ oldPath targetPath result,
    Lineage (parentEntry forkedManager.byId) forkedEntries[1] oldPath ∧
      Lineage (parentEntry forkedManager.byId) forkedEntries[2] targetPath ∧
      forkedManager.collectEntriesForBranchSummary (some "b") "c" = some result ∧
      IsAbandoned SessionEntry.id oldPath targetPath result :=
  (collectEntriesForBranchSummary_abandoned.1 forkedManager forkedEntries[2] forkedManager_isTree (by decide)).2
    forkedEntries[1] (by decide)

end Trek
