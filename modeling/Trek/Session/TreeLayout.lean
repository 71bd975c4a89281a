/-
# The filtered tree is the contracted tree

`flattenTree` lists the nodes of the tree in preorder with the branch of the current leaf first
(`flatItems_walk`), `skipSet` is what hangs below folded nodes (`mem_skipSet`), and the loop over the
maps `recalculateVisualStructure` builds walks the forest of the visible nodes (`layoutVisible_eq`), so it
draws what `flattenTree` draws of that forest.
-/
import Trek.Session.TreeList

namespace Trek

open Rose

variable {leafId : Option String}

/-! ### Items and their nodes -/

section

variable {ν μ : Type*}

/-- The item with another node. -/
def StackItem.mapNode (f : ν → μ) (item : StackItem ν) : StackItem μ :=
  ⟨f item.node, item.indent, item.justBranched, item.showConnector, item.isLast, item.gutters, item.isVirtualRootChild⟩

theorem siblingItems_map (f : ν → μ) (indent : ℕ) (branched : Bool) (gutters : List GutterInfo) (virtual : Bool)
    (siblings : List ν) : siblingItems indent branched gutters virtual (siblings.map f) =
      (siblingItems indent branched gutters virtual siblings).map (StackItem.mapNode f) := by
  apply List.ext_getElem
  · simp [siblingItems]
  · intro i _ _
    simp [siblingItems, StackItem.mapNode]

theorem map_node_siblingItems (indent : ℕ) (branched : Bool) (gutters : List GutterInfo) (virtual : Bool)
    (siblings : List ν) : (siblingItems indent branched gutters virtual siblings).map StackItem.node = siblings := by
  apply List.ext_getElem
  · simp [siblingItems]
  · intro i _ _
    simp [siblingItems]

theorem childItems_map (f : ν → μ) (multipleRoots : Bool) (item : StackItem ν) (children : List ν) :
    childItems multipleRoots (item.mapNode f) (children.map f) =
      (childItems multipleRoots item children).map (StackItem.mapNode f) := by
  simp only [childItems, List.length_map, siblingItems_map]
  rfl

theorem map_node_childItems (multipleRoots : Bool) (item : StackItem ν) (children : List ν) :
    (childItems multipleRoots item children).map StackItem.node = children := map_node_siblingItems ..

theorem rootItems_map (f : ν → μ) (multipleRoots : Bool) (roots : List ν) :
    rootItems multipleRoots (roots.map f) = (rootItems multipleRoots roots).map (StackItem.mapNode f) :=
  siblingItems_map ..

theorem map_node_rootItems (multipleRoots : Bool) (roots : List ν) :
    (rootItems multipleRoots roots).map StackItem.node = roots := map_node_siblingItems ..

end

/-! ### The whole tree -/

theorem orderedChildren_eq (children : List SessionTreeNode) :
    orderedChildren leafId children = markedFirst (isLeaf leafId) children := rfl

theorem orderedRoots_eq (roots : List SessionTreeNode) :
    orderedRoots leafId roots = markedFirst (isLeaf leafId) roots :=
  mergeSort_flagged (containsActive leafId) roots

/-- What the loop of `flattenTree` pops. -/
def flatItems (leafId : Option String) (roots : List SessionTreeNode) : Option (List (StackItem SessionTreeNode)) :=
  let multipleRoots : Bool := 1 < roots.length
  Rose.walk (fun item => childItems multipleRoots item (orderedChildren leafId item.node.children)) (nodes roots).length
    (rootItems multipleRoots (orderedRoots leafId roots))

theorem flattenTree_eq (roots : List SessionTreeNode) :
    flattenTree (1 < roots.length) leafId roots = (flatItems leafId roots).map (List.map StackItem.flatNode) := rfl

/-- It pops the trees of the reordered forest in preorder. -/
theorem flatItems_walk (leafId : Option String) (roots : List SessionTreeNode) : ∃ items, flatItems leafId roots = some items ∧
    items.map (fun item => item.node.reorderOf (isLeaf leafId)) = subtrees (reorder (isLeaf leafId) roots) := by
  let f : StackItem SessionTreeNode → SessionTreeNode := fun item => item.node.reorderOf (isLeaf leafId)
  have hf : ∀ items : List (StackItem SessionTreeNode), items.map f =
      (items.map StackItem.node).map (reorderOf (isLeaf leafId)) := fun items => by rw [List.map_map]; rfl
  have hexpand : ∀ item : StackItem SessionTreeNode, True → children (f item) =
      (childItems (1 < roots.length) item (orderedChildren leafId item.node.children)).map f := by
    intro item _
    rw [hf, map_node_childItems, orderedChildren_eq, ← reorder_eq]
    exact children_reorderOf item.node
  have hwalk := walk_map f (fun _ _ _ _ => trivial) hexpand (nodes roots).length
    (rootItems (1 < roots.length) (orderedRoots leafId roots)) fun _ _ => trivial
  have hlen : (subtrees (reorder (isLeaf leafId) roots)).length ≤ (nodes roots).length := by
    rw [(subtrees_reorder_perm _ roots).length_eq, List.length_map, nodes, List.length_map]
  rw [hf, map_node_rootItems, orderedRoots_eq, ← reorder_eq, walk_children _ _ hlen] at hwalk
  obtain ⟨items, hitems, heq⟩ := Option.map_eq_some_iff.mp hwalk.symm
  exact ⟨items, by rw [flatItems, orderedRoots_eq]; exact hitems, heq⟩

theorem flatItems_nodes {roots : List SessionTreeNode} {items : List (StackItem SessionTreeNode)}
    (h : flatItems leafId roots = some items) :
    items.map (fun item => item.node.value) = nodes (reorder (isLeaf leafId) roots) := by
  obtain ⟨items', h', heq⟩ := flatItems_walk leafId roots
  rw [h, Option.some.injEq] at h'
  subst h'
  rw [nodes, ← heq, List.map_map]
  exact List.map_congr_left fun item _ => (value_reorderOf _).symm

/-! ### Trees whose nodes name their parents -/

/-- The ids of the nodes of a forest. -/
def nodeIds (roots : List SessionTreeNode) : List String := keys SessionNode.id roots

/-- The children of a node have its id as their `parentId`. -/
def Linked (roots : List SessionTreeNode) : Prop :=
  ∀ s ∈ subtrees roots, ∀ c ∈ s.children, c.value.entry.parentId = some s.value.id

/-- The `parentId`s agree with the tree: what a root has as its `parentId`, if anything, is not in the
tree. -/
structure ParentsAgree (roots : List SessionTreeNode) : Prop where
  linked : Linked roots
  roots : ∀ t ∈ roots, ∀ p ∈ t.value.entry.parentId, p ∉ nodeIds roots

theorem linked_cons {v : SessionNode} {cs ts : List SessionTreeNode} :
    Linked (node v cs :: ts) ↔ (∀ c ∈ cs, c.value.entry.parentId = some v.id) ∧ Linked cs ∧ Linked ts := by
  simp only [Linked, subtrees_cons, List.mem_cons, List.mem_append, or_imp, forall_and, forall_eq, children_node,
    value_node]

theorem nodeIds_cons {v : SessionNode} {cs ts : List SessionTreeNode} :
    nodeIds (node v cs :: ts) = v.id :: (nodeIds cs ++ nodeIds ts) := keys_cons

theorem id_mem_nodeIds {x : SessionNode} {ts : List SessionTreeNode} (h : x ∈ nodes ts) : x.id ∈ nodeIds ts :=
  List.mem_map_of_mem h

theorem nodeIds_reorder_perm (roots : List SessionTreeNode) :
    (nodeIds (reorder (isLeaf leafId) roots)).Perm (nodeIds roots) :=
  (nodes_reorder_perm _ roots).map SessionNode.id

theorem Linked.reorder {roots : List SessionTreeNode} (h : Linked roots) : Linked (reorder (isLeaf leafId) roots) := by
  intro s hs c hc
  obtain ⟨u, hu, rfl⟩ := List.mem_map.mp ((subtrees_reorder_perm _ roots).mem_iff.mp hs)
  rw [children_reorderOf, reorder_eq] at hc
  obtain ⟨d, hd, rfl⟩ := List.mem_map.mp hc
  rw [value_reorderOf, value_reorderOf]
  exact h u hu d ((markedFirst_perm _ _).mem_iff.mp hd)

theorem ParentsAgree.reorder {roots : List SessionTreeNode} (h : ParentsAgree roots) :
    ParentsAgree (reorder (isLeaf leafId) roots) := by
  refine ⟨h.linked.reorder, fun t ht p hp => ?_⟩
  rw [reorder_eq] at ht
  obtain ⟨u, hu, rfl⟩ := List.mem_map.mp ht
  rw [value_reorderOf] at hp
  rw [(nodeIds_reorder_perm roots).mem_iff]
  exact h.roots u ((markedFirst_perm _ _).mem_iff.mp hu) p hp

/-! ### Folded nodes -/

section

variable {folded skip : List String}

theorem skipLoop_append (folded skip : List String) (xs ys : List SessionNode) :
    skipLoop folded skip (xs ++ ys) = skipLoop folded (skipLoop folded skip xs) ys := List.foldl_append

theorem skipLoop_cons {x : SessionNode} {xs : List SessionNode} :
    skipLoop folded skip (x :: xs) = skipLoop folded (if skipsNode folded skip x then x.id :: skip else skip) xs := rfl

/-- A node is below a folded one, in a forest whose roots are if `hid` says so. -/
def FoldedAway (folded : List String) (hid : Prop) (ts : List SessionTreeNode) (n : SessionNode) : Prop :=
  hid ∨ ∃ a, a.id ∈ folded ∧ Above ts a n

section

variable {hid : Prop} {v : SessionNode} {cs ts : List SessionTreeNode}

theorem foldedAway_root (hnodup : (nodes (node v cs :: ts)).Nodup) : FoldedAway folded hid (node v cs :: ts) v ↔ hid := by
  constructor
  · rintro (h | ⟨a, -, h⟩)
    · exact h
    · exact absurd h (not_above_root hnodup)
  · exact Or.inl

theorem foldedAway_children (hnodup : (nodes (node v cs :: ts)).Nodup) {n : SessionNode} (hn : n ∈ nodes cs) :
    FoldedAway folded hid (node v cs :: ts) n ↔ FoldedAway folded (hid ∨ v.id ∈ folded) cs n := by
  simp only [FoldedAway, above_of_mem_children hnodup hn, and_or_left, exists_or, or_assoc]
  simp

theorem foldedAway_siblings (hnodup : (nodes (node v cs :: ts)).Nodup) {n : SessionNode} (hn : n ∈ nodes ts) :
    FoldedAway folded hid (node v cs :: ts) n ↔ FoldedAway folded hid ts n := by
  simp only [FoldedAway, above_of_mem_siblings hnodup hn]

end

theorem skipsNode_iff {n : SessionNode} :
    skipsNode folded skip n = true ↔ ∃ p ∈ n.entry.parentId, p ∈ folded ∨ p ∈ skip := by
  simp [skipsNode, Option.any_eq_true]

/-- What the loop adds over the nodes of a forest, of whose roots it adds all or none. -/
theorem mem_skipLoop (hid : Prop) {ts : List SessionTreeNode} (hlinked : Linked ts) (hnodup : (nodeIds ts).Nodup)
    (hfresh : ∀ id ∈ nodeIds ts, id ∉ skip) (hroots : ∀ t ∈ ts, ∀ p ∈ t.value.entry.parentId, p ∉ nodeIds ts)
    (hhid : ∀ t ∈ ts, skipsNode folded skip t.value = true ↔ hid) {id : String} :
    id ∈ skipLoop folded skip (nodes ts) ↔ id ∈ skip ∨ ∃ n ∈ nodes ts, n.id = id ∧ FoldedAway folded hid ts n := by
  induction ts using forest_induction generalizing hid skip id with
  | nil => simp [skipLoop]
  | cons v cs ts ihc iht =>
    obtain ⟨hcs, hlcs, hlts⟩ := linked_cons.mp hlinked
    have hnd : (nodes (node v cs :: ts)).Nodup := List.Nodup.of_map _ hnodup
    rw [nodeIds_cons] at hnodup hfresh hroots
    rw [List.nodup_cons, List.mem_append, not_or, List.nodup_append] at hnodup
    obtain ⟨⟨hvcs, hvts⟩, hndcs, hndts, hdisj⟩ := hnodup
    have hv : skipsNode folded skip v = true ↔ hid := hhid _ List.mem_cons_self
    rw [nodes_cons, skipLoop_cons, skipLoop_append]
    -- after `v`
    set skip₁ := if skipsNode folded skip v then v.id :: skip else skip with hskip₁
    have hmem₁ : ∀ id, id ∈ skip₁ ↔ id ∈ skip ∨ v.id = id ∧ hid := by
      intro id
      rw [hskip₁, ← hv]
      by_cases h : skipsNode folded skip v = true
      · rw [if_pos h, List.mem_cons, or_comm, and_iff_left h, eq_comm]
      · rw [if_neg h, or_iff_left fun hid => h hid.2]
    -- after the children of `v`
    have hmem₂ : ∀ id, id ∈ skipLoop folded skip₁ (nodes cs) ↔
        id ∈ skip₁ ∨ ∃ n ∈ nodes cs, n.id = id ∧ FoldedAway folded (hid ∨ v.id ∈ folded) cs n := by
      intro id
      refine ihc (hid ∨ v.id ∈ folded) hlcs hndcs ?_ ?_ ?_
      · intro id hid hmem
        rcases (hmem₁ id).mp hmem with h | ⟨rfl, -⟩
        · exact hfresh id (by simp [hid]) h
        · exact hvcs hid
      · intro t ht p hp
        rw [hcs t ht, Option.mem_some_iff] at hp
        exact hp ▸ hvcs
      · intro t ht
        have hfree : v.id ∉ skip := hfresh v.id List.mem_cons_self
        rw [skipsNode_iff, hcs t ht]
        simp [hmem₁, hfree, or_comm]
    have hsame : ∀ id, id ≠ v.id → id ∉ nodeIds cs → (id ∈ skipLoop folded skip₁ (nodes cs) ↔ id ∈ skip) := by
      intro id hne hncs
      rw [hmem₂, hmem₁]
      constructor
      · rintro ((h | ⟨h, -⟩) | ⟨n, hn, rfl, -⟩)
        · exact h
        · exact absurd h.symm hne
        · exact absurd (id_mem_nodeIds hn) hncs
      · exact fun h => Or.inl (Or.inl h)
    -- after the siblings
    have hmem₃ : id ∈ skipLoop folded (skipLoop folded skip₁ (nodes cs)) (nodes ts) ↔
        id ∈ skipLoop folded skip₁ (nodes cs) ∨ ∃ n ∈ nodes ts, n.id = id ∧ FoldedAway folded hid ts n := by
      refine iht hid hlts hndts ?_ ?_ ?_
      · intro id hid
        rw [hsame id (fun h => hvts (h ▸ hid)) fun h => hdisj id h id hid rfl]
        exact hfresh id (by simp [hid])
      · intro t ht p hp h
        exact hroots t (List.mem_cons_of_mem _ ht) p hp (by simp [h])
      · intro t ht
        rw [← hhid t (List.mem_cons_of_mem _ ht), skipsNode_iff, skipsNode_iff]
        refine exists_congr fun p => and_congr_right fun hp => ?_
        have hout := hroots t (List.mem_cons_of_mem _ ht) p hp
        rw [List.mem_cons, List.mem_append, not_or, not_or] at hout
        rw [hsame p hout.1 hout.2.1]
    have hbelow : (∃ n ∈ nodes cs, n.id = id ∧ FoldedAway folded (hid ∨ v.id ∈ folded) cs n) ↔
        ∃ n ∈ nodes cs, n.id = id ∧ FoldedAway folded hid (node v cs :: ts) n :=
      exists_congr fun n => and_congr_right fun hn => by rw [foldedAway_children hnd hn]
    have hbeside : (∃ n ∈ nodes ts, n.id = id ∧ FoldedAway folded hid ts n) ↔
        ∃ n ∈ nodes ts, n.id = id ∧ FoldedAway folded hid (node v cs :: ts) n :=
      exists_congr fun n => and_congr_right fun hn => by rw [foldedAway_siblings hnd hn]
    rw [hmem₃, hmem₂, hmem₁, hbelow, hbeside]
    simp only [List.mem_cons, List.mem_append, or_and_right, exists_or, exists_eq_left, foldedAway_root hnd, or_assoc]

/-- **The skipped ids are those below folded nodes.** -/
theorem mem_skipSet {roots : List SessionTreeNode} (hagree : ParentsAgree roots) (hnodup : (nodeIds roots).Nodup)
    (hfolded : ∀ id ∈ folded, id ∈ nodeIds roots) {id : String} :
    id ∈ skipSet folded (nodes roots) ↔ ∃ n ∈ nodes roots, n.id = id ∧ FoldedAway folded False roots n := by
  rw [skipSet, mem_skipLoop False hagree.linked hnodup (by simp) hagree.roots]
  · simp
  · intro t ht
    rw [skipsNode_iff]
    simp only [List.not_mem_nil, or_false, iff_false, not_exists, not_and]
    exact fun p hp h => hagree.roots t ht p hp (hfolded p h)

end

/-! ### The maps of the visible tree -/

section

variable {flatNodes : List FlatNode} {roots : List SessionTreeNode} {p : SessionNode → Bool}

theorem flatNodeMap_get? (hnodup : (flatNodes.map (·.node.id)).Nodup) {n : FlatNode} (hn : n ∈ flatNodes) :
    (flatNodeMap flatNodes).get? n.node.id = some n :=
  OrdMap.get?_foldl_set (fun n : FlatNode => n.node.id) (fun n => n) flatNodes .empty hnodup n hn

theorem flatNodeMap_get?_of_notMem {id : String} (h : id ∉ flatNodes.map (·.node.id)) :
    (flatNodeMap flatNodes).get? id = none :=
  OrdMap.get?_foldl_set_of_notMem (fun n : FlatNode => n.node.id) (fun n => n) flatNodes .empty h

theorem parentIdIn_flatNodeMap (hnodup : (flatNodes.map (·.node.id)).Nodup) {x : SessionNode}
    (hx : x ∈ flatNodes.map FlatNode.node) : parentIdIn (flatNodeMap flatNodes) x.id = x.entry.parentId := by
  obtain ⟨n, hn, rfl⟩ := List.mem_map.mp hx
  rw [parentIdIn, flatNodeMap_get? hnodup hn]
  rfl

theorem le_size_flatNodeMap (hnodup : (flatNodes.map (·.node.id)).Nodup) :
    flatNodes.length ≤ (flatNodeMap flatNodes).size := by
  have hsub : flatNodes.map (·.node.id) ⊆ (flatNodeMap flatNodes).keys := by
    intro id hid
    obtain ⟨n, hn, rfl⟩ := List.mem_map.mp hid
    exact OrdMap.has_iff.mp (by rw [OrdMap.has, flatNodeMap_get? hnodup hn]; rfl)
  have hle := (List.subperm_of_subset hnodup hsub).length_le
  rwa [OrdMap.keys, List.length_map, List.length_map] at hle

/-- The visible ancestors found by climbing are the parents in the contracted forest, in a forest above
whose roots the climb finds `up` within `d` steps. -/
theorem mapM_nearestVisible {entryMap : OrdMap String FlatNode} {visibleIds : List String} {fuel : ℕ}
    (hmap : ∀ x ∈ nodes roots, parentIdIn entryMap x.id = x.entry.parentId)
    (hvisible : ∀ x ∈ nodes roots, x.id ∈ visibleIds ↔ p x = true) (hlinked : Linked roots) {up : Option String} {d : ℕ}
    (hroots : ∀ t ∈ roots, ∀ n, d ≤ n → nearestVisible entryMap visibleIds n t.value.entry.parentId = some up)
    (hfuel : d + (nodes roots).length ≤ fuel) :
    (((nodes roots).filter p).map SessionNode.id).mapM
        (fun id => (nearestVisible entryMap visibleIds fuel (parentIdIn entryMap id)).map (id, ·)) =
      some (links SessionNode.id up (keep p roots)) := by
  induction roots using forest_induction generalizing up d with
  | nil => rfl
  | cons v cs ts ihc iht =>
    obtain ⟨hcs, hlcs, hlts⟩ := linked_cons.mp hlinked
    simp only [nodes_cons, List.mem_cons, List.mem_append, or_imp, forall_and, forall_eq, List.length_cons,
      List.length_append, value_node] at hmap hvisible hroots hfuel
    obtain ⟨hv, hmapcs, hmapts⟩ := hmap
    obtain ⟨hvisv, hviscs, hvists⟩ := hvisible
    obtain ⟨hrv, hrts⟩ := hroots
    -- the climb from a child of `v` comes to `v` first
    have hchild : ∀ c ∈ cs, ∀ n, d + 1 ≤ n → nearestVisible entryMap visibleIds n c.value.entry.parentId =
        some (if p v then some v.id else up) := by
      intro c hc n hn
      obtain ⟨n, rfl⟩ : ∃ k, n = k + 1 := ⟨n - 1, by omega⟩
      rw [hcs c hc, nearestVisible, hv]
      by_cases hp : p v = true
      · rw [if_pos (hvisv.mpr hp), if_pos hp]
      · rw [if_neg fun h => hp (hvisv.mp h), if_neg hp]
        exact hrv n (by omega)
    have ihc' := ihc hmapcs hviscs hlcs hchild (by omega)
    have iht' := iht hmapts hvists hlts hrts (by omega)
    rw [nodes_cons]
    by_cases hp : p v = true
    · rw [if_pos hp] at ihc'
      rw [List.filter_cons_of_pos hp, List.filter_append, List.map_cons, List.map_append, List.mapM_cons, List.mapM_append,
        ihc', iht', hv, hrv fuel (by omega), keep_cons_of_pos hp, links_cons]
      rfl
    · rw [if_neg hp] at ihc'
      rw [List.filter_cons_of_neg hp, List.filter_append, List.map_append, List.mapM_append, ihc', iht',
        keep_cons_of_neg hp, links_append]
      rfl

/-- **Every visible node is linked to its parent in the contracted forest.** -/
theorem visibleLinks_eq (hagree : ParentsAgree roots) (hnodup : (nodeIds roots).Nodup)
    (hflat : flatNodes.map FlatNode.node = nodes roots) :
    (((nodes roots).filter p).map SessionNode.id).mapM
        (fun id => (findVisibleAncestor (flatNodeMap flatNodes) (((nodes roots).filter p).map SessionNode.id) id).map (id, ·)) =
      some (links SessionNode.id none (keep p roots)) := by
  have hids : flatNodes.map (·.node.id) = nodeIds roots := by
    rw [nodeIds, keys, ← hflat, List.map_map]
    rfl
  have hnd : (flatNodes.map (·.node.id)).Nodup := hids ▸ hnodup
  have hlen : flatNodes.length = (nodes roots).length := by rw [← hflat, List.length_map]
  refine mapM_nearestVisible (d := 1) (fun x hx => parentIdIn_flatNodeMap hnd (hflat ▸ hx)) ?_ hagree.linked ?_ ?_
  · intro x hx
    rw [List.mem_map]
    constructor
    · rintro ⟨y, hy, hxy⟩
      obtain ⟨hy, hpy⟩ := List.mem_filter.mp hy
      exact List.inj_on_of_nodup_map hnodup hy hx hxy ▸ hpy
    · exact fun h => ⟨x, List.mem_filter.mpr ⟨hx, h⟩, rfl⟩
  · intro t ht n hn
    obtain ⟨n, rfl⟩ : ∃ k, n = k + 1 := ⟨n - 1, by omega⟩
    cases hparent : t.value.entry.parentId with
    | none => rfl
    | some id =>
      have hout : id ∉ nodeIds roots := hagree.roots t ht id hparent
      have hhidden : id ∉ ((nodes roots).filter p).map SessionNode.id := fun h => by
        obtain ⟨y, hy, rfl⟩ := List.mem_map.mp h
        exact hout (id_mem_nodeIds (List.mem_filter.mp hy).1)
      rw [nearestVisible, if_neg hhidden, parentIdIn, flatNodeMap_get?_of_notMem (hids ▸ hout)]
      cases n <;> rfl
  · have hle := le_size_flatNodeMap hnd
    omega

end

/-! ### The visible tree is drawn -/

section

variable {visible : List SessionTreeNode} {items : List (StackItem SessionTreeNode)}

/-- The item with the id of its node. -/
def idItem : StackItem SessionTreeNode → StackItem String := StackItem.mapNode fun t => t.value.id

/-- The loop over the maps pops what `flattenTree` pops of the visible forest. -/
theorem layoutVisible_eq (hnodup : (nodeIds visible).Nodup) (hhead : HeadFirst (isLeaf leafId) visible)
    {filteredNodes : List FlatNode} (hids : filteredNodes.map FlatNode.node = nodes visible)
    {visibleChildren : OrdMap (Option String) (List String)}
    (hchildren : ∀ k, (visibleChildren.get? k).getD [] =
      ((links SessionNode.id none visible).filter (·.2 = k)).map Prod.fst)
    (hitems : flatItems leafId visible = some items) :
    layoutVisible (1 < visible.length) filteredNodes visibleChildren = some (items.map idItem) := by
  have hroots : (visibleChildren.get? none).getD [] = visible.map fun t => t.value.id := by
    rw [hchildren, filter_links_up (by simp), List.map_map]
    rfl
  have hnd : (filteredNodes.map (·.node.id)).Nodup := by
    have h : filteredNodes.map (·.node.id) = nodeIds visible := by
      rw [nodeIds, keys, ← hids, List.map_map]
      rfl
    rwa [h]
  have hlen : filteredNodes.length = (nodes visible).length := by rw [← hids, List.length_map]
  have hordered : orderedRoots leafId visible = visible := by rw [orderedRoots_eq, markedFirst_eq_self hhead.roots]
  let expand : StackItem SessionTreeNode → List (StackItem SessionTreeNode) := fun item =>
    childItems (1 < visible.length) item (orderedChildren leafId item.node.children)
  let expandId : StackItem String → List (StackItem String) := fun item =>
    if (flatNodeMap filteredNodes).has item.node then
      childItems (1 < visible.length) item ((visibleChildren.get? (some item.node)).getD [])
    else []
  have hkeep : ∀ item : StackItem SessionTreeNode, item.node ∈ subtrees visible → ∀ child ∈ expand item,
      child.node ∈ subtrees visible := by
    intro item hitem child hchild
    have hmem : child.node ∈ (expand item).map StackItem.node := List.mem_map_of_mem hchild
    rw [map_node_childItems, orderedChildren_eq, (markedFirst_perm _ _).mem_iff] at hmem
    exact subtrees_children_subset hitem (mem_subtrees_of_mem hmem)
  have hexpand : ∀ item : StackItem SessionTreeNode, item.node ∈ subtrees visible →
      expandId (idItem item) = (expand item).map idItem := by
    intro item hitem
    have hmem : item.node.value ∈ nodes visible := mem_nodes.mpr ⟨item.node, hitem, rfl⟩
    rw [← hids] at hmem
    obtain ⟨n, hn, hvalue⟩ := List.mem_map.mp hmem
    have hhas : (flatNodeMap filteredNodes).has (idItem item).node = true := by
      change (flatNodeMap filteredNodes).has item.node.value.id = true
      rw [← hvalue, OrdMap.has, flatNodeMap_get? hnd hn]
      rfl
    have hbelow : (visibleChildren.get? (some (idItem item).node)).getD [] = item.node.children.map fun t => t.value.id := by
      change (visibleChildren.get? (some item.node.value.id)).getD [] = _
      rw [hchildren, filter_links_subtree hnodup hitem (by simp), List.map_map]
      rfl
    have hordered : orderedChildren leafId item.node.children = item.node.children :=
      markedFirst_eq_self (hhead.below item.node hitem)
    simp only [expandId, expand]
    rw [if_pos hhas, hbelow, hordered]
    exact childItems_map _ _ _ _
  have hstart : ∀ item ∈ rootItems (1 < visible.length) (orderedRoots leafId visible), item.node ∈ subtrees visible := by
    intro item hitem
    have hmem : item.node ∈ (rootItems (1 < visible.length) (orderedRoots leafId visible)).map StackItem.node :=
      List.mem_map_of_mem hitem
    rw [map_node_rootItems, hordered] at hmem
    exact mem_subtrees_of_mem hmem
  have hwalk := walk_map idItem hkeep hexpand (nodes visible).length _ hstart
  rw [show Rose.walk expand _ _ = flatItems leafId visible from rfl, hitems, idItem, ← rootItems_map, hordered] at hwalk
  rw [layoutVisible, hroots, hlen]
  exact hwalk

theorem redraw_of_notMem : ∀ {others : List (StackItem SessionTreeNode)} {n : FlatNode},
    n.node.id ∉ others.map (fun item => item.node.value.id) → redraw (others.map idItem) n = n
  | [], _, _ => rfl
  | other :: others, n, h => by
    rw [List.map_cons, List.mem_cons, not_or] at h
    have hskip : redrawAs n (idItem other) = n := if_neg (Ne.symm h.1)
    rw [List.map_cons, redraw, List.foldl_cons, hskip]
    exact redraw_of_notMem h.2

/-- A flat node is redrawn as the item with its id says. -/
theorem redraw_eq (hnodup : (items.map fun item => item.node.value.id).Nodup) {item : StackItem SessionTreeNode}
    (hitem : item ∈ items) {n : FlatNode} (hn : n.node = item.node.value) :
    redraw (items.map idItem) n = item.flatNode := by
  induction items with
  | nil => exact absurd hitem List.not_mem_nil
  | cons first items ih =>
    rw [List.map_cons, List.nodup_cons] at hnodup
    rw [List.map_cons, redraw, List.foldl_cons]
    rcases List.mem_cons.mp hitem with rfl | hitem
    · have hdraw : redrawAs n (idItem item) = item.flatNode := by
        rw [redrawAs, if_pos (by rw [hn]; rfl), hn]
        rfl
      rw [hdraw]
      exact redraw_of_notMem hnodup.1
    · have hmem : item.node.value.id ∈ items.map fun item => item.node.value.id :=
        List.mem_map_of_mem (f := fun item : StackItem SessionTreeNode => item.node.value.id) hitem
      have hne : first.node.value.id ≠ n.node.id := fun h => hnodup.1 (by rw [h, hn]; exact hmem)
      have hskip : redrawAs n (idItem first) = n := if_neg hne
      rw [hskip]
      exact ih hnodup.2 hitem

/-- A list of flat nodes of the visible nodes, however they were drawn, is redrawn as `flattenTree` draws
the visible forest. -/
theorem map_redraw_eq (hnodup : (nodeIds visible).Nodup) (hhead : HeadFirst (isLeaf leafId) visible)
    (hitems : flatItems leafId visible = some items) {filteredNodes : List FlatNode}
    (hids : filteredNodes.map FlatNode.node = nodes visible) :
    filteredNodes.map (redraw (items.map idItem)) = items.map StackItem.flatNode := by
  have hvalues : items.map (fun item => item.node.value) = nodes visible := by
    rw [flatItems_nodes hitems, reorder_eq_self hhead]
  have hnd : (items.map fun item => item.node.value.id).Nodup := by
    rw [nodeIds, keys, ← hvalues, List.map_map] at hnodup
    exact hnodup
  -- what a flat node looked like before does not matter
  let fresh : SessionNode → FlatNode := fun x => redraw (items.map idItem) ⟨x, 0, false, false, [], false⟩
  have hold : ∀ n ∈ filteredNodes, redraw (items.map idItem) n = fresh n.node := by
    intro n hn
    have hmem : n.node ∈ items.map fun item => item.node.value := by
      rw [hvalues, ← hids]
      exact List.mem_map_of_mem hn
    obtain ⟨item, hitem, hvalue⟩ := List.mem_map.mp hmem
    have hfresh : fresh n.node = item.flatNode := redraw_eq hnd hitem hvalue.symm
    exact (redraw_eq hnd hitem hvalue.symm).trans hfresh.symm
  have hnew : ∀ item ∈ items, fresh item.node.value = item.flatNode := fun item hitem => redraw_eq hnd hitem rfl
  calc filteredNodes.map (redraw (items.map idItem)) = (filteredNodes.map FlatNode.node).map fresh := by
        rw [List.map_map]
        exact List.map_congr_left hold
    _ = (items.map fun item => item.node.value).map fresh := by rw [hids, hvalues]
    _ = items.map StackItem.flatNode := by
        rw [List.map_map]
        exact List.map_congr_left hnew

end

/-- **What is drawn of the filtered list is the contracted tree.** -/
theorem recalculateVisualStructure_eq {roots : List SessionTreeNode} {p : SessionNode → Bool} {list : TreeList}
    (hagree : ParentsAgree roots) (hnodup : (nodeIds roots).Nodup) (hhead : HeadFirst (isLeaf leafId) roots)
    (hflat : list.flatNodes.map FlatNode.node = nodes roots)
    (hfiltered : list.filteredNodes.map FlatNode.node = (nodes roots).filter p) :
    ∃ list', recalculateVisualStructure list = some list' ∧
      list'.filteredNodes.map FlatNode.node = (nodes roots).filter p ∧
      flattenTree (1 < (keep p roots).length) leafId (keep p roots) = some list'.filteredNodes := by
  have hids : list.filteredNodes.map FlatNode.node = nodes (keep p roots) := by rw [hfiltered, nodes_keep]
  have hkeep : HeadFirst (isLeaf leafId) (keep p roots) := headFirst_keep hhead
  have hkeepnd : (nodeIds (keep p roots)).Nodup := by
    rw [nodeIds, keys, nodes_keep]
    exact hnodup.sublist (List.filter_sublist.map _)
  obtain ⟨items, hitems, -⟩ := flatItems_walk leafId (keep p roots)
  have hflatten : flattenTree (1 < (keep p roots).length) leafId (keep p roots) = some (items.map StackItem.flatNode) := by
    rw [flattenTree_eq, hitems, Option.map_some]
  by_cases hempty : list.filteredNodes = []
  · refine ⟨list, by rw [recalculateVisualStructure, if_pos hempty], hfiltered, ?_⟩
    have hnone : items.map (fun item => item.node.value) = [] := by
      rw [flatItems_nodes hitems, reorder_eq_self hkeep, ← hids, hempty]
      rfl
    rw [hflatten, hempty, List.map_eq_nil_iff.mp hnone]
    rfl
  · have hvisible : list.filteredNodes.map (·.node.id) = ((nodes roots).filter p).map SessionNode.id := by
      rw [← hfiltered, List.map_map]
      rfl
    set visibleChildren := (links SessionNode.id none (keep p roots)).foldl pushChild (OrdMap.empty.set none [])
    have hchildren : ∀ k, (visibleChildren.get? k).getD [] =
        ((links SessionNode.id none (keep p roots)).filter (·.2 = k)).map Prod.fst := by
      intro k
      refine (OrdMap.getD_foldl_push k _ _).trans ?_
      rw [OrdMap.get?_set]
      split <;> simp
    have hroots : ((visibleChildren.get? none).getD []).length = (keep p roots).length := by
      rw [hchildren, filter_links_up (by simp), List.length_map, List.length_map]
    have hlayout := layoutVisible_eq hkeepnd hkeep hids hchildren hitems
    have hrecalculate : ∃ list', recalculateVisualStructure list = some list' ∧
        list'.filteredNodes = list.filteredNodes.map (redraw (items.map idItem)) := by
      rw [recalculateVisualStructure, if_neg hempty]
      simp only [hvisible, visibleLinks_eq hagree hnodup hflat, Option.bind_eq_bind, Option.bind_some]
      change ∃ list', (layoutVisible (1 < ((visibleChildren.get? none).getD []).length) list.filteredNodes
        visibleChildren).bind _ = some list' ∧ _
      rw [hroots, hlayout]
      exact ⟨_, rfl, rfl⟩
    obtain ⟨list', hlist', hdrawn⟩ := hrecalculate
    rw [map_redraw_eq hkeepnd hkeep hitems hids] at hdrawn
    refine ⟨list', hlist', ?_, by rw [hflatten, hdrawn]⟩
    rw [hdrawn, List.map_map, ← nodes_keep, ← reorder_eq_self hkeep, ← flatItems_nodes hitems]
    rfl

/-! ### The filtered list -/

/-- Some proper ancestor of the node is folded. -/
def belowFolded (folded : List String) (roots : List SessionTreeNode) (n : SessionNode) : Bool :=
  (subtrees roots).any fun s => s.value.id ∈ folded && n ∈ nodes s.children

theorem belowFolded_iff {folded : List String} {roots : List SessionTreeNode} {n : SessionNode} :
    belowFolded folded roots n = true ↔ ∃ a, a.id ∈ folded ∧ Above roots a n := by
  simp only [belowFolded, List.any_eq_true, Bool.and_eq_true, decide_eq_true_eq, Above]
  constructor
  · rintro ⟨s, hs, hfolded, hn⟩
    exact ⟨s.value, hfolded, s, hs, rfl, hn⟩
  · rintro ⟨a, hfolded, s, hs, rfl, hn⟩
    exact ⟨s, hs, hfolded, hn⟩

/-- The node passes filter and search and has no folded proper ancestor. -/
def isVisible (toLowerCase : String → String) (leafId : Option String) (mode : FilterMode) (searchQuery : String)
    (folded : List String) (roots : List SessionTreeNode) (n : SessionNode) : Bool :=
  passes toLowerCase leafId mode searchQuery n && !belowFolded folded roots n

/-- The forest of the nodes with `p`, each of them below its nearest ancestor with `p` and the siblings in
the order in which the nodes are listed. -/
structure ContractedTo (p : SessionNode → Bool) (listed : List SessionNode) (roots visible : List SessionTreeNode) :
    Prop where
  listed : nodes visible = listed.filter p
  root : ∀ t ∈ visible, ∀ b, p b = true → ¬Above roots b t.value
  nearest : ∀ s ∈ subtrees visible, ∀ c ∈ s.children, Above roots s.value c.value ∧
    ∀ b, p b = true → Above roots b c.value → b = s.value ∨ Above roots b s.value

theorem contractedTo_keep {roots : List SessionTreeNode} {p : SessionNode → Bool} (hnodup : (nodes roots).Nodup) :
    ContractedTo p (nodes (reorder (isLeaf leafId) roots)) roots (keep p (reorder (isLeaf leafId) roots)) := by
  have hnd : (nodes (reorder (isLeaf leafId) roots)).Nodup := (nodes_reorder_perm _ roots).nodup_iff.mpr hnodup
  refine ⟨nodes_keep p _, fun t ht b hb => ?_, fun s hs c hc => ?_⟩
  · rw [← above_reorder]
    exact keep_root hnd ht hb
  · have h := keep_nearest hnd hs hc
    simpa only [above_reorder] using h

/-- At most one node is the current leaf. -/
theorem countP_isLeaf_le {roots : List SessionTreeNode} (hnodup : (nodeIds roots).Nodup) :
    (nodes roots).countP (isLeaf leafId) ≤ 1 := by
  cases leafId with
  | none =>
    have hzero : (nodes roots).countP (isLeaf none) = 0 := List.countP_eq_zero.mpr fun n _ => by simp [isLeaf]
    omega
  | some id =>
    have hcount : (nodes roots).countP (isLeaf (some id)) = (nodeIds roots).count id := by
      rw [nodeIds, keys, List.count, List.countP_map]
      refine List.countP_congr fun n _ => ?_
      rw [isLeaf, decide_eq_true_eq, Option.some.injEq, Function.comp_apply, beq_iff_eq]
      exact eq_comm
    rw [hcount]
    exact List.nodup_iff_count_le_one.mp hnodup id

/-- What the filter leaves. -/
theorem filterNodes_eq {roots : List SessionTreeNode} {toLowerCase : String → String} {list : TreeList}
    (hagree : ParentsAgree roots) (hnodup : (nodeIds roots).Nodup)
    (hfolded : ∀ id ∈ list.foldedNodes, id ∈ nodeIds roots) (hflat : list.flatNodes.map FlatNode.node = nodes roots) :
    (filterNodes toLowerCase list).map FlatNode.node =
      (nodes roots).filter (isVisible toLowerCase list.currentLeafId list.filterMode list.searchQuery list.foldedNodes
        roots) := by
  have hmap : ∀ (q : SessionNode → Bool) (l : List FlatNode),
      (l.filter fun n => q n.node).map FlatNode.node = (l.map FlatNode.node).filter q := by
    intro q l
    rw [List.filter_map]
    rfl
  by_cases hnone : list.foldedNodes = []
  · rw [filterNodes, if_pos hnone, hmap, hflat, hnone]
    refine List.filter_congr fun n _ => ?_
    simp [isVisible, belowFolded]
  · rw [filterNodes, if_neg hnone, hmap (fun n => n.id ∉ skipSet list.foldedNodes (list.flatNodes.map FlatNode.node)), hmap,
      hflat, List.filter_filter]
    refine List.filter_congr fun n hn => ?_
    have hskip : n.id ∈ skipSet list.foldedNodes (nodes roots) ↔ belowFolded list.foldedNodes roots n = true := by
      rw [mem_skipSet hagree hnodup hfolded, belowFolded_iff]
      constructor
      · rintro ⟨m, hm, hid, h | h⟩
        · exact h.elim
        · exact List.inj_on_of_nodup_map hnodup hm hn hid ▸ h
      · exact fun h => ⟨n, hn, rfl, Or.inr h⟩
    rw [isVisible, Bool.and_comm, Bool.eq_iff_iff]
    simp [hskip]

theorem isVisible_reorder {roots : List SessionTreeNode} {toLowerCase : String → String} {mode : FilterMode}
    {searchQuery : String} {folded : List String} :
    isVisible toLowerCase leafId mode searchQuery folded (reorder (isLeaf leafId) roots) =
      isVisible toLowerCase leafId mode searchQuery folded roots := by
  funext n
  have h : belowFolded folded (reorder (isLeaf leafId) roots) n = belowFolded folded roots n := by
    rw [Bool.eq_iff_iff, belowFolded_iff, belowFolded_iff]
    simp only [above_reorder]
  rw [isVisible, isVisible, h]

/-- **The filtered session tree is the contracted tree.** The tree is listed with every node once, parents
before children and the branch with the current leaf before its siblings; what the filter, the search and
the folded nodes leave is in that order; and it is drawn as the tree is drawn in which every visible node
hangs from its nearest visible ancestor. -/
theorem filtered_contracted {roots : List SessionTreeNode} (leafId : Option String) (hagree : ParentsAgree roots)
    (hnodup : (nodeIds roots).Nodup) : ∃ flatNodes, flattenTree (1 < roots.length) leafId roots = some flatNodes ∧
      (flatNodes.map FlatNode.node).Perm (nodes roots) ∧
      (∀ s ∈ subtrees roots, ∀ c ∈ s.children, [s.value, c.value].Sublist (flatNodes.map FlatNode.node)) ∧
      (∀ siblings, (siblings = roots ∨ ∃ s ∈ subtrees roots, siblings = s.children) → ∀ a ∈ siblings, ∀ b ∈ siblings,
        b ≠ a → (∃ id, leafId = some id ∧ id ∈ nodeIds [a]) → [a.value, b.value].Sublist (flatNodes.map FlatNode.node)) ∧
      ∀ (toLowerCase : String → String) (list : TreeList), list.flatNodes.map FlatNode.node = flatNodes.map FlatNode.node →
        list.currentLeafId = leafId → (∀ id ∈ list.foldedNodes, id ∈ nodeIds roots) →
        let shown := isVisible toLowerCase leafId list.filterMode list.searchQuery list.foldedNodes roots
        ∃ list' visible, applyFilter toLowerCase list = some list' ∧
          list'.filteredNodes.map FlatNode.node = (flatNodes.map FlatNode.node).filter shown ∧
          ContractedTo shown (flatNodes.map FlatNode.node) roots visible ∧
          flattenTree (1 < visible.length) leafId visible = some list'.filteredNodes := by
  obtain ⟨items, hitems, -⟩ := flatItems_walk leafId roots
  have hnodes : (items.map StackItem.flatNode).map FlatNode.node = nodes (reorder (isLeaf leafId) roots) := by
    rw [List.map_map, ← flatItems_nodes hitems]
    rfl
  have hflatten : flattenTree (1 < roots.length) leafId roots = some (items.map StackItem.flatNode) := by
    rw [flattenTree_eq, hitems, Option.map_some]
  have hcount : (nodes roots).countP (isLeaf leafId) ≤ 1 := countP_isLeaf_le hnodup
  refine ⟨items.map StackItem.flatNode, hflatten, ?_, ?_, ?_, ?_⟩
  · rw [hnodes]
    exact nodes_reorder_perm _ roots
  · intro s hs c hc
    rw [hnodes]
    have hs' : s.reorderOf (isLeaf leafId) ∈ subtrees (reorder (isLeaf leafId) roots) :=
      (subtrees_reorder_perm _ roots).mem_iff.mpr (List.mem_map_of_mem hs)
    have hc' : c.reorderOf (isLeaf leafId) ∈ (s.reorderOf (isLeaf leafId)).children := by
      rw [children_reorderOf, reorder_eq]
      exact List.mem_map_of_mem ((markedFirst_perm _ _).mem_iff.mpr hc)
    have h := sublist_of_child hs' hc'
    rwa [value_reorderOf, value_reorderOf] at h
  · rintro siblings hsiblings a ha b hb hab ⟨id, rfl, hid⟩
    rw [hnodes]
    refine sublist_of_sibling hcount hsiblings ha hb hab ?_
    obtain ⟨n, hn, rfl⟩ := List.mem_map.mp hid
    refine has_iff.mpr ⟨n, ?_, by simp [isLeaf]⟩
    cases a with
    | node v cs => simpa [nodes_cons] using hn
  · intro toLowerCase list hlist hleaf hfolded shown
    rw [hnodes] at hlist ⊢
    have hagree' : ParentsAgree (reorder (isLeaf leafId) roots) := hagree.reorder
    have hnodup' : (nodeIds (reorder (isLeaf leafId) roots)).Nodup := (nodeIds_reorder_perm roots).nodup_iff.mpr hnodup
    have hleft : (filterNodes toLowerCase list).map FlatNode.node =
        (nodes (reorder (isLeaf leafId) roots)).filter shown := by
      rw [filterNodes_eq hagree' hnodup' (fun id hid => (nodeIds_reorder_perm roots).mem_iff.mpr (hfolded id hid)) hlist,
        hleaf, isVisible_reorder]
    have hlist₁ : ({ list with filteredNodes := filterNodes toLowerCase list } : TreeList).flatNodes.map FlatNode.node =
        nodes (reorder (isLeaf leafId) roots) := hlist
    obtain ⟨list', hlist', hfiltered, hdrawn⟩ :=
      recalculateVisualStructure_eq hagree' hnodup' (headFirst_reorder hcount) hlist₁ hleft
    exact ⟨list', _, hlist', hfiltered, contractedTo_keep (List.Nodup.of_map _ hnodup), hdrawn⟩

/-- A prompt, a label below it, and two branches below the label. -/
def branchedTree : List SessionTreeNode :=
  let prompt (id : String) (parentId : Option String) : SessionNode :=
    ⟨⟨id, parentId, "", .message (.user (.text id) 0)⟩, none⟩
  let label : SessionNode := ⟨⟨"b", some "a", "", .label "a" none⟩, none⟩
  [node (prompt "a" none) [node label [node (prompt "c" (some "b")) [], node (prompt "d" (some "b")) []]]]

/-- The branches hang from the prompt when the label is not shown, the current one first. -/
theorem filtered_contracted_branched : ∃ flatNodes, flattenTree false (some "d") branchedTree = some flatNodes ∧
    flatNodes.map (·.node.id) = ["a", "b", "d", "c"] ∧
    ∃ list' visible, applyFilter id ⟨flatNodes, [], some "d", .default, "", [], false, .empty, .empty⟩ = some list' ∧
      list'.filteredNodes.map (·.node.id) = ["a", "d", "c"] ∧
      flattenTree (1 < visible.length) (some "d") visible = some list'.filteredNodes := by
  have hagree : ParentsAgree branchedTree :=
    ⟨by simp [Linked, branchedTree, subtrees_cons, SessionNode.id], by simp [branchedTree]⟩
  obtain ⟨flatNodes, hflat, -, -, -, hfilter⟩ := filtered_contracted (some "d") hagree (by decide)
  obtain ⟨list', visible, hlist', hfiltered, -, hdrawn⟩ :=
    hfilter id ⟨flatNodes, [], some "d", .default, "", [], false, .empty, .empty⟩ rfl rfl (by simp)
  have hrun : (flattenTree false (some "d") branchedTree).map (fun flatNodes => (flatNodes.map (·.node.id),
      ((flatNodes.map FlatNode.node).filter (isVisible id (some "d") .default "" [] branchedTree)).map SessionNode.id)) =
        some (["a", "b", "d", "c"], ["a", "d", "c"]) := by decide +kernel
  have hflat' : flattenTree false (some "d") branchedTree = some flatNodes := hflat
  rw [hflat', Option.map_some, Option.some.injEq, Prod.mk.injEq] at hrun
  refine ⟨flatNodes, hflat', hrun.1, list', visible, hlist', ?_, hdrawn⟩
  rw [← hrun.2, ← hfiltered, List.map_map]
  rfl

end Trek
