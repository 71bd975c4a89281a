/-
# Rose trees

Forests of values, and the four things a program that draws one does with it: it walks it with an
explicit stack (`walk`, which on the children of the trees is the preorder, `walk_children`), it puts
the tree that holds a marked value before its siblings (`markedFirst`), it contracts the forest to the
values it shows (`keep`), so that a value hangs from its nearest kept ancestor (`keep_nearest`), and it
asks what stands above a value (`Above`). The facts are proved by induction over forests
(`forest_induction`): a first tree, its children, and its siblings.
-/
import Mathlib.Data.List.Nodup
import Mathlib.Data.List.Perm.Basic
import Mathlib.Data.List.Perm.Subperm

namespace Trek

/-- A tree of values. -/
inductive Rose (α : Type*)
  | node (value : α) (children : List (Rose α))

namespace Rose

variable {α σ τ : Type*}

/-- The value at the root. -/
def value : Rose α → α
  | .node v _ => v

/-- The trees below the root. -/
def children : Rose α → List (Rose α)
  | .node _ cs => cs

@[simp] theorem value_node (v : α) (cs : List (Rose α)) : (node v cs).value = v := rfl

@[simp] theorem children_node (v : α) (cs : List (Rose α)) : (node v cs).children = cs := rfl

/-- What holds of no trees, and of a first tree and its siblings if it does of its children and of the
siblings, holds of every forest. -/
theorem forest_induction {P : List (Rose α) → Prop} (nil : P [])
    (cons : ∀ v cs ts, P cs → P ts → P (node v cs :: ts)) : ∀ ts, P ts
  | [] => nil
  | .node v cs :: ts => cons v cs ts (forest_induction nil cons cs) (forest_induction nil cons ts)

/-! ### Preorder -/

mutual

/-- A tree and the trees in it, in preorder. -/
def subtreesOf : Rose α → List (Rose α)
  | .node v cs => .node v cs :: subtrees cs

/-- The trees of a forest, in preorder. -/
def subtrees : List (Rose α) → List (Rose α)
  | [] => []
  | t :: ts => t.subtreesOf ++ subtrees ts

end

/-- The values of a forest, in preorder. -/
def nodes (ts : List (Rose α)) : List α := (subtrees ts).map value

@[simp] theorem subtrees_nil : subtrees ([] : List (Rose α)) = [] := rfl

theorem subtrees_cons (v : α) (cs ts : List (Rose α)) :
    subtrees (node v cs :: ts) = node v cs :: (subtrees cs ++ subtrees ts) := rfl

@[simp] theorem nodes_nil : nodes ([] : List (Rose α)) = [] := rfl

theorem nodes_cons (v : α) (cs ts : List (Rose α)) : nodes (node v cs :: ts) = v :: (nodes cs ++ nodes ts) := by
  simp [nodes, subtrees_cons]

theorem subtrees_append : ∀ ss ts : List (Rose α), subtrees (ss ++ ts) = subtrees ss ++ subtrees ts
  | [], _ => rfl
  | .node v cs :: ss, ts => by simp [subtrees_cons, subtrees_append ss ts]

theorem nodes_append (ss ts : List (Rose α)) : nodes (ss ++ ts) = nodes ss ++ nodes ts := by
  rw [nodes, subtrees_append, List.map_append]
  rfl

theorem mem_nodes {ts : List (Rose α)} {x : α} : x ∈ nodes ts ↔ ∃ s ∈ subtrees ts, s.value = x := List.mem_map

theorem mem_subtrees_of_mem {t : Rose α} {ts : List (Rose α)} (h : t ∈ ts) : t ∈ subtrees ts := by
  obtain ⟨before, after, rfl⟩ := List.append_of_mem h
  cases t with
  | node v cs => simp [subtrees_append, subtrees_cons]

theorem value_mem_nodes {t : Rose α} {ts : List (Rose α)} (h : t ∈ ts) : t.value ∈ nodes ts :=
  mem_nodes.mpr ⟨t, mem_subtrees_of_mem h, rfl⟩

theorem subtrees_perm {ss ts : List (Rose α)} (h : ss.Perm ts) : (subtrees ss).Perm (subtrees ts) := by
  induction h with
  | nil => exact List.Perm.refl _
  | cons t _ ih => exact ih.append_left _
  | swap s t ts =>
    change (t.subtreesOf ++ (s.subtreesOf ++ subtrees ts)).Perm (s.subtreesOf ++ (t.subtreesOf ++ subtrees ts))
    rw [← List.append_assoc, ← List.append_assoc]
    exact List.perm_append_comm.append_right _
  | trans _ _ ih₁ ih₂ => exact ih₁.trans ih₂

theorem nodes_perm {ss ts : List (Rose α)} (h : ss.Perm ts) : (nodes ss).Perm (nodes ts) := (subtrees_perm h).map value

/-- The forest below a tree of a forest is a stretch of its preorder, right after the value of the tree. -/
theorem infix_of_mem_subtrees {s : Rose α} : ∀ {ts : List (Rose α)}, s ∈ subtrees ts →
    s.value :: nodes s.children <:+: nodes ts := by
  intro ts
  induction ts using forest_induction with
  | nil => simp
  | cons v cs ts ihc iht =>
    intro hs
    rw [subtrees_cons, List.mem_cons, List.mem_append] at hs
    rw [nodes_cons]
    rcases hs with rfl | hs | hs
    · exact ⟨[], nodes ts, by simp⟩
    · exact (ihc hs).trans ⟨[v], nodes ts, by simp⟩
    · exact (iht hs).trans ⟨v :: nodes cs, [], by simp⟩

theorem nodes_children_subset {s : Rose α} {ts : List (Rose α)} (hs : s ∈ subtrees ts) : nodes s.children ⊆ nodes ts :=
  fun _ hx => (infix_of_mem_subtrees hs).subset (List.mem_cons_of_mem _ hx)

theorem subtrees_children_subset {s : Rose α} {ts : List (Rose α)} (hs : s ∈ subtrees ts) :
    subtrees s.children ⊆ subtrees ts := by
  induction ts using forest_induction with
  | nil => exact absurd hs List.not_mem_nil
  | cons v cs ts ihc iht =>
    rw [subtrees_cons, List.mem_cons, List.mem_append] at hs
    intro x hx
    rw [subtrees_cons, List.mem_cons, List.mem_append]
    rcases hs with rfl | hs | hs
    · exact Or.inr (Or.inl hx)
    · exact Or.inr (Or.inl (ihc hs hx))
    · exact Or.inr (Or.inr (iht hs hx))

/-- A tree comes before the trees below it. -/
theorem sublist_of_child {s c : Rose α} {ts : List (Rose α)} (hs : s ∈ subtrees ts) (hc : c ∈ s.children) :
    [s.value, c.value].Sublist (nodes ts) := by
  have hbelow : [c.value].Sublist (nodes s.children) := List.singleton_sublist.mpr (value_mem_nodes hc)
  exact (hbelow.cons_cons s.value).trans (infix_of_mem_subtrees hs).sublist

/-! ### What stands above a value -/

/-- `a` is a proper ancestor of `x`. -/
def Above (ts : List (Rose α)) (a x : α) : Prop := ∃ s ∈ subtrees ts, s.value = a ∧ x ∈ nodes s.children

theorem above_cons {v a x : α} {cs ts : List (Rose α)} :
    Above (node v cs :: ts) a x ↔ v = a ∧ x ∈ nodes cs ∨ Above cs a x ∨ Above ts a x := by
  simp only [Above, subtrees_cons, List.mem_cons, List.mem_append, or_and_right, exists_or, exists_eq_left, value_node,
    children_node]

theorem Above.mem {a x : α} {ts : List (Rose α)} (h : Above ts a x) : x ∈ nodes ts := by
  obtain ⟨s, hs, -, hx⟩ := h
  exact nodes_children_subset hs hx

theorem Above.mem_left {a x : α} {ts : List (Rose α)} (h : Above ts a x) : a ∈ nodes ts := by
  obtain ⟨s, hs, rfl, -⟩ := h
  exact mem_nodes.mpr ⟨s, hs, rfl⟩

/-! ### Walking with a stack -/

/-- The loop that pops an item and pushes what `expand` says, the first one on top: the items in the
order they were popped, `none` if the stack is not empty after `n` of them. -/
def walk (expand : σ → List σ) : ℕ → List σ → Option (List σ)
  | _, [] => some []
  | 0, _ :: _ => none
  | n + 1, item :: stack => (walk expand n (expand item ++ stack)).map (item :: ·)

/-- A walk is followed by the walk of the images. -/
theorem walk_map {expand : σ → List σ} {expand' : τ → List τ} (f : σ → τ) {R : σ → Prop}
    (hkeep : ∀ x, R x → ∀ y ∈ expand x, R y) (hexpand : ∀ x, R x → expand' (f x) = (expand x).map f) :
    ∀ (n : ℕ) (stack : List σ), (∀ x ∈ stack, R x) →
      walk expand' n (stack.map f) = (walk expand n stack).map (List.map f)
  | 0, [], _ | _ + 1, [], _ => rfl
  | 0, _ :: _, _ => rfl
  | n + 1, item :: stack, hstack => by
    have hitem : R item := hstack item List.mem_cons_self
    have hnext : ∀ x ∈ expand item ++ stack, R x := by
      intro x hx
      rcases List.mem_append.mp hx with hx | hx
      · exact hkeep item hitem x hx
      · exact hstack x (List.mem_cons_of_mem _ hx)
    have ih := walk_map f hkeep hexpand n (expand item ++ stack) hnext
    rw [List.map_append, ← hexpand item hitem] at ih
    rw [List.map_cons, walk, walk, ih]
    simp [Option.map_map, Function.comp_def]

/-- **Walking down the children is the preorder.** -/
theorem walk_children : ∀ (n : ℕ) (ts : List (Rose α)), (subtrees ts).length ≤ n →
    walk children n ts = some (subtrees ts)
  | 0, [], _ | _ + 1, [], _ => rfl
  | 0, .node v cs :: ts, h => by simp [subtrees_cons] at h
  | n + 1, .node v cs :: ts, h => by
    rw [subtrees_cons, List.length_cons, Nat.add_le_add_iff_right] at h
    rw [walk, children_node, walk_children n (cs ++ ts) (by rwa [subtrees_append]), subtrees_append]
    rfl

/-! ### The marked tree first -/

/-- Elements sorted by a flag are those that have it, then the others. -/
theorem eq_filter_append_of_flagged {q : α → Bool} : ∀ {l : List α},
    (l.Pairwise fun a b => (q b).toNat ≤ (q a).toNat) → l = l.filter q ++ l.filter fun x => !q x
  | [], _ => rfl
  | a :: l, h => by
    rw [List.pairwise_cons] at h
    have ih : l.filter q ++ l.filter (fun x => !q x) = l := (eq_filter_append_of_flagged h.2).symm
    cases hq : q a with
    | true => rw [List.filter_cons_of_pos hq, List.filter_cons_of_neg (by simp [hq]), List.cons_append, ih]
    | false =>
      have hnone : l.filter q = [] := by
        refine List.filter_eq_nil_iff.mpr fun b hb hqb => ?_
        have hle := h.1 b hb
        rw [hq, hqb] at hle
        exact absurd hle (by decide)
      rw [hnone, List.nil_append] at ih
      rw [List.filter_cons_of_neg (by simp [hq]), List.filter_cons_of_pos (by simp [hq]), hnone, ih, List.nil_append]

/-- A stable sort by a flag puts those that have it first. -/
theorem mergeSort_flagged (q : α → Bool) (l : List α) :
    (l.mergeSort fun a b => (q b).toNat ≤ (q a).toNat) = l.filter q ++ l.filter fun x => !q x := by
  set le : α → α → Bool := fun a b => (q b).toNat ≤ (q a).toNat with hle
  have htrans : ∀ a b c, le a b = true → le b c = true → le a c = true := by
    intro a b c
    simp only [hle, decide_eq_true_eq]
    exact fun h₁ h₂ => Nat.le_trans h₂ h₁
  have htotal : ∀ a b, (le a b || le b a) = true := by
    intro a b
    simp only [hle, Bool.or_eq_true, decide_eq_true_eq]
    exact Nat.le_total _ _
  -- what agrees in the flag is a sorted sublist, and stays one
  have hstable : ∀ p : α → Bool, (∀ a b, p a = true → p b = true → q a = q b) →
      (l.mergeSort le).filter p = l.filter p := by
    intro p hp
    have hsorted : (l.filter p).Pairwise fun a b => le a b = true := by
      refine List.pairwise_of_forall_mem_list fun a ha b hb => ?_
      rw [hle, decide_eq_true_eq]
      exact Nat.le_of_eq (congrArg Bool.toNat (hp b a (List.mem_filter.mp hb).2 (List.mem_filter.mp ha).2))
    have hsub := (List.sublist_mergeSort htrans htotal hsorted List.filter_sublist).filter p
    rw [List.filter_filter, show (fun a => p a && p a) = p from funext fun a => Bool.and_self _] at hsub
    exact (hsub.eq_of_length ((List.mergeSort_perm l le).filter p).length_eq.symm).symm
  have hresult := List.pairwise_mergeSort htrans htotal l
  simp only [hle, decide_eq_true_eq] at hresult
  refine (eq_filter_append_of_flagged hresult).trans ?_
  rw [hstable q fun a b ha hb => ha.trans hb.symm, hstable (fun a => !q a) fun a b ha hb => by
    rw [Bool.not_eq_true'] at ha hb
    exact ha.trans hb.symm]

mutual

/-- Some value of the tree is marked. -/
def has (q : α → Bool) : Rose α → Bool
  | .node v cs => q v || anyHas q cs

/-- Some value of the forest is marked. -/
def anyHas (q : α → Bool) : List (Rose α) → Bool
  | [] => false
  | t :: ts => t.has q || anyHas q ts

end

variable {q : α → Bool}

theorem anyHas_eq (q : α → Bool) (ts : List (Rose α)) : anyHas q ts = (nodes ts).any q := by
  induction ts using forest_induction with
  | nil => rfl
  | cons v cs ts ihc iht => rw [anyHas, has, ihc, iht, nodes_cons, List.any_cons, List.any_append, Bool.or_assoc]

theorem has_eq (q : α → Bool) (t : Rose α) : t.has q = (q t.value || (nodes t.children).any q) := by
  cases t with
  | node v cs => rw [has, anyHas_eq]; rfl

theorem has_iff {t : Rose α} : t.has q = true ↔ ∃ x ∈ t.value :: nodes t.children, q x = true := by
  rw [has_eq]
  simp

/-- The trees with a marked value, then the others. -/
def markedFirst (q : α → Bool) (ts : List (Rose α)) : List (Rose α) :=
  ts.filter (·.has q) ++ ts.filter fun t => !t.has q

mutual

/-- A tree with the marked one first among all siblings in it. -/
def reorderOf (q : α → Bool) : Rose α → Rose α
  | .node v cs => .node v (markedFirst q (reorderAll q cs))

/-- The trees with the marked one first among all siblings in them. -/
def reorderAll (q : α → Bool) : List (Rose α) → List (Rose α)
  | [] => []
  | t :: ts => t.reorderOf q :: reorderAll q ts

end

/-- The forest with the marked tree first among all siblings. -/
def reorder (q : α → Bool) (ts : List (Rose α)) : List (Rose α) := markedFirst q (reorderAll q ts)

theorem reorderAll_eq_map (q : α → Bool) : ∀ ts : List (Rose α), reorderAll q ts = ts.map (reorderOf q)
  | [] => rfl
  | t :: ts => by rw [reorderAll, reorderAll_eq_map q ts, List.map_cons]

@[simp] theorem value_reorderOf (t : Rose α) : (t.reorderOf q).value = t.value := by
  cases t with
  | node v cs => rfl

theorem children_reorderOf (t : Rose α) : (t.reorderOf q).children = reorder q t.children := by
  cases t with
  | node v cs => rfl

theorem markedFirst_perm (q : α → Bool) (ts : List (Rose α)) : (markedFirst q ts).Perm ts :=
  List.filter_append_perm _ _

theorem subtrees_reorderAll_perm (q : α → Bool) (ts : List (Rose α)) :
    (subtrees (reorderAll q ts)).Perm ((subtrees ts).map (reorderOf q)) := by
  induction ts using forest_induction with
  | nil => exact List.Perm.refl _
  | cons v cs ts ihc iht =>
    rw [reorderAll, subtrees_cons, List.map_cons, List.map_append, reorderOf, subtrees_cons]
    exact (((subtrees_perm (markedFirst_perm q _)).trans ihc).append iht).cons _

/-- The trees stay, each of them in order. -/
theorem subtrees_reorder_perm (q : α → Bool) (ts : List (Rose α)) :
    (subtrees (reorder q ts)).Perm ((subtrees ts).map (reorderOf q)) :=
  (subtrees_perm (markedFirst_perm q _)).trans (subtrees_reorderAll_perm q ts)

theorem nodes_reorder_perm (q : α → Bool) (ts : List (Rose α)) : (nodes (reorder q ts)).Perm (nodes ts) := by
  have h := (subtrees_reorder_perm q ts).map value
  rwa [List.map_map, show value ∘ reorderOf q = value from funext value_reorderOf] at h

theorem above_reorder {ts : List (Rose α)} {a x : α} : Above (reorder q ts) a x ↔ Above ts a x := by
  simp only [Above, (subtrees_reorder_perm q ts).mem_iff, List.mem_map, exists_exists_and_eq_and, value_reorderOf,
    children_reorderOf, (nodes_reorder_perm q _).mem_iff]

theorem has_reorderOf (q : α → Bool) (t : Rose α) : (t.reorderOf q).has q = t.has q := by
  rw [has_eq, has_eq, value_reorderOf, children_reorderOf, (nodes_reorder_perm q t.children).any_eq]

/-- The siblings are put in order before or after the trees below them. -/
theorem reorder_eq (q : α → Bool) (ts : List (Rose α)) : reorder q ts = (markedFirst q ts).map (reorderOf q) := by
  rw [reorder, reorderAll_eq_map, markedFirst, markedFirst, List.map_append, List.filter_map, List.filter_map]
  simp only [Function.comp_def, has_reorderOf]

/-! ### At most one marked value -/

theorem has_iff_countP {t : Rose α} : t.has q = true ↔ 0 < (nodes [t]).countP q := by
  cases t with
  | node v cs =>
    rw [has_eq, nodes_cons, nodes_nil, List.append_nil, List.countP_pos_iff]
    simp

theorem countP_nodes_cons (t : Rose α) (ts : List (Rose α)) :
    (nodes (t :: ts)).countP q = (nodes [t]).countP q + (nodes ts).countP q := by
  rw [← List.countP_append, ← nodes_append, List.singleton_append]

/-- The trees after the first one hold no marked value. -/
def OnlyHead (q : α → Bool) (ts : List (Rose α)) : Prop := ∀ t ∈ ts.tail, t.has q = false

/-- Among all siblings of the forest only the first holds a marked value. -/
structure HeadFirst (q : α → Bool) (ts : List (Rose α)) : Prop where
  roots : OnlyHead q ts
  below : ∀ s ∈ subtrees ts, OnlyHead q s.children

theorem has_false_of_countP {ts : List (Rose α)} (h : (nodes ts).countP q = 0) {t : Rose α} (ht : t ∈ ts) :
    t.has q = false := by
  rw [Bool.eq_false_iff, ne_eq, has_iff_countP, Nat.not_lt, Nat.le_zero]
  obtain ⟨before, after, rfl⟩ := List.append_of_mem ht
  rw [nodes_append, List.countP_append, countP_nodes_cons] at h
  omega

/-- Of two different siblings one holds no marked value. -/
theorem has_false_of_ne {ts : List (Rose α)} (h : (nodes ts).countP q ≤ 1) {a b : Rose α} (ha : a ∈ ts) (hb : b ∈ ts)
    (hab : b ≠ a) (hq : a.has q = true) : b.has q = false := by
  obtain ⟨before, after, rfl⟩ := List.append_of_mem ha
  rw [nodes_append, List.countP_append, countP_nodes_cons] at h
  have hpos : 0 < (nodes [a]).countP q := has_iff_countP.mp hq
  rcases List.mem_append.mp hb with hb | hb
  · exact has_false_of_countP (by omega) hb
  · exact has_false_of_countP (by omega) ((List.mem_cons.mp hb).resolve_left hab)

theorem onlyHead_markedFirst {ts : List (Rose α)} (h : (nodes ts).countP q ≤ 1) : OnlyHead q (markedFirst q ts) := by
  intro t ht
  have hsplit : (markedFirst q ts).Perm ts := markedFirst_perm q ts
  rw [← (nodes_perm hsplit).countP_eq] at h
  unfold markedFirst at ht h
  cases hf : ts.filter (·.has q) with
  | nil =>
    rw [hf, List.nil_append] at ht
    simpa using (List.mem_filter.mp (List.mem_of_mem_tail ht)).2
  | cons a more =>
    rw [hf] at ht h
    have ha : a.has q = true := (List.mem_filter.mp (hf ▸ List.mem_cons_self : a ∈ ts.filter (·.has q))).2
    have hpos : 0 < (nodes [a]).countP q := has_iff_countP.mp ha
    rw [List.cons_append, countP_nodes_cons] at h
    rw [List.cons_append, List.tail_cons] at ht
    exact has_false_of_countP (by omega) ht

theorem countP_children_le {s : Rose α} {ts : List (Rose α)} (hs : s ∈ subtrees ts) :
    (nodes s.children).countP q ≤ (nodes ts).countP q :=
  ((List.sublist_cons_self _ _).trans (infix_of_mem_subtrees hs).sublist).countP_le

/-- With at most one marked value, the forest put in order has it in first trees only. -/
theorem headFirst_reorder {ts : List (Rose α)} (h : (nodes ts).countP q ≤ 1) : HeadFirst q (reorder q ts) := by
  have honly : ∀ us : List (Rose α), (nodes us).countP q ≤ 1 → OnlyHead q (reorder q us) := by
    intro us hus t ht
    rw [reorder_eq, ← List.map_tail, List.mem_map] at ht
    obtain ⟨u, hu, rfl⟩ := ht
    rw [has_reorderOf]
    exact onlyHead_markedFirst hus u hu
  refine ⟨honly ts h, fun s hs => ?_⟩
  obtain ⟨u, hu, rfl⟩ := List.mem_map.mp ((subtrees_reorder_perm q ts).mem_iff.mp hs)
  rw [children_reorderOf]
  exact honly u.children (Nat.le_trans (countP_children_le hu) h)

theorem markedFirst_eq_self {ts : List (Rose α)} (h : OnlyHead q ts) : markedFirst q ts = ts := by
  cases ts with
  | nil => rfl
  | cons t ts =>
    have hrest : ∀ u ∈ ts, u.has q = false := h
    have hnone : ts.filter (·.has q) = [] := List.filter_eq_nil_iff.mpr fun u hu => by simp [hrest u hu]
    have hall : ts.filter (fun u => !u.has q) = ts := List.filter_eq_self.mpr fun u hu => by simp [hrest u hu]
    cases ht : t.has q <;> simp [markedFirst, ht, hnone, hall]

theorem headFirst_nil : HeadFirst q ([] : List (Rose α)) := ⟨by simp [OnlyHead], by simp⟩

theorem headFirst_cons {v : α} {cs ts : List (Rose α)} :
    HeadFirst q (node v cs :: ts) ↔ (∀ t ∈ ts, t.has q = false) ∧ HeadFirst q cs ∧ HeadFirst q ts := by
  constructor
  · intro h
    have hbelow := h.below
    simp only [subtrees_cons, List.mem_cons, List.mem_append, or_imp, forall_and, forall_eq] at hbelow
    exact ⟨h.roots, ⟨hbelow.1, hbelow.2.1⟩, ⟨fun t ht => h.roots t (List.mem_of_mem_tail ht), hbelow.2.2⟩⟩
  · rintro ⟨hrest, hcs, hts⟩
    refine ⟨hrest, ?_⟩
    simp only [subtrees_cons, List.mem_cons, List.mem_append, or_imp, forall_and, forall_eq]
    exact ⟨hcs.roots, hcs.below, hts.below⟩

theorem reorder_eq_self {ts : List (Rose α)} (h : HeadFirst q ts) : reorder q ts = ts := by
  rw [reorder_eq, markedFirst_eq_self h.roots]
  induction ts using forest_induction with
  | nil => rfl
  | cons v cs ts ihc iht =>
    obtain ⟨-, hcs, hts⟩ := headFirst_cons.mp h
    have hroot : (node v cs).reorderOf q = node v cs := by
      change node v (reorder q cs) = node v cs
      rw [reorder_eq, markedFirst_eq_self hcs.roots, ihc hcs]
    rw [List.map_cons, hroot, iht hts]

theorem map_value_sublist (ts : List (Rose α)) : (ts.map value).Sublist (nodes ts) := by
  induction ts using forest_induction with
  | nil => exact List.Sublist.refl _
  | cons v cs ts _ iht =>
    rw [List.map_cons, nodes_cons]
    exact (iht.trans (List.sublist_append_right _ _)).cons_cons v

/-- A marked tree comes before its siblings in the forest put in order. -/
theorem sublist_of_sibling {ts siblings : List (Rose α)} (h : (nodes ts).countP q ≤ 1)
    (hs : siblings = ts ∨ ∃ s ∈ subtrees ts, siblings = s.children) {a b : Rose α} (ha : a ∈ siblings)
    (hb : b ∈ siblings) (hab : b ≠ a) (hq : a.has q = true) : [a.value, b.value].Sublist (nodes (reorder q ts)) := by
  have hcount : (nodes siblings).countP q ≤ 1 := by
    rcases hs with rfl | ⟨s, hs, rfl⟩
    · exact h
    · exact Nat.le_trans (countP_children_le hs) h
  have hhere : [a.value, b.value].Sublist (nodes (reorder q siblings)) := by
    have hbq : b.has q = false := has_false_of_ne hcount ha hb hab hq
    have hpair : [a, b].Sublist (markedFirst q siblings) :=
      (List.singleton_sublist.mpr (List.mem_filter.mpr ⟨ha, hq⟩)).append
        (List.singleton_sublist.mpr (List.mem_filter.mpr ⟨hb, by simp [hbq]⟩))
    have hvalues := (hpair.map (reorderOf q)).map value
    rw [← reorder_eq] at hvalues
    simpa using hvalues.trans (map_value_sublist _)
  rcases hs with rfl | ⟨s, hs, rfl⟩
  · exact hhere
  · have hmem : s.reorderOf q ∈ subtrees (reorder q ts) :=
      (subtrees_reorder_perm q ts).mem_iff.mpr (List.mem_map_of_mem hs)
    have hinfix := infix_of_mem_subtrees hmem
    rw [children_reorderOf] at hinfix
    exact hhere.trans ((List.sublist_cons_self _ _).trans hinfix.sublist)

/-! ### Contraction -/

mutual

/-- The kept values of a tree: at its root, or where its root is left out those below it. -/
def keepOf (p : α → Bool) : Rose α → List (Rose α)
  | .node v cs => if p v then [.node v (keep p cs)] else keep p cs

/-- The forest of the kept values; what hangs below a value that is left out moves up to its place. -/
def keep (p : α → Bool) : List (Rose α) → List (Rose α)
  | [] => []
  | t :: ts => t.keepOf p ++ keep p ts

end

variable {p : α → Bool} {v : α} {cs ts : List (Rose α)}

theorem keep_cons_of_pos (h : p v = true) : keep p (node v cs :: ts) = node v (keep p cs) :: keep p ts := by
  rw [keep, keepOf, if_pos h, List.singleton_append]

theorem keep_cons_of_neg (h : ¬p v = true) : keep p (node v cs :: ts) = keep p cs ++ keep p ts := by
  rw [keep, keepOf, if_neg h]

/-- The kept values stay in their order. -/
theorem nodes_keep (p : α → Bool) (ts : List (Rose α)) : nodes (keep p ts) = (nodes ts).filter p := by
  induction ts using forest_induction with
  | nil => rfl
  | cons v cs ts ihc iht =>
    by_cases h : p v = true
    · rw [keep_cons_of_pos h, nodes_cons, nodes_cons, ihc, iht, List.filter_cons_of_pos h, List.filter_append]
    · rw [keep_cons_of_neg h, nodes_append, nodes_cons, ihc, iht, List.filter_cons_of_neg h, List.filter_append]

theorem nodes_keep_subset (p : α → Bool) (ts : List (Rose α)) : nodes (keep p ts) ⊆ nodes ts := by
  rw [nodes_keep]
  exact List.filter_sublist.subset

/-- What stands above a value below `v`, in a forest that starts with the tree of `v`. -/
theorem above_of_mem_children (hnodup : (nodes (node v cs :: ts)).Nodup) {b x : α} (hx : x ∈ nodes cs) :
    Above (node v cs :: ts) b x ↔ v = b ∨ Above cs b x := by
  rw [nodes_cons, List.nodup_cons, List.nodup_append] at hnodup
  have hts : ¬Above ts b x := fun h => hnodup.2.2.2 x hx x h.mem rfl
  rw [above_cons]
  constructor
  · rintro (⟨rfl, -⟩ | h | h)
    · exact Or.inl rfl
    · exact Or.inr h
    · exact absurd h hts
  · rintro (rfl | h)
    · exact Or.inl ⟨rfl, hx⟩
    · exact Or.inr (Or.inl h)

/-- What stands above a value among the siblings after the first tree. -/
theorem above_of_mem_siblings (hnodup : (nodes (node v cs :: ts)).Nodup) {b x : α} (hx : x ∈ nodes ts) :
    Above (node v cs :: ts) b x ↔ Above ts b x := by
  rw [nodes_cons, List.nodup_cons, List.nodup_append] at hnodup
  have hcs : x ∉ nodes cs := fun h => hnodup.2.2.2 x h x hx rfl
  rw [above_cons]
  constructor
  · rintro (⟨-, h⟩ | h | h)
    · exact absurd h hcs
    · exact absurd h.mem hcs
    · exact h
  · exact fun h => Or.inr (Or.inr h)

theorem not_above_root (hnodup : (nodes (node v cs :: ts)).Nodup) {b : α} : ¬Above (node v cs :: ts) b v := by
  rw [nodes_cons, List.nodup_cons, List.mem_append, not_or] at hnodup
  rw [above_cons]
  rintro (⟨-, h⟩ | h | h)
  · exact hnodup.1.1 h
  · exact hnodup.1.1 h.mem
  · exact hnodup.1.2 h.mem

theorem nodup_children (hnodup : (nodes (node v cs :: ts)).Nodup) : (nodes cs).Nodup :=
  hnodup.sublist (by rw [nodes_cons]; exact (List.sublist_append_left _ _).trans (List.sublist_cons_self _ _))

theorem nodup_siblings (hnodup : (nodes (node v cs :: ts)).Nodup) : (nodes ts).Nodup :=
  hnodup.sublist (by rw [nodes_cons]; exact (List.sublist_append_right _ _).trans (List.sublist_cons_self _ _))

/-- No kept value stands above a root of the contraction. -/
theorem keep_root (hnodup : (nodes ts).Nodup) {t : Rose α} (ht : t ∈ keep p ts) {b : α} (hb : p b = true) :
    ¬Above ts b t.value := by
  induction ts using forest_induction with
  | nil => exact absurd ht List.not_mem_nil
  | cons v cs ts ihc iht =>
    have hcs : t ∈ keep p cs → ¬Above cs b t.value := ihc (nodup_children hnodup)
    have hts : t ∈ keep p ts → ¬Above (node v cs :: ts) b t.value := fun h => by
      rw [above_of_mem_siblings hnodup (nodes_keep_subset p ts (value_mem_nodes h))]
      exact iht (nodup_siblings hnodup) h
    by_cases hv : p v = true
    · rw [keep_cons_of_pos hv, List.mem_cons] at ht
      rcases ht with rfl | ht
      · exact not_above_root hnodup
      · exact hts ht
    · rw [keep_cons_of_neg hv, List.mem_append] at ht
      rcases ht with ht | ht
      · rw [above_of_mem_children hnodup (nodes_keep_subset p cs (value_mem_nodes ht))]
        rintro (rfl | h)
        · exact hv hb
        · exact hcs ht h
      · exact hts ht

/-- **In the contraction a value hangs from its nearest kept ancestor**: it is one, and every other is
above it. -/
theorem keep_nearest (hnodup : (nodes ts).Nodup) {s c : Rose α} (hs : s ∈ subtrees (keep p ts)) (hc : c ∈ s.children) :
    Above ts s.value c.value ∧ ∀ b, p b = true → Above ts b c.value → b = s.value ∨ Above ts b s.value := by
  induction ts using forest_induction with
  | nil => exact absurd hs List.not_mem_nil
  | cons v cs ts ihc iht =>
    -- a tree of the contracted forest below `v`, or beside it, has its ancestors there and `v`
    have hcs : s ∈ subtrees (keep p cs) → Above (node v cs :: ts) s.value c.value ∧
        ∀ b, p b = true → Above (node v cs :: ts) b c.value → b = s.value ∨ Above (node v cs :: ts) b s.value := by
      intro h
      obtain ⟨habove, hnearest⟩ := ihc (nodup_children hnodup) h
      rw [above_of_mem_children hnodup habove.mem]
      refine ⟨Or.inr habove, fun b hb hbc => ?_⟩
      rw [above_of_mem_children hnodup habove.mem] at hbc
      rw [above_of_mem_children hnodup habove.mem_left]
      rcases hbc with rfl | hbc
      · exact Or.inr (Or.inl rfl)
      · exact (hnearest b hb hbc).imp_right Or.inr
    have hts : s ∈ subtrees (keep p ts) → Above (node v cs :: ts) s.value c.value ∧
        ∀ b, p b = true → Above (node v cs :: ts) b c.value → b = s.value ∨ Above (node v cs :: ts) b s.value := by
      intro h
      obtain ⟨habove, hnearest⟩ := iht (nodup_siblings hnodup) h
      rw [above_of_mem_siblings hnodup habove.mem]
      refine ⟨habove, fun b hb hbc => ?_⟩
      rw [above_of_mem_siblings hnodup habove.mem] at hbc
      rw [above_of_mem_siblings hnodup habove.mem_left]
      exact hnearest b hb hbc
    by_cases hv : p v = true
    · rw [keep_cons_of_pos hv, subtrees_cons, List.mem_cons, List.mem_append] at hs
      rcases hs with rfl | hs | hs
      · have hmem : c.value ∈ nodes cs := nodes_keep_subset p cs (value_mem_nodes hc)
        rw [above_of_mem_children hnodup hmem]
        refine ⟨Or.inl rfl, fun b hb hbc => ?_⟩
        rw [above_of_mem_children hnodup hmem] at hbc
        rcases hbc with rfl | hbc
        · exact Or.inl rfl
        · exact absurd hbc (keep_root (nodup_children hnodup) hc hb)
      · exact hcs hs
      · exact hts hs
    · rw [keep_cons_of_neg hv, subtrees_append, List.mem_append] at hs
      exact hs.elim hcs hts

theorem unmarked_iff {us : List (Rose α)} : (∀ t ∈ us, t.has q = false) ↔ ∀ x ∈ nodes us, q x = false := by
  have hany : ∀ us : List (Rose α), anyHas q us = us.any (·.has q) := by
    intro us
    induction us with
    | nil => rfl
    | cons t us ih => rw [anyHas, ih, List.any_cons]
  have h : us.any (·.has q) = false ↔ (nodes us).any q = false := by rw [← hany, anyHas_eq]
  simpa using h

theorem HeadFirst.append : ∀ {ss ts : List (Rose α)}, HeadFirst q ss → HeadFirst q ts →
    (∀ t ∈ ts, t.has q = false) → HeadFirst q (ss ++ ts)
  | [], _, _, hts, _ => hts
  | .node v cs :: ss, ts, hss, hts, hrest => by
    obtain ⟨hss₁, hcs, hss₂⟩ := headFirst_cons.mp hss
    rw [List.cons_append]
    refine headFirst_cons.mpr ⟨fun t ht => ?_, hcs, hss₂.append hts hrest⟩
    exact (List.mem_append.mp ht).elim (hss₁ t) (hrest t)

/-- The contraction leaves the marked value in first trees. -/
theorem headFirst_keep (h : HeadFirst q ts) : HeadFirst q (keep p ts) := by
  induction ts using forest_induction with
  | nil => exact headFirst_nil
  | cons v cs ts ihc iht =>
    obtain ⟨hrest, hcs, hts⟩ := headFirst_cons.mp h
    have hunmarked : ∀ t ∈ keep p ts, t.has q = false :=
      unmarked_iff.mpr fun x hx => unmarked_iff.mp hrest x (nodes_keep_subset p ts hx)
    by_cases hv : p v = true
    · rw [keep_cons_of_pos hv]
      exact headFirst_cons.mpr ⟨hunmarked, ihc hcs, iht hts⟩
    · rw [keep_cons_of_neg hv]
      exact (ihc hcs).append (iht hts) hunmarked

/-! ### Parents in a list

A program that has only the list of a forest finds the trees again by the parent of each value. -/

variable {κ : Type*} {key : α → κ} {up : Option κ}

mutual

/-- The keys of a tree with the keys of their parents, in preorder, where its root hangs from `up`. -/
def linksOf (key : α → κ) (up : Option κ) : Rose α → List (κ × Option κ)
  | .node v cs => (key v, up) :: links key (some (key v)) cs

/-- The keys of a forest with the keys of their parents, in preorder, where its roots hang from `up`. -/
def links (key : α → κ) (up : Option κ) : List (Rose α) → List (κ × Option κ)
  | [] => []
  | t :: ts => t.linksOf key up ++ links key up ts

end

theorem links_cons : links key up (node v cs :: ts) = (key v, up) :: (links key (some (key v)) cs ++ links key up ts) := rfl

theorem links_append : ∀ ss ts : List (Rose α), links key up (ss ++ ts) = links key up ss ++ links key up ts
  | [], _ => rfl
  | .node v cs :: ss, ts => by simp [links_cons, links_append ss ts]

/-- The keys of a forest, in preorder. -/
def keys (key : α → κ) (ts : List (Rose α)) : List κ := (nodes ts).map key

theorem keys_cons : keys key (node v cs :: ts) = key v :: (keys key cs ++ keys key ts) := by
  simp [keys, nodes_cons]

variable [DecidableEq κ]

/-- Nothing hangs from what is not there. -/
theorem filter_links_eq_nil {k : Option κ} (hup : up ≠ k) (hk : ∀ x ∈ k, x ∉ keys key ts) :
    (links key up ts).filter (·.2 = k) = [] := by
  induction ts using forest_induction generalizing up with
  | nil => rfl
  | cons v cs ts ihc iht =>
    have hv : some (key v) ≠ k := fun h => hk (key v) h.symm (by simp [keys_cons])
    have hcs : ∀ x ∈ k, x ∉ keys key cs := fun x hx h => hk x hx (by simp [keys_cons, h])
    have hts : ∀ x ∈ k, x ∉ keys key ts := fun x hx h => hk x hx (by simp [keys_cons, h])
    rw [links_cons, List.filter_cons_of_neg (by simpa using hup), List.filter_append, ihc hv hcs, iht hup hts,
      List.append_nil]

/-- The roots are the values that hang from `up`. -/
theorem filter_links_up (hup : ∀ k ∈ up, k ∉ keys key ts) :
    (links key up ts).filter (·.2 = up) = ts.map fun t => (key t.value, up) := by
  induction ts using forest_induction with
  | nil => rfl
  | cons v cs ts _ iht =>
    have hcs : (links key (some (key v)) cs).filter (·.2 = up) = [] :=
      filter_links_eq_nil (fun h => hup (key v) h.symm (by simp [keys_cons]))
        fun k hk h => hup k hk (by simp [keys_cons, h])
    have hts : ∀ k ∈ up, k ∉ keys key ts := fun k hk h => hup k hk (by simp [keys_cons, h])
    rw [links_cons, List.filter_cons_of_pos (by simp), List.filter_append, hcs, iht hts, List.nil_append, List.map_cons,
      value_node]

/-- The children of a tree are the values that hang from its value. -/
theorem filter_links_subtree (hnodup : (keys key ts).Nodup) {s : Rose α} (hs : s ∈ subtrees ts)
    (hup : up ≠ some (key s.value)) :
    (links key up ts).filter (·.2 = some (key s.value)) = s.children.map fun t => (key t.value, some (key s.value)) := by
  induction ts using forest_induction generalizing up with
  | nil => exact absurd hs List.not_mem_nil
  | cons v cs ts ihc iht =>
    rw [keys_cons, List.nodup_cons, List.mem_append, not_or, List.nodup_append] at hnodup
    obtain ⟨⟨hvcs, hvts⟩, hcs, hts, hdisj⟩ := hnodup
    have hmem : ∀ {us : List (Rose α)}, s ∈ subtrees us → key s.value ∈ keys key us := fun h =>
      List.mem_map_of_mem (mem_nodes.mpr ⟨s, h, rfl⟩)
    rw [links_cons, List.filter_cons_of_neg (by simpa using hup), List.filter_append]
    rw [subtrees_cons, List.mem_cons, List.mem_append] at hs
    rcases hs with rfl | hs | hs
    · rw [value_node] at hup ⊢
      rw [filter_links_up (by simpa using hvcs), filter_links_eq_nil hup (by simpa using hvts), List.append_nil,
        children_node]
    · have hv : some (key v) ≠ some (key s.value) := fun h => hvcs (Option.some.inj h ▸ hmem hs)
      have hnil : (links key up ts).filter (·.2 = some (key s.value)) = [] :=
        filter_links_eq_nil hup fun x hx h => hdisj _ (hmem hs) x h (Option.some.inj hx)
      rw [ihc hcs hs hv, hnil, List.append_nil]
    · have hv : some (key v) ≠ some (key s.value) := fun h => hvts (Option.some.inj h ▸ hmem hs)
      have hnil : (links key (some (key v)) cs).filter (·.2 = some (key s.value)) = [] :=
        filter_links_eq_nil hv fun x hx h => hdisj x h _ (hmem hs) (Option.some.inj hx).symm
      rw [hnil, iht hts hs hup, List.nil_append]

end Rose

end Trek
