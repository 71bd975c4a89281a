/-
# Lineages: the way from a root to a node along parents

Nodes of any type with a partial `parent` function. `Lineage parent a p` says
that `p` is the list of nodes from a root to `a`, each the parent of the next;
`climb` collects it by walking the parents of `a`, which is how a program reads
a path out of a tree kept as parent pointers. A walk that does not end has no
lineage: a lineage never repeats a node (`Lineage.nodup`), so over finitely many
nodes the walk that has not ended after that many steps never ends
(`climb_eq_some_iff`).
-/
import Mathlib.Data.List.Chain
import Mathlib.Data.List.Nodup
import Mathlib.Data.List.Perm.Subperm
import Mathlib.Logic.Relation

namespace Trek

variable {α : Type*} {parent parent' : α → Option α} {a b : α} {p q : List α}

/-- `p` is the path from a root to `a`. -/
inductive Lineage (parent : α → Option α) : α → List α → Prop
  | root {a : α} : parent a = none → Lineage parent a [a]
  | child {a b : α} {p : List α} : parent a = some b → Lineage parent b p → Lineage parent a (p ++ [a])

/-- Walks the parents of `a`, at most `n` nodes; `none` if the walk has not
ended by then. -/
def climb (parent : α → Option α) : ℕ → α → Option (List α)
  | 0, _ => none
  | n + 1, a =>
    match parent a with
    | none => some [a]
    | some b => (climb parent n b).map (· ++ [a])

namespace Lineage

theorem ne_nil (h : Lineage parent a p) : p ≠ [] := by
  cases h <;> simp

theorem getLast? (h : Lineage parent a p) : p.getLast? = some a := by
  cases h <;> simp

theorem mem (h : Lineage parent a p) : a ∈ p := List.mem_of_getLast? h.getLast?

/-- There is at most one path to a node. -/
theorem unique (h : Lineage parent a p) : ∀ {q}, Lineage parent a q → p = q := by
  induction h with
  | root h0 =>
    intro q hq
    cases hq with
    | root => rfl
    | child h1 _ => rw [h0] at h1; cases h1
  | child h0 _ ih =>
    intro q hq
    cases hq with
    | root h1 => rw [h0] at h1; cases h1
    | child h1 hq =>
      rw [h0, Option.some.injEq] at h1
      subst h1
      rw [ih hq]

/-- Every node of the path has the part of the path up to it as its own. -/
theorem prefix_of_mem (h : Lineage parent a p) :
    ∀ x ∈ p, ∃ q, Lineage parent x q ∧ q <+: p := by
  induction h with
  | root h0 =>
    intro x hx
    rw [List.mem_singleton.mp hx]
    exact ⟨_, .root h0, List.prefix_refl _⟩
  | child h0 hp ih =>
    intro x hx
    rcases List.mem_append.mp hx with hx | hx
    · obtain ⟨q, hq, hqp⟩ := ih x hx
      exact ⟨q, hq, hqp.trans (List.prefix_append _ _)⟩
    · rw [List.mem_singleton.mp hx]
      exact ⟨_, .child h0 hp, List.prefix_refl _⟩

/-- A node is not on the path to its own parent. -/
theorem not_mem (h : Lineage parent b p) (hab : parent a = some b) : a ∉ p := by
  intro ha
  obtain ⟨q, hq, hqp⟩ := h.prefix_of_mem a ha
  have hlen := hqp.length_le
  rw [hq.unique (.child hab h), List.length_append, List.length_singleton] at hlen
  omega

theorem nodup (h : Lineage parent a p) : p.Nodup := by
  induction h with
  | root => simp
  | child h0 hp ih =>
    exact List.nodup_append.mpr ⟨ih, by simp, by
      intro x hx y hy hxy
      rw [List.mem_singleton] at hy
      exact hp.not_mem h0 (hy ▸ hxy ▸ hx)⟩

/-- Nodes closed under `parent` contain the path of each of them. -/
theorem subset {s : List α} (hs : ∀ x ∈ s, ∀ y, parent x = some y → y ∈ s) (h : Lineage parent a p)
    (ha : a ∈ s) : p ⊆ s := by
  induction h with
  | root => simpa using ha
  | child h0 _ ih =>
    intro x hx
    rcases List.mem_append.mp hx with hx | hx
    · exact ih (hs _ ha _ h0) hx
    · rw [List.mem_singleton.mp hx]; exact ha

theorem length_le {s : List α} (hs : ∀ x ∈ s, ∀ y, parent x = some y → y ∈ s) (h : Lineage parent a p)
    (ha : a ∈ s) : p.length ≤ s.length :=
  (h.nodup.subperm (h.subset hs ha)).length_le

/-- The path depends on the parents of the nodes on it only. -/
theorem congr (h : Lineage parent a p) : (∀ x ∈ p, parent' x = parent x) → Lineage parent' a p := by
  induction h with
  | root h0 => intro he; exact .root (by rw [he _ (by simp), h0])
  | child h0 _ ih =>
    intro he
    exact .child (by rw [he _ (by simp), h0]) (ih fun x hx => he x (by simp [hx]))

/-- A map of nodes that goes along with the parents takes paths to paths. -/
theorem map {β : Type*} {parent' : β → Option β} (f : α → β) (hf : ∀ x, parent' (f x) = (parent x).map f)
    (h : Lineage parent a p) : Lineage parent' (f a) (p.map f) := by
  induction h with
  | root h0 => exact .root (by rw [hf, h0]; rfl)
  | child h0 _ ih =>
    rw [List.map_append]
    exact .child (by rw [hf, h0]; rfl) ih

/-- The first node of the path is a root, and each is the parent of the next. -/
theorem iff_chain : Lineage parent a p ↔ p.getLast? = some a ∧ (∀ x ∈ p.head?, parent x = none) ∧
    p.IsChain fun x y => parent y = some x := by
  constructor
  · intro h
    refine ⟨h.getLast?, ?_⟩
    induction h with
    | root h0 => simp [h0]
    | @child a b p h0 hp ih =>
      refine ⟨?_, ?_⟩
      · rw [List.head?_append_of_ne_nil _ hp.ne_nil]; exact ih.1
      · rw [List.isChain_append]
        refine ⟨ih.2, by simp, fun x hx y hy => ?_⟩
        rw [hp.getLast?] at hx
        simp only [Option.mem_def, Option.some.injEq, List.head?_cons] at hx hy
        rw [← hx, ← hy, h0]
  · rintro ⟨hl, hr, hc⟩
    induction p using List.reverseRecOn generalizing a with
    | nil => simp at hl
    | append_singleton p x ih =>
      simp only [List.getLast?_append, List.getLast?_singleton, Option.some_or, Option.some.injEq] at hl
      subst hl
      rw [List.isChain_append] at hc
      rcases List.eq_nil_or_concat p with rfl | ⟨p', y, rfl⟩
      · exact .root (hr x (by simp))
      · refine .child (hc.2.2 y (by simp) x (by simp)) (ih (by simp) ?_ hc.1)
        intro z hz
        refine hr z ?_
        rwa [List.head?_append_of_ne_nil _ (by simp)]

/-- The path to the end of a chain of descendants of `a` is the path to `a` and
that chain. -/
theorem split (hq : (a :: q).IsChain fun x y => parent y = some x) :
    ∀ {b p}, (a :: q).getLast? = some b → Lineage parent b p → ∃ r, Lineage parent a r ∧ p = r ++ q := by
  induction q using List.reverseRecOn with
  | nil =>
    intro b p hb hp
    rw [List.getLast?_singleton, Option.some.injEq] at hb
    exact ⟨p, hb ▸ hp, by simp⟩
  | append_singleton q x ih =>
    intro b p hb hp
    rw [← List.cons_append, List.getLast?_append, List.getLast?_singleton, Option.some_or,
      Option.some.injEq] at hb
    subst hb
    rw [← List.cons_append, List.isChain_append] at hq
    obtain ⟨y, hy⟩ : ∃ y, (a :: q).getLast? = some y := ⟨_, List.getLast?_cons⟩
    have hxy : parent x = some y := hq.2.2 y hy x (by simp)
    cases hp with
    | root h0 => rw [h0] at hxy; cases hxy
    | child h0 hp =>
      rw [hxy, Option.some.injEq] at h0
      subst h0
      obtain ⟨r, hr, rfl⟩ := ih hq.1 hy hp
      exact ⟨r, hr, by simp⟩

/-- Every proper ancestor has a shorter path. -/
theorem of_ancestor (hab : Relation.TransGen (fun x y => parent x = some y) a b) :
    ∀ {p}, Lineage parent a p → ∃ q, Lineage parent b q ∧ q.length < p.length := by
  induction hab with
  | single h =>
    intro p hp
    cases hp with
    | root h0 => rw [h0] at h; cases h
    | child h0 hq =>
      rw [h, Option.some.injEq] at h0
      exact ⟨_, h0 ▸ hq, by simp⟩
  | tail _ h ih =>
    intro p hp
    obtain ⟨q, hq, hlt⟩ := ih hp
    cases hq with
    | root h0 => rw [h0] at h; cases h
    | child h0 hr =>
      rw [h, Option.some.injEq] at h0
      refine ⟨_, h0 ▸ hr, ?_⟩
      rw [List.length_append, List.length_singleton] at hlt
      omega

/-- A node with a path is not its own ancestor. -/
theorem not_ancestor_self (h : Lineage parent a p) :
    ¬ Relation.TransGen (fun x y => parent x = some y) a a := by
  intro haa
  obtain ⟨q, hq, hlt⟩ := of_ancestor haa h
  rw [hq.unique h] at hlt
  exact lt_irrefl _ hlt

/-- Two paths that share a node, with none of the first path after it on the second: up to that node the
second path is the first one, and what comes after it there is not on the second. -/
theorem split_common {q before after : List α} {c : α} (hp : Lineage parent a p) (hq : Lineage parent b q)
    (hsplit : q = before ++ c :: after) (hc : c ∈ p) (hafter : ∀ x ∈ after, x ∉ p) :
    ∃ front rest, p = front ++ c :: rest ∧ ∀ x ∈ rest, x ∉ q := by
  obtain ⟨r, hr, ⟨rest, rfl⟩⟩ := hp.prefix_of_mem c hc
  obtain ⟨r', hr', ⟨rest', hrest'⟩⟩ := hq.prefix_of_mem c (by simp [hsplit])
  obtain rfl := hr.unique hr'
  obtain ⟨front, rfl⟩ : ∃ front, r = front ++ [c] := by
    cases hr with
    | root => exact ⟨[], rfl⟩
    | child => exact ⟨_, rfl⟩
  -- the shared node occurs once on the second path
  have hafter' : rest' = after := by
    have hnodup := hq.nodup
    rw [hsplit] at hrest' hnodup
    rw [List.append_assoc, List.singleton_append] at hrest'
    rcases List.append_eq_append_iff.mp hrest' with ⟨t, rfl, ht⟩ | ⟨t, rfl, ht⟩
    · cases t with
      | nil => exact (List.cons.inj ht).2
      | cons y t =>
        obtain ⟨rfl, -⟩ := List.cons.inj ht
        exact absurd hnodup (by simp [List.nodup_append])
    · cases t with
      | nil => exact (List.cons.inj ht).2.symm
      | cons y t =>
        obtain ⟨rfl, rfl⟩ := List.cons.inj ht
        exact absurd hnodup (by simp [List.nodup_append])
  refine ⟨front, rest, by simp, fun x hx hxq => ?_⟩
  rw [← hrest', List.mem_append] at hxq
  rcases hxq with hxr | hxr
  · exact (List.disjoint_of_nodup_append hp.nodup) hxr hx
  · exact hafter x (hafter' ▸ hxr) (List.mem_append_right _ hx)

end Lineage

/-! ### The walk -/

theorem climb_lineage : ∀ {n : ℕ} {a : α} {p : List α}, climb parent n a = some p → Lineage parent a p
  | 0, _, _, h => by simp [climb] at h
  | n + 1, a, p, h => by
    rw [climb] at h
    split at h
    · rename_i h0
      rw [Option.some.injEq] at h
      exact h ▸ .root h0
    · rename_i b h0
      obtain ⟨q, hq, rfl⟩ := Option.map_eq_some_iff.mp h
      exact .child h0 (climb_lineage hq)

theorem Lineage.climb (h : Lineage parent a p) : ∀ {n : ℕ}, p.length ≤ n → climb parent n a = some p := by
  induction h with
  | root h0 =>
    intro n hn
    obtain ⟨n, rfl⟩ : ∃ m, n = m + 1 := ⟨n - 1, by simp at hn; omega⟩
    simp [Trek.climb, h0]
  | child h0 _ ih =>
    intro n hn
    simp only [List.length_append, List.length_singleton] at hn
    obtain ⟨n, rfl⟩ : ∃ m, n = m + 1 := ⟨n - 1, by omega⟩
    simp [Trek.climb, h0, ih (n := n) (by omega)]

/-- Over finitely many nodes closed under `parent`, one step for each node is
enough: the walk ends if the node has a path at all. -/
theorem climb_eq_some_iff {s : List α} (hs : ∀ x ∈ s, ∀ y, parent x = some y → y ∈ s) (ha : a ∈ s)
    {n : ℕ} (hn : s.length ≤ n) : climb parent n a = some p ↔ Lineage parent a p :=
  ⟨climb_lineage, fun h => h.climb ((h.length_le hs ha).trans hn)⟩

end Trek
