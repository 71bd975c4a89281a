/-
# Topological orders

`R a b` says that `a` depends on `b`. The greedy order of a list takes again and again the first element that depends on
none of those left (`Greedy`). It is a topological order (`Greedy.isTopoOrder`), and of all of these the one whose positions
come first (`Greedy.not_lt`). Where no element can be taken there is a cycle (`exists_cycle`), and elements of a cycle have no
topological order (`IsTopoOrder.not_cycle`).
-/
import Mathlib.Data.Set.Finite.List
import Mathlib.Order.WellFounded

namespace Trek

variable {α : Type*}

/-- A list of the elements of `xs` in which each comes after all elements it depends on. -/
structure IsTopoOrder (R : α → α → Prop) (xs l : List α) : Prop where
  perm : l.Perm xs
  first : ∀ before a after, l = before ++ a :: after → ∀ b ∈ xs, R a b → b ∈ before

/-- The first element that depends on none is taken, and then the others. -/
inductive Greedy (R : α → α → Prop) : List α → List α → Prop
  | nil : Greedy R [] []
  | next {before : List α} {a : α} {after l : List α} : (∀ b ∈ before ++ a :: after, ¬R a b) →
      (∀ c ∈ before, ∃ b ∈ before ++ a :: after, R c b) → Greedy R (before ++ after) l →
      Greedy R (before ++ a :: after) (a :: l)

variable {R : α → α → Prop} {xs l l' : List α}

theorem Greedy.isTopoOrder (h : Greedy R xs l) : IsTopoOrder R xs l := by
  induction h with
  | nil => exact ⟨.refl _, fun before a after h => by simp at h⟩
  | @next before a after l ha _ _ ih =>
    refine ⟨(ih.perm.cons a).trans List.perm_middle.symm, ?_⟩
    intro before' x after' hl b hb hx
    cases before' with
    | nil =>
      obtain ⟨rfl, -⟩ := List.cons.inj hl
      exact absurd hx (ha b hb)
    | cons y before' =>
      obtain ⟨rfl, hl'⟩ := List.cons.inj hl
      rcases List.mem_cons.mp (List.perm_middle.mem_iff.mp hb) with rfl | hb
      · exact List.mem_cons_self
      · exact List.mem_cons_of_mem _ (ih.first before' x after' hl' b hb hx)

/-- What follows the first element of a topological order. -/
theorem IsTopoOrder.tail {before after : List α} {a : α} (h : IsTopoOrder R (before ++ a :: after) (a :: l))
    (ha : a ∉ before ++ after) : IsTopoOrder R (before ++ after) l := by
  refine ⟨(List.perm_cons a).mp (h.perm.trans List.perm_middle), ?_⟩
  intro before' x after' hl b hb hx
  have hfirst := h.first (a :: before') x after' (by rw [hl]; rfl) b
    (List.perm_middle.mem_iff.mpr (List.mem_cons_of_mem a hb)) hx
  exact (List.mem_cons.mp hfirst).resolve_left fun he => ha (he ▸ hb)

/-- No topological order comes before the greedy one. -/
theorem Greedy.not_lt {pos : α → ℕ} (h : Greedy R xs l) (hpos : xs.Pairwise fun a b => pos a < pos b) :
    ∀ {l' : List α}, IsTopoOrder R xs l' → ¬l'.map pos < l.map pos := by
  induction h with
  | nil =>
    intro l' hl'
    rw [List.perm_nil.mp hl'.perm]
    exact List.not_lt_nil _
  | @next before a after l ha hbefore _ ih =>
    intro l' hl'
    obtain ⟨hpre, hpost⟩ := List.pairwise_append.mp hpos
    have hlt : ∀ y ∈ after, pos a < pos y := (List.pairwise_cons.mp hpost.1).1
    have hnot : a ∉ before ++ after := by
      rw [List.mem_append, not_or]
      exact ⟨fun hin => lt_irrefl _ (hpost.2 a hin a List.mem_cons_self), fun hin => lt_irrefl _ (hlt a hin)⟩
    have hrest : (before ++ after).Pairwise fun a b => pos a < pos b :=
      hpos.sublist ((List.sublist_cons_self a after).append_left before)
    cases l' with
    | nil => exact absurd (hl'.perm.symm.eq_nil) (by simp)
    | cons y l' =>
      have hy : y ∈ before ++ a :: after := hl'.perm.mem_iff.mp List.mem_cons_self
      have hready : ∀ b ∈ before ++ a :: after, ¬R y b := fun b hb hyb =>
        absurd (hl'.first [] y l' rfl b hb hyb) List.not_mem_nil
      rw [List.map_cons, List.map_cons, List.cons_lt_cons_iff, not_or, not_and]
      rcases List.mem_cons.mp (List.perm_middle.mem_iff.mp hy) with rfl | hy
      · exact ⟨lt_irrefl _, fun _ => ih hrest (hl'.tail hnot)⟩
      · rcases List.mem_append.mp hy with hy | hy
        · -- an element before it depends on another
          obtain ⟨b, hb, hyb⟩ := hbefore y hy
          exact absurd hyb (hready b hb)
        · exact ⟨(hlt y hy).not_gt, fun he => absurd he (hlt y hy).ne'⟩

/-- Where every element depends on another there is a cycle. -/
theorem exists_cycle (hne : xs ≠ []) (h : ∀ a ∈ xs, ∃ b ∈ xs, R a b) : ∃ a ∈ xs, Relation.TransGen R a a := by
  by_contra hacyclic
  push Not at hacyclic
  let r (b a : {a // a ∈ xs}) : Prop := Relation.TransGen R a.1 b.1
  have hfinite : Finite {a // a ∈ xs} := (List.finite_toSet xs).to_subtype
  have htrans : IsTrans {a // a ∈ xs} r := ⟨fun _ _ _ hba hcb => hcb.trans hba⟩
  have hirrefl : Std.Irrefl r := ⟨fun a ha => hacyclic a.1 a.2 ha⟩
  have hwf : WellFounded r := Finite.wellFounded_of_trans_of_irrefl r
  obtain ⟨x, hx⟩ := List.exists_mem_of_ne_nil xs hne
  obtain ⟨m, -, hmin⟩ := hwf.has_min Set.univ ⟨⟨x, hx⟩, trivial⟩
  obtain ⟨b, hb, hmb⟩ := h m.1 m.2
  exact hmin ⟨b, hb⟩ trivial (.single hmb)

/-- What an element depends on, directly or not, comes before it. -/
theorem IsTopoOrder.before_of_transGen (h : IsTopoOrder R xs l) (hR : ∀ a b, R a b → b ∈ xs) {a c : α}
    (hac : Relation.TransGen R a c) : ∀ {before after : List α}, l = before ++ a :: after → c ∈ before := by
  induction hac with
  | single hab => exact fun hl => h.first _ _ _ hl _ (hR _ _ hab) hab
  | @tail b c _ hbc ih =>
    intro before after hl
    obtain ⟨p, q, hbefore⟩ := List.append_of_mem (ih hl)
    rw [hbefore, List.append_assoc, List.cons_append] at hl
    rw [hbefore]
    exact List.mem_append_left _ (h.first p b _ hl c (hR _ _ hbc) hbc)

theorem IsTopoOrder.not_cycle (h : IsTopoOrder R xs l) (hR : ∀ a b, R a b → a ∈ xs ∧ b ∈ xs) (a : α) :
    ¬Relation.TransGen R a a := by
  intro hcycle
  have ha : a ∈ xs := by
    cases hcycle with
    | single hab => exact (hR _ _ hab).2
    | tail _ hbc => exact (hR _ _ hbc).2
  obtain ⟨before, after, hl, hnot⟩ := List.eq_append_cons_of_mem (h.perm.mem_iff.mpr ha)
  exact hnot (h.before_of_transGen (fun a b hab => (hR a b hab).2) hcycle hl)

end Trek
