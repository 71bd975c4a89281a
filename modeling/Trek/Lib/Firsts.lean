/-
# The first pairs of a list

What is left of a list of pairs in a map that keeps the first value of each key: the first pair of each key, in their
order. Lists with the same first pairs can stand for each other in a longer list (`SameFirsts.append`), and a change of
the values that depends on the pairs only goes through (`firsts_map_pair`).
-/
import Trek.Lib.OrdMap

namespace Trek.OrdMap

variable {κ ν μ ι : Type*} [DecidableEq κ]

theorem firsts_append : ∀ (a b : List (κ × ν)) (seen : List κ),
    firsts seen (a ++ b) = firsts seen a ++ firsts (seen ++ (firsts seen a).map Prod.fst) b
  | [], b, seen => by rw [List.nil_append, firsts, List.nil_append, List.map_nil, List.append_nil]
  | p :: a, b, seen => by
    rw [List.cons_append, firsts, firsts]
    split
    · exact firsts_append a b seen
    · rw [firsts_append a b, List.cons_append, List.map_cons, List.append_assoc, List.singleton_append]

/-- After more keys: the first pairs that have none of them. -/
theorem firsts_of_subset : ∀ (l : List (κ × ν)) {seen more : List κ}, seen ⊆ more →
    firsts more l = (firsts seen l).filter fun p => p.1 ∉ more
  | [], _, _, _ => rfl
  | p :: l, seen, more, h => by
    rw [firsts, firsts]
    by_cases hseen : p.1 ∈ seen
    · rw [if_pos (h hseen), if_pos hseen]
      exact firsts_of_subset l h
    · rw [if_neg hseen]
      by_cases hmore : p.1 ∈ more
      · rw [if_pos hmore, List.filter_cons_of_neg (by simpa using hmore)]
        exact firsts_of_subset l (List.append_subset.mpr ⟨h, List.cons_subset.mpr ⟨hmore, List.nil_subset _⟩⟩)
      · rw [if_neg hmore, List.filter_cons_of_pos (by simpa using hmore),
          @firsts_of_subset l (seen ++ [p.1]) (more ++ [p.1])
            (List.append_subset.mpr ⟨List.subset_append_of_subset_left _ h, List.subset_append_right _ _⟩)]
        congr 1
        apply List.filter_congr
        intro q hq
        -- the key of the first pair does not come again
        have hne := (mem_firsts hq).1
        rw [List.mem_append, List.mem_singleton, not_or] at hne
        simp [hne.2]

/-- The pairs with some of the keys. -/
theorem firsts_filter_key (q : κ → Bool) : ∀ (l : List (κ × ν)) (seen : List κ),
    firsts seen (l.filter fun p => q p.1) = (firsts seen l).filter fun p => q p.1
  | [], _ => rfl
  | p :: l, seen => by
    rw [List.filter_cons, firsts]
    by_cases hq : q p.1 = true
    · rw [if_pos hq, firsts]
      split
      · exact firsts_filter_key q l seen
      · rw [List.filter_cons, if_pos hq, firsts_filter_key q l]
    · rw [if_neg hq, firsts_filter_key q l]
      split
      · rfl
      · rw [List.filter_cons, if_neg hq, firsts_of_subset l (List.subset_append_left seen [p.1]), List.filter_filter]
        apply List.filter_congr
        intro r hr
        have hne := (mem_firsts hr).1
        by_cases hr' : q r.1 = true
        · have : r.1 ≠ p.1 := fun he => hq (he ▸ hr')
          simp [hr', hne, this]
        · simp [hr']

/-- Two lists that leave the same in a map. -/
def SameFirsts (a b : List (κ × ν)) : Prop := firsts [] a = firsts [] b

namespace SameFirsts

variable {a a' b b' : List (κ × ν)}

theorem refl (a : List (κ × ν)) : SameFirsts a a := rfl

theorem after (h : SameFirsts a a') (seen : List κ) : firsts seen a = firsts seen a' := by
  rw [firsts_of_subset a (List.nil_subset seen), firsts_of_subset a' (List.nil_subset seen), h]

theorem append (ha : SameFirsts a a') (hb : SameFirsts b b') : SameFirsts (a ++ b) (a' ++ b') := by
  unfold SameFirsts
  rw [firsts_append, firsts_append, ha, hb.after]

theorem flatMap {f g : ι → List (κ × ν)} : ∀ {l : List ι}, (∀ x ∈ l, SameFirsts (f x) (g x)) →
    SameFirsts (l.flatMap f) (l.flatMap g)
  | [], _ => rfl
  | x :: l, h => by
    rw [List.flatMap_cons, List.flatMap_cons]
    exact (h x List.mem_cons_self).append (flatMap fun y hy => h y (List.mem_cons_of_mem _ hy))

theorem map_pair (h : SameFirsts a b) (f : κ × ν → μ) :
    SameFirsts (a.map fun p => (p.1, f p)) (b.map fun p => (p.1, f p)) := by
  unfold SameFirsts
  rw [firsts_map_pair, firsts_map_pair, h]

theorem filter_key (h : SameFirsts a b) (q : κ → Bool) :
    SameFirsts (a.filter fun p => q p.1) (b.filter fun p => q p.1) := by
  unfold SameFirsts
  rw [firsts_filter_key, firsts_filter_key, h]

end SameFirsts

/-! ### Sets -/

/-- `new Set(l)`, in the order of insertion. -/
def distinct (l : List κ) : List κ := (l.foldl (fun set k => setIfNew set (k, ())) OrdMap.empty).keys

theorem distinct_eq (l : List κ) : distinct l = (firsts [] (l.map fun k => (k, ()))).map Prod.fst := by
  have hfold : l.foldl (fun set k => setIfNew set (k, ())) OrdMap.empty =
      (l.map fun k => (k, ())).foldl setIfNew OrdMap.empty := by
    rw [List.foldl_map]
  unfold distinct keys
  rw [hfold, pairs_foldl_setIfNew]
  rfl

theorem mem_distinct {l : List κ} {k : κ} : k ∈ distinct l ↔ k ∈ l := by
  rw [distinct_eq, List.mem_map]
  constructor
  · rintro ⟨p, hp, rfl⟩
    obtain ⟨-, l₁, l₂, hl, -⟩ := mem_firsts hp
    have hmem : p ∈ l.map fun k => (k, ()) := by
      rw [hl]
      exact List.mem_append_right _ List.mem_cons_self
    obtain ⟨k, hk, rfl⟩ := List.mem_map.mp hmem
    exact hk
  · intro hk
    obtain ⟨q, hq, he⟩ := @exists_mem_firsts _ _ _ (l.map fun k => (k, ())) [] (k, ()) (List.mem_map_of_mem hk) List.not_mem_nil
    exact ⟨q, hq, he⟩

theorem nodup_distinct (l : List κ) : (distinct l).Nodup := (l.foldl (fun set k => setIfNew set (k, ())) OrdMap.empty).nodup

/-- One more element is inserted, if it is new. -/
theorem distinct_concat (l : List κ) (k : κ) : distinct (l ++ [k]) = if k ∈ l then distinct l else distinct l ++ [k] := by
  have hmem : k ∈ l ↔ k ∈ (l.foldl (fun set k => setIfNew set (k, ())) OrdMap.empty).keys := mem_distinct.symm
  have hconcat : distinct (l ++ [k]) =
      (setIfNew (l.foldl (fun set k => setIfNew set (k, ())) OrdMap.empty) (k, ())).keys := by
    rw [distinct, List.foldl_append]
    rfl
  rw [hconcat, setIfNew]
  by_cases h : k ∈ l
  · rw [if_pos h, if_pos (has_iff.mpr (hmem.mp h))]
    rfl
  · rw [if_neg h, if_neg fun hhas => h (hmem.mpr (has_iff.mp hhas)), keys, pairs_set_new _ fun hk => h (hmem.mpr hk),
      List.map_append]
    rfl

/-- Lists with the same elements in their order of insertion leave the same, each element with its value. -/
theorem sameFirsts_of_distinct {a b : List κ} (h : distinct a = distinct b) (f : κ → ν) :
    SameFirsts (a.map fun k => (k, f k)) (b.map fun k => (k, f k)) := by
  have hunit : SameFirsts (a.map fun k => (k, ())) (b.map fun k => (k, ())) := by
    rw [distinct_eq, distinct_eq] at h
    exact List.map_injective_iff.mpr (fun p q hpq => Prod.ext hpq rfl) h
  have hpair := hunit.map_pair fun p => f p.1
  rwa [List.map_map, List.map_map] at hpair

/-! ### A changed element -/

section

variable {α : Type*} {key : α → κ} {q : α → Bool} {change : α → α}

/-- Changes of elements whose key was seen before do not matter. -/
theorem firsts_change (hkey : ∀ x, key (change x) = key x) : ∀ (l : List α) {seen : List κ},
    (∀ x, q x = true → key x ∈ seen) →
    firsts seen (l.map fun x => (key x, x)) =
      firsts seen ((l.map fun x => if q x then change x else x).map fun x => (key x, x))
  | [], _, _ => rfl
  | x :: l, seen, hseen => by
    have hrest : ∀ y, q y = true → key y ∈ seen ++ [key x] := fun y hy => List.mem_append_left _ (hseen y hy)
    simp only [List.map_cons, firsts]
    cases hq : q x with
    | true =>
      have hx := hseen x hq
      simp only [↓reduceIte, hkey, hx]
      exact firsts_change hkey l hseen
    | false =>
      simp only [Bool.false_eq_true, ↓reduceIte]
      split
      · exact firsts_change hkey l hseen
      · rw [firsts_change hkey l hrest]

/-- To change the first of some elements that all have one key is to change all of them. -/
theorem sameFirsts_modify (hkey : ∀ x, key (change x) = key x) (hq : ∀ x y, q x = true → q y = true → key x = key y) :
    ∀ {l : List α} {i : ℕ}, l.findIdx? q = some i →
    SameFirsts ((l.modify i change).map fun x => (key x, x))
      ((l.map fun x => if q x then change x else x).map fun x => (key x, x))
  | x :: l, i, h => by
    rw [List.findIdx?_cons] at h
    cases hx : q x with
    | true =>
      rw [hx, if_pos rfl] at h
      obtain rfl := Option.some.inj h
      have hseen : ∀ y, q y = true → key y ∈ [key x] := fun y hy => by
        rw [hq y x hy hx]
        exact List.mem_singleton_self _
      have hrest := firsts_change hkey l hseen
      simpa [SameFirsts, firsts, hx, hkey] using hrest
    | false =>
      rw [hx, if_neg Bool.false_ne_true] at h
      obtain ⟨j, hj, rfl⟩ := Option.map_eq_some_iff.mp h
      have hrest := (sameFirsts_modify hkey hq hj).after [key x]
      simpa [SameFirsts, firsts, hx] using hrest

end

end Trek.OrdMap
