/-
# Insertion-ordered maps

A finite map kept as its pairs in insertion order, the way JavaScript's `Map`
keeps them: `set` of a key that is there changes the value in place, `set` of a
new key appends the pair, `delete` drops it. Iteration is the list of pairs.
That no key occurs twice is a field, so a map read by position and a map read
by key are the same map.
-/
import Mathlib.Data.List.Nodup
import Mathlib.Data.List.Perm.Subperm

namespace Trek

/-- A map as its pairs, in insertion order. -/
@[ext]
structure OrdMap (κ ν : Type*) where
  pairs : List (κ × ν)
  nodup : (pairs.map Prod.fst).Nodup
  deriving DecidableEq

namespace OrdMap

variable {κ ν : Type*}

/-- `new Map()`. -/
def empty : OrdMap κ ν := ⟨[], List.nodup_nil⟩

instance : Inhabited (OrdMap κ ν) := ⟨empty⟩

/-- `map.keys()`. -/
def keys (m : OrdMap κ ν) : List κ := m.pairs.map Prod.fst

/-- `map.values()`. -/
def values (m : OrdMap κ ν) : List ν := m.pairs.map Prod.snd

/-- `map.size`. -/
def size (m : OrdMap κ ν) : ℕ := m.pairs.length

/-- Every pair with the value `v` is dropped. -/
def dropValue [DecidableEq ν] (m : OrdMap κ ν) (v : ν) : OrdMap κ ν :=
  ⟨m.pairs.filter (·.2 ≠ v), m.nodup.sublist ((List.filter_sublist).map _)⟩

theorem mem_dropValue [DecidableEq ν] {m : OrdMap κ ν} {v : ν} {p : κ × ν} :
    p ∈ (m.dropValue v).pairs ↔ p ∈ m.pairs ∧ p.2 ≠ v := by
  simp [dropValue]

variable [DecidableEq κ]

/-- `map.get(k)`. -/
def get? (m : OrdMap κ ν) (k : κ) : Option ν := (m.pairs.find? (·.1 = k)).map Prod.snd

/-- `map.has(k)`. -/
def has (m : OrdMap κ ν) (k : κ) : Bool := (m.get? k).isSome

/-- The pairs with the value of `k` replaced. -/
def replace (k : κ) (v : ν) (l : List (κ × ν)) : List (κ × ν) :=
  l.map fun p => if p.1 = k then (k, v) else p

theorem replace_keys (k : κ) (v : ν) (l : List (κ × ν)) :
    (replace k v l).map Prod.fst = l.map Prod.fst := by
  simp only [replace, List.map_map]
  refine List.map_congr_left fun p _ => ?_
  by_cases h : p.1 = k <;> simp [h]

/-- `map.set(k, v)`. -/
def set (m : OrdMap κ ν) (k : κ) (v : ν) : OrdMap κ ν :=
  if h : k ∈ m.keys then ⟨replace k v m.pairs, by rw [replace_keys]; exact m.nodup⟩
  else ⟨m.pairs ++ [(k, v)], by
    rw [List.map_append, List.nodup_append]
    refine ⟨m.nodup, by simp, fun a ha b hb => ?_⟩
    simp only [List.map_cons, List.map_nil, List.mem_singleton] at hb
    exact fun hab => h (hb ▸ hab ▸ ha)⟩

/-- `map.delete(k)`. -/
def delete (m : OrdMap κ ν) (k : κ) : OrdMap κ ν :=
  ⟨m.pairs.filter (·.1 ≠ k), m.nodup.sublist ((List.filter_sublist).map _)⟩

/-! ### Reading -/

theorem get?_eq_some {m : OrdMap κ ν} {k : κ} {v : ν} : m.get? k = some v ↔ (k, v) ∈ m.pairs := by
  obtain ⟨l, hl⟩ := m
  simp only [get?]
  induction l with
  | nil => simp
  | cons p l ih =>
    simp only [List.map_cons, List.nodup_cons] at hl
    have ih := ih hl.2
    rw [List.find?_cons]
    by_cases hp : p.1 = k
    · simp only [hp, decide_true, Option.map_some, Option.some.injEq, List.mem_cons]
      constructor
      · rintro rfl; exact Or.inl (by rw [← hp])
      · rintro (h | h)
        · rw [← h]
        · exact absurd (List.mem_map.mpr ⟨_, h, hp.symm⟩) hl.1
    · simp only [hp, decide_false, ih, List.mem_cons]
      constructor
      · exact Or.inr
      · rintro (h | h)
        · exact absurd (by rw [← h]) hp
        · exact h

theorem get?_eq_none {m : OrdMap κ ν} {k : κ} : m.get? k = none ↔ k ∉ m.keys := by
  simp only [get?, Option.map_eq_none_iff, List.find?_eq_none, decide_eq_true_eq, keys, List.mem_map]
  constructor
  · rintro h ⟨p, hp, rfl⟩; exact h p hp rfl
  · exact fun h p hp he => h ⟨p, hp, he⟩

theorem has_iff {m : OrdMap κ ν} {k : κ} : m.has k = true ↔ k ∈ m.keys := by
  rw [has, Option.isSome_iff_ne_none, ne_eq, get?_eq_none, not_not]

theorem get?_mem_values {m : OrdMap κ ν} {k : κ} {v : ν} (h : m.get? k = some v) : v ∈ m.values :=
  List.mem_map.mpr ⟨_, get?_eq_some.mp h, rfl⟩

theorem mem_values {m : OrdMap κ ν} {v : ν} : v ∈ m.values ↔ ∃ k, m.get? k = some v := by
  simp only [values, List.mem_map, Prod.exists, get?_eq_some, exists_eq_right]

@[simp] theorem get?_empty (k : κ) : (empty : OrdMap κ ν).get? k = none := rfl

/-! ### Writing -/

@[simp] theorem get?_set_self (m : OrdMap κ ν) (k : κ) (v : ν) : (m.set k v).get? k = some v := by
  rw [get?_eq_some, set]
  split
  · rename_i h
    obtain ⟨p, hp, rfl⟩ := List.mem_map.mp h
    exact List.mem_map.mpr ⟨p, hp, by simp⟩
  · simp

theorem get?_set_ne (m : OrdMap κ ν) {k k' : κ} (v : ν) (h : k' ≠ k) : (m.set k v).get? k' = m.get? k' := by
  have key : ∀ w, (m.set k v).get? k' = some w ↔ m.get? k' = some w := by
    intro w
    rw [get?_eq_some, get?_eq_some, set]
    split
    · simp only [replace, List.mem_map]
      constructor
      · rintro ⟨p, hp, he⟩
        by_cases hk : p.1 = k
        · rw [if_pos hk] at he; exact absurd (congrArg Prod.fst he).symm h
        · rw [if_neg hk] at he; rwa [← he]
      · exact fun hm => ⟨_, hm, if_neg h⟩
    · simp [h]
  exact Option.ext key

theorem get?_set (m : OrdMap κ ν) (k k' : κ) (v : ν) :
    (m.set k v).get? k' = if k' = k then some v else m.get? k' := by
  by_cases h : k' = k
  · rw [if_pos h, h, get?_set_self]
  · rw [if_neg h, get?_set_ne m v h]

theorem get?_delete (m : OrdMap κ ν) (k k' : κ) :
    (m.delete k).get? k' = if k' = k then none else m.get? k' := by
  refine Option.ext fun w => ?_
  rw [get?_eq_some, delete]
  by_cases h : k' = k
  · simp [h]
  · simp only [ne_eq, decide_not, List.mem_filter, h, decide_false, Bool.not_false,
      and_true, ↓reduceIte]
    exact get?_eq_some.symm

/-- `set` leaves the pairs of other keys. -/
theorem mem_set {m : OrdMap κ ν} {k : κ} {v : ν} {p : κ × ν} (h : p ∈ (m.set k v).pairs) :
    p = (k, v) ∨ p ∈ m.pairs := by
  obtain ⟨k', v'⟩ := p
  rw [← get?_eq_some, get?_set] at h
  split at h
  · rename_i hk
    rw [hk, Option.some.inj h]
    exact Or.inl rfl
  · exact Or.inr (get?_eq_some.mp h)

theorem mem_keys_set {m : OrdMap κ ν} {k k' : κ} {v : ν} : k' ∈ (m.set k v).keys ↔ k' = k ∨ k' ∈ m.keys := by
  rw [← has_iff, ← has_iff, has, has, get?_set]
  by_cases h : k' = k <;> simp [h]

/-- A new key is appended. -/
theorem pairs_set_new {m : OrdMap κ ν} {k : κ} (v : ν) (h : k ∉ m.keys) :
    (m.set k v).pairs = m.pairs ++ [(k, v)] := by
  rw [set, dif_neg h]

/-! ### The first pair of each key -/

/-- A pair is set only where the key is new. -/
def setIfNew (m : OrdMap κ ν) (p : κ × ν) : OrdMap κ ν := if m.has p.1 then m else m.set p.1 p.2

/-- The pairs of a list with a key that neither `seen` nor an earlier pair has. -/
def firsts : List κ → List (κ × ν) → List (κ × ν)
  | _, [] => []
  | seen, p :: l => if p.1 ∈ seen then firsts seen l else p :: firsts (seen ++ [p.1]) l

theorem get?_foldl_setIfNew (k : κ) : ∀ (l : List (κ × ν)) (m : OrdMap κ ν),
    (l.foldl setIfNew m).get? k = (m.get? k).or ((l.find? (·.1 = k)).map Prod.snd)
  | [], m => by rw [List.foldl_nil, List.find?_nil, Option.map_none, Option.or_none]
  | p :: l, m => by
    rw [List.foldl_cons, get?_foldl_setIfNew k l, setIfNew]
    by_cases hp : p.1 = k
    · rw [List.find?_cons_of_pos (by simpa using hp), Option.map_some, has, hp]
      cases hg : m.get? k with
      | some v => simp only [Option.isSome_some, ↓reduceIte, hg, Option.some_or]
      | none => simp only [Option.isSome_none, Bool.false_eq_true, ↓reduceIte, get?_set_self,
          Option.some_or, Option.none_or]
    · rw [List.find?_cons_of_neg (by simpa using hp)]
      split
      · rfl
      · rw [get?_set_ne _ _ (Ne.symm hp)]

theorem pairs_foldl_setIfNew : ∀ (l : List (κ × ν)) (m : OrdMap κ ν),
    (l.foldl setIfNew m).pairs = m.pairs ++ firsts m.keys l
  | [], m => (List.append_nil _).symm
  | p :: l, m => by
    rw [List.foldl_cons, pairs_foldl_setIfNew l, setIfNew, firsts]
    by_cases hp : p.1 ∈ m.keys
    · rw [if_pos (has_iff.mpr hp), if_pos hp]
    · have hpairs := pairs_set_new p.2 hp
      rw [if_neg (mt has_iff.mp hp), if_neg hp, hpairs, List.append_assoc, keys, hpairs, List.map_append]
      rfl

/-- New values for the pairs. -/
theorem firsts_map_pair {μ : Type*} (f : κ × ν → μ) : ∀ (seen : List κ) (l : List (κ × ν)),
    firsts seen (l.map fun p => (p.1, f p)) = (firsts seen l).map fun p => (p.1, f p)
  | _, [] => rfl
  | seen, p :: l => by
    rw [List.map_cons, firsts, firsts]
    split
    · exact firsts_map_pair f seen l
    · rw [List.map_cons, firsts_map_pair f _ l]

theorem firsts_map {μ : Type*} (f : ν → μ) (seen : List κ) (l : List (κ × ν)) :
    firsts seen (l.map fun p => (p.1, f p.2)) = (firsts seen l).map fun p => (p.1, f p.2) :=
  firsts_map_pair (fun p => f p.2) seen l

theorem mem_firsts : ∀ {l : List (κ × ν)} {seen : List κ} {p : κ × ν}, p ∈ firsts seen l →
    p.1 ∉ seen ∧ ∃ l₁ l₂, l = l₁ ++ p :: l₂ ∧ ∀ q ∈ l₁, q.1 ≠ p.1
  | q :: l, seen, p, h => by
    unfold firsts at h
    split at h
    · rename_i hq
      obtain ⟨hp, l₁, l₂, rfl, hl⟩ := mem_firsts h
      refine ⟨hp, q :: l₁, l₂, rfl, fun q' hq' => ?_⟩
      rcases List.mem_cons.mp hq' with rfl | hq'
      · exact fun he => hp (he ▸ hq)
      · exact hl q' hq'
    · rename_i hq
      rcases List.mem_cons.mp h with rfl | h
      · exact ⟨hq, [], l, rfl, fun _ h => absurd h List.not_mem_nil⟩
      · obtain ⟨hp, l₁, l₂, rfl, hl⟩ := mem_firsts h
        rw [List.mem_append, List.mem_singleton, not_or] at hp
        refine ⟨hp.1, q :: l₁, l₂, rfl, fun q' hq' => ?_⟩
        rcases List.mem_cons.mp hq' with rfl | hq'
        · exact Ne.symm hp.2
        · exact hl q' hq'

theorem exists_mem_firsts : ∀ {l : List (κ × ν)} {seen : List κ} {p : κ × ν}, p ∈ l → p.1 ∉ seen →
    ∃ q ∈ firsts seen l, q.1 = p.1
  | q :: l, seen, p, h, hs => by
    unfold firsts
    by_cases hq : q.1 = p.1
    · rw [if_neg (hq ▸ hs)]
      exact ⟨q, List.mem_cons_self, hq⟩
    · have hp : p ∈ l := (List.mem_cons.mp h).resolve_left fun he => hq (by rw [he])
      split
      · exact exists_mem_firsts hp hs
      · have hs' : p.1 ∉ seen ++ [q.1] := by
          rw [List.mem_append, List.mem_singleton, not_or]
          exact ⟨hs, Ne.symm hq⟩
        obtain ⟨q', hq', he⟩ := exists_mem_firsts hp hs'
        exact ⟨q', List.mem_cons_of_mem _ hq', he⟩

/-- A key that is there has its value changed in its place. -/
theorem pairs_set_old {m : OrdMap κ ν} {k : κ} {v₀ : ν} (v : ν) (h : m.get? k = some v₀) :
    ∃ l₁ l₂, m.pairs = l₁ ++ (k, v₀) :: l₂ ∧ (m.set k v).pairs = l₁ ++ (k, v) :: l₂ := by
  have hmem := get?_eq_some.mp h
  obtain ⟨l₁, l₂, hl⟩ := List.append_of_mem hmem
  have hnd := m.nodup
  rw [hl, List.map_append, List.map_cons, List.nodup_append, List.nodup_cons] at hnd
  have hother : ∀ l : List (κ × ν), k ∉ l.map Prod.fst → replace k v l = l := by
    intro l hk
    conv_rhs => rw [← List.map_id l]
    refine List.map_congr_left fun p hp => ?_
    rw [if_neg fun he => hk (List.mem_map.mpr ⟨p, hp, he⟩), id_eq]
  have h₁ : k ∉ l₁.map Prod.fst := fun hk => hnd.2.2 k hk k List.mem_cons_self rfl
  have hkey : k ∈ m.keys := List.mem_map.mpr ⟨_, hmem, rfl⟩
  refine ⟨l₁, l₂, hl, ?_⟩
  rw [set, dif_pos hkey]
  change replace k v m.pairs = _
  rw [hl]
  have h₂ := hother l₂ hnd.2.1.1
  rw [replace, List.map_append, List.map_cons, if_pos rfl]
  change replace k v l₁ ++ (k, v) :: replace k v l₂ = _
  rw [hother l₁ h₁, h₂]

/-! ### A key that is free -/

/-- The first of the names from `n` on that is no key, or the name after so many that are. -/
def firstFree (m : OrdMap κ ν) (name : ℕ → κ) : ℕ → ℕ → ℕ
  | 0, n => n
  | fuel + 1, n => if m.has (name n) then firstFree m name fuel (n + 1) else n

theorem firstFree_spec (m : OrdMap κ ν) (name : ℕ → κ) : ∀ fuel n, n ≤ m.firstFree name fuel n ∧
    (∀ j, n ≤ j → j < m.firstFree name fuel n → m.has (name j) = true) ∧
    (m.has (name (m.firstFree name fuel n)) = true → m.firstFree name fuel n = n + fuel)
  | 0, n => ⟨Nat.le_refl n, fun j h₁ h₂ => absurd (Nat.lt_of_le_of_lt h₁ h₂) (Nat.lt_irrefl n), fun _ => rfl⟩
  | fuel + 1, n => by
    unfold firstFree
    split
    · rename_i hn
      obtain ⟨hle, hall, hlast⟩ := firstFree_spec m name fuel (n + 1)
      refine ⟨by omega, fun j h₁ h₂ => ?_, fun h => by rw [hlast h]; omega⟩
      rcases Nat.eq_or_lt_of_le h₁ with rfl | h₁
      · exact hn
      · exact hall j h₁ h₂
    · rename_i hn
      exact ⟨Nat.le_refl n, fun j h₁ h₂ => absurd (Nat.lt_of_le_of_lt h₁ h₂) (Nat.lt_irrefl n), fun h => absurd h hn⟩

/-- Of as many different names as there are keys and one more, one is free. -/
theorem has_firstFree (m : OrdMap κ ν) (name : ℕ → κ) {n : ℕ}
    (hinj : ∀ i j, n ≤ i → n ≤ j → name i = name j → i = j) : m.has (name (m.firstFree name m.size n)) = false := by
  obtain ⟨-, hall, hlast⟩ := firstFree_spec m name m.size n
  by_contra hhas
  rw [Bool.not_eq_false] at hhas
  have hk := hlast hhas
  have hsub : (List.range' n (m.size + 1)).map name ⊆ m.keys := by
    intro k hkmem
    obtain ⟨j, hj, rfl⟩ := List.mem_map.mp hkmem
    have hj := List.mem_range'_1.mp hj
    refine has_iff.mp ?_
    rcases Nat.lt_or_ge j (m.firstFree name m.size n) with hlt | hge
    · exact hall j hj.1 hlt
    · rwa [show j = m.firstFree name m.size n by omega]
  have hnodup : ((List.range' n (m.size + 1)).map name).Nodup := by
    refine List.Nodup.map_on (fun i hi j hj he => ?_) List.nodup_range'
    exact hinj i j (List.mem_range'_1.mp hi).1 (List.mem_range'_1.mp hj).1 he
  have hlen := (List.subperm_of_subset hnodup hsub).length_le
  rw [List.length_map, List.length_range', keys, List.length_map] at hlen
  exact absurd hlen (Nat.not_succ_le_self _)

/-! ### A map filled from a list -/

section

variable {α : Type*} (key : α → κ) (val : α → ν)

theorem get?_foldl_set_of_notMem {k : κ} : ∀ (l : List α) (m : OrdMap κ ν), k ∉ l.map key →
    (l.foldl (fun m x => m.set (key x) (val x)) m).get? k = m.get? k
  | [], _, _ => rfl
  | x :: l, m, h => by
    rw [List.map_cons, List.mem_cons, not_or] at h
    rw [List.foldl_cons, get?_foldl_set_of_notMem l _ h.2, get?_set_ne m _ h.1]

/-- What was set under different keys is found under each. -/
theorem get?_foldl_set : ∀ (l : List α) (m : OrdMap κ ν), (l.map key).Nodup → ∀ x ∈ l,
    (l.foldl (fun m x => m.set (key x) (val x)) m).get? (key x) = some (val x)
  | y :: l, m, h, x, hx => by
    rw [List.map_cons, List.nodup_cons] at h
    rw [List.foldl_cons]
    rcases List.mem_cons.mp hx with rfl | hx
    · rw [get?_foldl_set_of_notMem key val l _ h.1, get?_set_self]
    · exact get?_foldl_set l _ h.2 x hx

/-- Lists that were grown one element after the other, each under its key. -/
theorem getD_foldl_push (k : κ) : ∀ (l : List (α × κ)) (m : OrdMap κ (List α)),
    ((l.foldl (fun m p => m.set p.2 ((m.get? p.2).getD [] ++ [p.1])) m).get? k).getD [] =
      (m.get? k).getD [] ++ (l.filter (·.2 = k)).map Prod.fst
  | [], _ => by simp
  | p :: l, m => by
    rw [List.foldl_cons, getD_foldl_push k l, get?_set]
    by_cases h : p.2 = k
    · rw [if_pos h.symm, List.filter_cons_of_pos (by simpa using h), List.map_cons, h]
      simp
    · rw [if_neg (Ne.symm h), List.filter_cons_of_neg (by simpa using h)]

end

end OrdMap
end Trek
