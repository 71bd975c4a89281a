/-
# Occurrences of a pattern

The occurrences of a pattern in a text, from the left, none of which overlaps an earlier one: where `split` cuts
the text, and what a search finds that goes on after each match. Where two places of the pattern lie apart there
are two of them at least (`two_le_length_occurrences`).
-/
import Trek.Lib.Cut

namespace Trek

variable {α : Type*}

/-- The pattern stands in the text at a place. -/
def OccursAt (pattern text : List α) (p : ℕ) : Prop := pattern <+: text.drop p

variable {pattern text : List α}

theorem OccursAt.add_le {p : ℕ} (hne : pattern ≠ []) (h : OccursAt pattern text p) : p + pattern.length ≤ text.length := by
  have hle := h.length_le
  have hpos := List.length_pos_iff.mpr hne
  rw [List.length_drop] at hle
  omega

variable [DecidableEq α]

instance (pattern text : List α) (p : ℕ) : Decidable (OccursAt pattern text p) :=
  decidable_of_iff (pattern.isPrefixOf (text.drop p) = true) List.isPrefixOf_iff_prefix

/-- `text.indexOf(pattern)`. -/
def indexOf (pattern text : List α) : Option ℕ := (cutAt pattern text).map fun cut => cut.1.length

/-- The occurrences in a text that starts at `pos`, after `skip` of its characters. -/
def occurrencesFrom (pattern : List α) : ℕ → ℕ → List α → List ℕ
  | _, _, [] => []
  | skip + 1, pos, _ :: text => occurrencesFrom pattern skip (pos + 1) text
  | 0, pos, c :: text =>
    if pattern.isPrefixOf (c :: text) then pos :: occurrencesFrom pattern (pattern.length - 1) (pos + 1) text
    else occurrencesFrom pattern 0 (pos + 1) text

/-- The occurrences in a text. -/
def occurrences (pattern text : List α) : List ℕ := occurrencesFrom pattern 0 0 text

theorem occursAt_of_indexOf {p : ℕ} (h : indexOf pattern text = some p) : OccursAt pattern text p := by
  obtain ⟨⟨before, after⟩, hcut, rfl⟩ := Option.map_eq_some_iff.mp h
  unfold OccursAt
  rw [eq_of_cutAt hcut, List.drop_left]
  exact List.prefix_append _ _

theorem indexOf_eq_none (hne : pattern ≠ []) : indexOf pattern text = none ↔ ¬ pattern <:+: text := by
  unfold indexOf
  rw [Option.map_eq_none_iff]
  exact cutAt_eq_none_iff hne

/-- Each occurrence is a place of the pattern. -/
theorem occursAt_of_mem : ∀ {text : List α} {skip pos p : ℕ}, p ∈ occurrencesFrom pattern skip pos text →
    pos + skip ≤ p ∧ OccursAt pattern text (p - pos)
  | [], skip, pos, p, h => by
    unfold occurrencesFrom at h
    cases h
  | c :: text, skip + 1, pos, p, h => by
    have hmem : p ∈ occurrencesFrom pattern skip (pos + 1) text := h
    obtain ⟨hle, hat⟩ := occursAt_of_mem hmem
    refine ⟨by omega, ?_⟩
    rw [show p - pos = (p - (pos + 1)) + 1 by omega]
    exact hat
  | c :: text, 0, pos, p, h => by
    unfold occurrencesFrom at h
    have hlater : ∀ {skip}, p ∈ occurrencesFrom pattern skip (pos + 1) text →
        pos + 0 ≤ p ∧ OccursAt pattern (c :: text) (p - pos) := by
      intro skip h
      obtain ⟨hle, hat⟩ := occursAt_of_mem h
      refine ⟨by omega, ?_⟩
      rw [show p - pos = (p - (pos + 1)) + 1 by omega]
      exact hat
    split at h
    · rename_i hprefix
      rcases List.mem_cons.mp h with rfl | h
      · refine ⟨Nat.le_refl _, ?_⟩
        rw [Nat.sub_self]
        exact List.isPrefixOf_iff_prefix.mp hprefix
      · exact hlater h
    · exact hlater h

/-- A place of the pattern that is not skipped is found, or an earlier one is. -/
theorem exists_mem_occurrences (hne : pattern ≠ []) : ∀ (text : List α) (skip pos q : ℕ), skip ≤ q →
    OccursAt pattern text q → ∃ p rest, occurrencesFrom pattern skip pos text = p :: rest ∧ p ≤ pos + q ∧
      ∃ skipped, rest = occurrencesFrom pattern (pattern.length - 1) (p + 1) (text.drop (skipped + 1)) ∧ p = pos + skipped
  | [], _, _, q, _, h => by
    unfold OccursAt at h
    rw [List.drop_nil, List.prefix_nil] at h
    exact absurd h hne
  | c :: text, skip + 1, pos, q, hskip, h => by
    obtain ⟨q, rfl⟩ : ∃ q', q = q' + 1 := ⟨q - 1, by omega⟩
    obtain ⟨p, rest, heq, hle, skipped, hrest, hp⟩ :=
      exists_mem_occurrences hne text skip (pos + 1) q (by omega) h
    exact ⟨p, rest, heq, by omega, skipped + 1, hrest, by omega⟩
  | c :: text, 0, pos, q, hskip, h => by
    rw [occurrencesFrom]
    split
    · exact ⟨pos, _, rfl, by omega, 0, rfl, rfl⟩
    · rename_i hno
      cases q with
      | zero => exact absurd (List.isPrefixOf_iff_prefix.mpr h) hno
      | succ q =>
        obtain ⟨p, rest, heq, hle, skipped, hrest, hp⟩ := exists_mem_occurrences hne text 0 (pos + 1) q (Nat.zero_le _) h
        exact ⟨p, rest, heq, by omega, skipped + 1, hrest, by omega⟩

/-- **Two places that lie apart** are two occurrences at least. -/
theorem two_le_length_occurrences (hne : pattern ≠ []) {p q : ℕ} (hp : OccursAt pattern text p)
    (hq : OccursAt pattern text q) (hapart : p + pattern.length ≤ q) : 2 ≤ (occurrences pattern text).length := by
  have hpos := List.length_pos_iff.mpr hne
  obtain ⟨first, rest, heq, hle, skipped, hrest, hskipped⟩ :=
    exists_mem_occurrences hne text 0 0 p (Nat.zero_le _) hp
  -- the second place is found behind the first occurrence
  have hq' : OccursAt pattern (text.drop (skipped + 1)) (q - (skipped + 1)) := by
    unfold OccursAt at hq ⊢
    rw [List.drop_drop, show skipped + 1 + (q - (skipped + 1)) = q by omega]
    exact hq
  obtain ⟨second, rest', heq', -⟩ := exists_mem_occurrences hne (text.drop (skipped + 1)) (pattern.length - 1) (first + 1)
    (q - (skipped + 1)) (by omega) hq'
  rw [occurrences, heq, hrest, heq']
  simp

end Trek
