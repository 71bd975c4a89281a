/-
# The first occurrence of a pattern

A text is cut at the first place where a pattern stands in it. A text that is read
piece by piece is cut at the same place as the whole: what comes after a cut does
not move it (`cutAt_append`), and neither does dropping text before it (`cutAt_drop`).
-/
import Mathlib.Data.List.Infix

namespace Trek

variable {α : Type*} [DecidableEq α]

/-- The text before the first occurrence of the pattern, and the text after it. -/
def cutAt (pattern : List α) : List α → Option (List α × List α)
  | [] => if pattern = [] then some ([], []) else none
  | c :: text =>
    if pattern.isPrefixOf (c :: text) then some ([], (c :: text).drop pattern.length)
    else (cutAt pattern text).map fun p => (c :: p.1, p.2)

variable {pattern text before after : List α}

theorem cutAt_of_prefix (after : List α) (h : pattern ≠ []) : cutAt pattern (pattern ++ after) = some ([], after) := by
  cases pattern with
  | nil => exact absurd rfl h
  | cons c pattern =>
    rw [List.cons_append, cutAt, if_pos (by simp)]
    simp

theorem eq_of_cutAt : ∀ {text before after : List α}, cutAt pattern text = some (before, after) →
    text = before ++ (pattern ++ after)
  | [], before, after, h => by
    unfold cutAt at h
    split at h
    · rename_i hp
      cases h
      rw [hp]
      rfl
    · cases h
  | c :: text, before, after, h => by
    unfold cutAt at h
    split at h
    · rename_i hp
      obtain ⟨rest, hrest⟩ := List.isPrefixOf_iff_prefix.mp hp
      cases h
      rw [List.nil_append, ← hrest, List.drop_left]
    · obtain ⟨p, hp, he⟩ := Option.map_eq_some_iff.mp h
      cases he
      rw [eq_of_cutAt hp, List.cons_append]

theorem cutAt_eq_none_iff (hne : pattern ≠ []) : ∀ {text : List α}, cutAt pattern text = none ↔ ¬pattern <:+: text
  | [] => by simp [cutAt, hne]
  | c :: text => by
    rw [cutAt, List.infix_cons_iff, ← List.isPrefixOf_iff_prefix]
    by_cases hp : pattern.isPrefixOf (c :: text) = true
    · simp [hp]
    · simp [hp, cutAt_eq_none_iff hne]

theorem cutAt_singleton {c : α} : ∀ {before : List α}, c ∉ before → ∀ after, cutAt [c] (before ++ c :: after) = some (before, after)
  | [], _, after => cutAt_of_prefix after (List.cons_ne_nil c [])
  | d :: before, h, after => by
    have hne : [c].isPrefixOf (d :: (before ++ c :: after)) = false := by
      simpa [List.isPrefixOf] using fun heq : c = d => h (heq ▸ List.mem_cons_self)
    have hcut := cutAt_singleton (fun hmem => h (List.mem_cons_of_mem d hmem)) after
    rw [List.cons_append, cutAt, hne, hcut]
    rfl

theorem notMem_of_cutAt {c : α} (h : cutAt [c] text = some (before, after)) : c ∉ before := by
  intro hmem
  obtain ⟨first, rest, rfl, hfirst⟩ := List.eq_append_cons_of_mem hmem
  rw [eq_of_cutAt h, List.append_assoc, List.cons_append, cutAt_singleton hfirst, Option.some.injEq, Prod.mk.injEq] at h
  exact List.cons_ne_nil _ _ (List.self_eq_append_right.mp h.1)

/-- What comes later does not move the cut. -/
theorem cutAt_append (hne : pattern ≠ []) (more : List α) : ∀ {text before after : List α},
    cutAt pattern text = some (before, after) → cutAt pattern (text ++ more) = some (before, after ++ more)
  | [], _, _, h => by simp [cutAt, hne] at h
  | c :: text, before, after, h => by
    unfold cutAt at h
    split at h
    · rename_i hp
      obtain ⟨rest, hrest⟩ := List.isPrefixOf_iff_prefix.mp hp
      cases h
      rw [← hrest, List.drop_left, List.append_assoc]
      exact cutAt_of_prefix _ hne
    · rename_i hp
      obtain ⟨⟨before', after'⟩, hcut, he⟩ := Option.map_eq_some_iff.mp h
      cases he
      have hp' : pattern.isPrefixOf (c :: (text ++ more)) = false := by
        rw [Bool.eq_false_iff]
        intro hpre
        -- a pattern longer than the first text would reach the cut that comes later
        have hlen : pattern.length ≤ (c :: text).length := by
          have := congrArg List.length (eq_of_cutAt hcut)
          simp only [List.length_append, List.length_cons] at this ⊢
          omega
        have h1 := List.isPrefixOf_iff_prefix.mp hpre
        exact hp (List.isPrefixOf_iff_prefix.mpr
          (List.prefix_of_prefix_length_le h1 (List.prefix_append (c :: text) more) hlen))
      rw [List.cons_append, cutAt, hp', cutAt_append hne more hcut]
      rfl

/-- Text before the cut may be dropped. -/
theorem cutAt_drop : ∀ (front : List α) {text before after : List α},
    cutAt pattern (front ++ text) = some (front ++ before, after) → cutAt pattern text = some (before, after)
  | [], _, _, _, h => h
  | c :: front, text, before, after, h => by
    rw [List.cons_append, cutAt] at h
    split at h
    · cases h
    · obtain ⟨p, hcut, he⟩ := Option.map_eq_some_iff.mp h
      obtain ⟨p₁, p₂⟩ := p
      cases he
      exact cutAt_drop front hcut

/-- A pattern that a text does not have yet ends in the text that comes later. -/
theorem length_lt_of_cutAt_append (hne : pattern ≠ []) {more : List α} (hnone : cutAt pattern text = none)
    (hcut : cutAt pattern (text ++ more) = some (before, after)) : text.length < before.length + pattern.length := by
  by_contra hlt
  have heq := eq_of_cutAt hcut
  rw [← List.append_assoc] at heq
  have hpre : before ++ pattern <+: text :=
    List.prefix_of_prefix_length_le ⟨after, heq.symm⟩ (List.prefix_append text more) (by
      rw [List.length_append]
      omega)
  exact (cutAt_eq_none_iff hne).mp hnone ((List.suffix_append before pattern).isInfix.trans hpre.isInfix)

end Trek
