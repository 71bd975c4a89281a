/-
# Replacing spans of a list

Spans of a list are each to be replaced. If none reaches into another, replacing them one after the other
from the back is the same as replacing all of them at once (`spliceFromBack_eq`), and what lies outside of them
stands between what comes of the text before it and after it (`spliceAll_frame`).
-/
import Mathlib.Data.List.Sort

namespace Trek

variable {α : Type*}

/-- A span of a list, and what is to stand there. -/
structure Splice (α : Type*) where
  start : ℕ
  len : ℕ
  new : List α
  deriving DecidableEq

namespace Splice

/-- Where the span ends. -/
def stop (s : Splice α) : ℕ := s.start + s.len

/-- The first span ends before the second one starts. -/
def Before (a b : Splice α) : Prop := a.stop ≤ b.start

/-- The spans have no place in common. -/
def Disjoint (a b : Splice α) : Prop := a.stop ≤ b.start ∨ b.stop ≤ a.start

/-- No place from `lo` to `hi` is in the span. -/
def Outside (lo hi : ℕ) (s : Splice α) : Prop := s.stop ≤ lo ∨ hi ≤ s.start

instance : DecidableRel (Before (α := α)) := fun a b => inferInstanceAs (Decidable (a.stop ≤ b.start))

theorem Disjoint.symm {a b : Splice α} (h : a.Disjoint b) : b.Disjoint a := Or.symm h

theorem start_le_stop (s : Splice α) : s.start ≤ s.stop := Nat.le_add_right _ _

theorem Before.trans {a b c : Splice α} (hab : a.Before b) (hbc : b.Before c) : a.Before c := by
  have := b.start_le_stop
  unfold Before at *
  omega

end Splice

/-- One span is replaced. -/
def spliceOne (text : List α) (s : Splice α) : List α := text.take s.start ++ s.new ++ text.drop s.stop

/-- The spans are replaced one after the other, the last one first. -/
def spliceFromBack (text : List α) (splices : List (Splice α)) : List α :=
  splices.foldr (fun s text => spliceOne text s) text

/-- The spans of a text that starts at `pos` are replaced at once: a text between two spans stays. -/
def spliceAll : ℕ → List α → List (Splice α) → List α
  | _, text, [] => text
  | pos, text, s :: splices =>
    text.take (s.start - pos) ++ s.new ++ spliceAll s.stop (text.drop (s.stop - pos)) splices

/-- **Replacing from the back is replacing at once**, if the spans come one after the other. -/
theorem spliceFromBack_eq : ∀ (splices : List (Splice α)) (front text : List α), splices.Pairwise Splice.Before →
    (∀ s ∈ splices, front.length ≤ s.start ∧ s.stop ≤ (front ++ text).length) →
    spliceFromBack (front ++ text) splices = front ++ spliceAll front.length text splices
  | [], _, _, _, _ => rfl
  | s :: splices, front, text, hpair, hin => by
    obtain ⟨hs, hpair⟩ := List.pairwise_cons.mp hpair
    obtain ⟨hstart, hstop⟩ := hin s List.mem_cons_self
    have hle := s.start_le_stop
    rw [List.length_append] at hstop
    -- the text up to the end of the first span is in front of the others
    have htext : front ++ text = (front ++ text.take (s.stop - front.length)) ++ text.drop (s.stop - front.length) := by
      rw [List.append_assoc, List.take_append_drop]
    have hfront : (front ++ text.take (s.stop - front.length)).length = s.stop := by
      rw [List.length_append, List.length_take]
      omega
    have ih := spliceFromBack_eq splices (front ++ text.take (s.stop - front.length)) (text.drop (s.stop - front.length)) hpair
      fun x hx => ⟨by rw [hfront]; exact hs x hx, by rw [← htext]; exact (hin x (List.mem_cons_of_mem _ hx)).2⟩
    rw [← htext, hfront] at ih
    show spliceOne (spliceFromBack (front ++ text) splices) s = _
    rw [ih, spliceOne, List.drop_left' hfront, spliceAll]
    have htake : ((front ++ text.take (s.stop - front.length)) ++ spliceAll s.stop (text.drop (s.stop - front.length)) splices).take
        s.start = front ++ text.take (s.start - front.length) := by
      rw [List.take_append_of_le_length (by omega), List.take_append, List.take_of_length_le hstart, List.take_take,
        Nat.min_eq_left (by omega)]
    rw [htake, List.append_assoc, List.append_assoc, List.append_assoc]

/-- A text cut where no span reaches across. -/
theorem spliceAll_append : ∀ (before after : List (Splice α)) (pos : ℕ) (front rest : List α),
    (∀ s ∈ before, pos ≤ s.start ∧ s.stop ≤ pos + front.length) → before.Pairwise Splice.Before →
    (∀ s ∈ after, pos + front.length ≤ s.start) →
    spliceAll pos (front ++ rest) (before ++ after) =
      spliceAll pos front before ++ spliceAll (pos + front.length) rest after
  | [], [], _, _, _, _, _, _ => rfl
  | [], s :: after, pos, front, rest, _, _, hafter => by
    have hs := hafter s List.mem_cons_self
    have hle := s.start_le_stop
    rw [List.nil_append, spliceAll, spliceAll, spliceAll, List.take_append, List.drop_append,
      List.take_of_length_le (by omega), List.drop_eq_nil_of_le (by omega), List.nil_append, Nat.sub_sub, Nat.sub_sub]
    simp only [List.append_assoc]
  | s :: before, after, pos, front, rest, hbefore, hpair, hafter => by
    obtain ⟨hs, hpair⟩ := List.pairwise_cons.mp hpair
    obtain ⟨hstart, hstop⟩ := hbefore s List.mem_cons_self
    have hle := s.start_le_stop
    have hlen : (front.drop (s.stop - pos)).length = pos + front.length - s.stop := by
      rw [List.length_drop]
      omega
    have ih := spliceAll_append before after s.stop (front.drop (s.stop - pos)) rest
      (fun x hx => ⟨hs x hx, by rw [hlen]; have := (hbefore x (List.mem_cons_of_mem _ hx)).2; omega⟩) hpair
      (fun x hx => by rw [hlen]; have := hafter x hx; omega)
    rw [List.cons_append, spliceAll, spliceAll, List.take_append_of_le_length (by omega),
      List.drop_append_of_le_length (by omega), ih, hlen, Nat.add_sub_cancel' (by omega)]
    simp only [List.append_assoc]

/-- Spans in their order, cut at a part they leave alone. -/
theorem exists_append_of_outside {lo hi : ℕ} : ∀ {splices : List (Splice α)}, splices.Pairwise Splice.Before →
    (∀ s ∈ splices, s.Outside lo hi) → ∃ before after, splices = before ++ after ∧
      (∀ s ∈ before, s.stop ≤ lo) ∧ ∀ s ∈ after, hi ≤ s.start
  | [], _, _ => ⟨[], [], rfl, fun s hs => (by cases hs), fun s hs => (by cases hs)⟩
  | s :: splices, hpair, hout => by
    obtain ⟨hs, hpair⟩ := List.pairwise_cons.mp hpair
    rcases hout s List.mem_cons_self with hlo | hhi
    · obtain ⟨before, after, rfl, hbefore, hafter⟩ :=
        exists_append_of_outside hpair fun x hx => hout x (List.mem_cons_of_mem _ hx)
      exact ⟨s :: before, after, rfl, List.forall_mem_cons.mpr ⟨hlo, hbefore⟩, hafter⟩
    · refine ⟨[], s :: splices, rfl, fun x hx => (by cases hx), List.forall_mem_cons.mpr ⟨hhi, fun x hx => ?_⟩⟩
      have := s.start_le_stop
      have := hs x hx
      unfold Splice.Before at this
      omega

/-- **What no span touches stays**, between what comes of the text before it and of the text after it. -/
theorem spliceAll_frame {splices : List (Splice α)} {front mid rest : List α} (hpair : splices.Pairwise Splice.Before)
    (hout : ∀ s ∈ splices, s.Outside front.length (front ++ mid).length) :
    ∃ before after, splices = before ++ after ∧ (∀ s ∈ before, s.stop ≤ front.length) ∧
      (∀ s ∈ after, (front ++ mid).length ≤ s.start) ∧
      spliceAll 0 (front ++ (mid ++ rest)) splices =
        spliceAll 0 front before ++ (mid ++ spliceAll (front ++ mid).length rest after) := by
  obtain ⟨before, after, rfl, hbefore, hafter⟩ := exists_append_of_outside hpair hout
  have hlen : (front ++ mid).length = front.length + mid.length := List.length_append
  refine ⟨before, after, rfl, hbefore, hafter, ?_⟩
  have hmid := spliceAll_append [] after front.length mid rest (fun s hs => by cases hs) List.Pairwise.nil
    fun s hs => hlen ▸ hafter s hs
  rw [spliceAll_append before after 0 front (mid ++ rest)
    (fun s hs => ⟨Nat.zero_le _, by have := hbefore s hs; omega⟩) (List.pairwise_append.mp hpair).1
    (fun s hs => by have := hafter s hs; omega), Nat.zero_add, hlen]
  exact congrArg _ hmid

/-- Spans that hold something come one after the other in one order only. -/
theorem eq_of_perm_of_before {a b : List (Splice α)} (hlen : ∀ s ∈ a, 0 < s.len) (ha : a.Pairwise Splice.Before)
    (hb : b.Pairwise Splice.Before) (hperm : a.Perm b) : a = b := by
  refine hperm.eq_of_pairwise ?_ ha hb
  intro x y hx hy hxy hyx
  have hlx := hlen x hx
  have := x.start_le_stop
  have := y.start_le_stop
  unfold Splice.Before Splice.stop at *
  omega

end Trek
