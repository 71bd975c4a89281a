/-
# Interleavings of threads

Threads are the lists of what each of them does. A schedule names the thread
that goes next; a thread that has ended is skipped, and what is left when the
schedule ends runs thread by thread. The threads that take the steps of an
interleaving, in their order, are a schedule for it, so this is all of them.
Each does what the threads do, in some order (`interleave_perm`).
-/
import Mathlib.Data.List.Perm.Basic
import Mathlib.Data.List.Basic

namespace Trek

variable {α : Type*}

/-- What the threads do under a schedule. -/
def interleave : List ℕ → List (List α) → List α
  | [], threads => threads.flatten
  | i :: schedule, threads =>
    match threads[i]? with
    | some (x :: rest) => x :: interleave schedule (threads.set i rest)
    | _ => interleave schedule threads

/-- One thread going a step takes that step out of all there is to do. -/
theorem flatten_perm_of_getElem? : ∀ {threads : List (List α)} {i : ℕ} {x : α} {rest : List α},
    threads[i]? = some (x :: rest) → threads.flatten.Perm (x :: (threads.set i rest).flatten)
  | [], _, _, _, h => by simp at h
  | t :: threads, 0, x, rest, h => by
    rw [List.getElem?_cons_zero, Option.some.injEq] at h
    subst h
    exact List.Perm.refl _
  | t :: threads, i + 1, x, rest, h => by
    rw [List.getElem?_cons_succ] at h
    rw [List.set_cons_succ, List.flatten_cons, List.flatten_cons]
    exact ((flatten_perm_of_getElem? h).append_left t).trans List.perm_middle

/-- All threads run to their end, whatever the schedule. -/
theorem interleave_perm : ∀ (schedule : List ℕ) (threads : List (List α)),
    (interleave schedule threads).Perm threads.flatten
  | [], _ => List.Perm.refl _
  | i :: schedule, threads => by
    unfold interleave
    split
    · rename_i x rest h
      exact ((interleave_perm schedule _).cons x).trans (flatten_perm_of_getElem? h).symm
    · exact interleave_perm schedule threads

/-- Each thread does its steps in their order. -/
theorem interleave_filter {owner : α → ℕ} (i : ℕ) : ∀ (schedule : List ℕ) (threads : List (List α)),
    (∀ j t, threads[j]? = some t → ∀ x ∈ t, owner x = j) →
    (interleave schedule threads).filter (owner · = i) = (threads[i]?).getD []
  | [], threads, h => by
    have key : ∀ (k : ℕ) (l : List (List α)), (∀ j t, l[j]? = some t → ∀ x ∈ t, owner x = k + j) →
        l.flatten.filter (owner · = k + i) = (l[i]?).getD [] := by
      intro k l
      induction l generalizing k i with
      | nil => exact fun _ => rfl
      | cons t l ih =>
        intro hl
        have ht : ∀ x ∈ t, owner x = k := hl 0 t rfl
        have htail : ∀ j u, l[j]? = some u → ∀ x ∈ u, owner x = k + 1 + j := fun j u hu x hx => by
          rw [hl (j + 1) u hu x hx]
          omega
        rw [List.flatten_cons, List.filter_append]
        cases i with
        | zero =>
          have hrest : l.flatten.filter (owner · = k + 0) = [] := List.filter_eq_nil_iff.mpr fun x hx => by
            obtain ⟨u, hu, hxu⟩ := List.mem_flatten.mp hx
            obtain ⟨j, hj⟩ := List.getElem?_of_mem hu
            have := htail j u hj x hxu
            simp only [decide_eq_true_eq]
            omega
          have hself : t.filter (owner · = k + 0) = t := List.filter_eq_self.mpr fun x hx => by
            simpa using ht x hx
          rw [hrest, hself, List.append_nil]
          rfl
        | succ i =>
          have hnone : t.filter (owner · = k + (i + 1)) = [] := List.filter_eq_nil_iff.mpr fun x hx => by
            have := ht x hx
            simp only [decide_eq_true_eq]
            omega
          have := ih i (k + 1) htail
          rw [show k + 1 + i = k + (i + 1) by omega] at this
          rw [hnone, this, List.nil_append, List.getElem?_cons_succ]
    have := key 0 threads fun j t hj x hx => by rw [h j t hj x hx, Nat.zero_add]
    rwa [Nat.zero_add] at this
  | k :: schedule, threads, h => by
    unfold interleave
    split
    · rename_i x rest hk
      have hx : owner x = k := h k _ hk x List.mem_cons_self
      have hlen : k < threads.length := (List.getElem?_eq_some_iff.mp hk).1
      have hset : ∀ j t, (threads.set k rest)[j]? = some t → ∀ y ∈ t, owner y = j := by
        intro j t hj y hy
        by_cases hjk : k = j
        · subst hjk
          rw [List.getElem?_set_self hlen, Option.some.injEq] at hj
          exact h k _ hk y (List.mem_cons_of_mem _ (hj ▸ hy))
        · rw [List.getElem?_set_ne hjk] at hj
          exact h j t hj y hy
      have ih := interleave_filter i schedule _ hset
      by_cases hik : k = i
      · subst hik
        rw [List.filter_cons_of_pos (by simpa using hx), ih, List.getElem?_set_self hlen, hk]
        rfl
      · rw [List.filter_cons_of_neg (by simpa [hx] using hik), ih, List.getElem?_set_ne hik]
    · exact interleave_filter i schedule threads h

end Trek
