/-
# Parts of a list by position

`slice` is the part of a list between two positions, and a slice of a slice is a slice (`slice_slice`).
-/
import Mathlib.Data.List.Basic

namespace Trek

variable {α : Type*}

/-- The part of a list from one position to another. -/
def slice (l : List α) (start stop : ℕ) : List α := (l.take stop).drop start

variable {l : List α} {a b c : ℕ}

theorem slice_zero_length (l : List α) : slice l 0 l.length = l := by
  rw [slice, List.take_length, List.drop_zero]

theorem slice_length (l : List α) (a : ℕ) : slice l a l.length = l.drop a := by rw [slice, List.take_length]

theorem slice_self (l : List α) (a : ℕ) : slice l a a = [] := by
  rw [slice, List.drop_eq_nil_iff, List.length_take]
  exact Nat.min_le_left _ _

theorem length_slice (hb : b ≤ l.length) : (slice l a b).length = b - a := by
  rw [slice, List.length_drop, List.length_take_of_le hb]

theorem slice_slice (hb : a + b ≤ c) (x : ℕ) : slice (slice l a c) x b = slice l (a + x) (a + b) := by
  simp only [slice, List.take_drop, List.drop_drop, List.take_take]
  rw [Nat.min_eq_left hb]

/-- The part of a list between a front and a back. -/
theorem slice_append_append (front mid back : List α) :
    slice (front ++ (mid ++ back)) front.length (front.length + mid.length) = mid := by
  rw [slice, ← List.append_assoc, ← List.length_append, List.take_left, List.drop_left]

end Trek
