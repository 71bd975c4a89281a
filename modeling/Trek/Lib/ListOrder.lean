/-
# The order of lists of digits

Lists are ordered by their first difference. What stands before or after a difference does not matter when it has the same
length (`append_lt_append`, `flatMap_lt_flatMap`), and numbers are ordered as their digits (`cons_lt_cons_of_div`).
-/
import Mathlib.Data.List.Basic
import Mathlib.Data.Nat.Notation

namespace Trek

variable {α β : Type*} [LT α] [LT β]

/-- Lists of one length stay in their order, whatever follows them. -/
theorem append_lt_append : ∀ {a b : List α}, a.length = b.length → a < b → ∀ c d : List α, a ++ c < b ++ d
  | [], [], _, h, _, _ => absurd h (List.not_lt_nil _)
  | x :: a, y :: b, hlen, h, c, d => by
    rw [List.cons_append, List.cons_append, List.cons_lt_cons_iff]
    rcases List.cons_lt_cons_iff.mp h with hxy | ⟨hxy, hab⟩
    · exact .inl hxy
    · exact .inr ⟨hxy, append_lt_append (Nat.succ.inj hlen) hab c d⟩

/-- Elements written as blocks of one length. -/
theorem flatMap_lt_flatMap {f : α → List β} {P : α → Prop} (hlen : ∀ x y, (f x).length = (f y).length)
    (hf : ∀ x y, P x → P y → x < y → f x < f y) : ∀ {a b : List α}, (∀ x ∈ a, P x) → (∀ y ∈ b, P y) → a.length = b.length →
    a < b → a.flatMap f < b.flatMap f
  | [], [], _, _, _, h => absurd h (List.not_lt_nil _)
  | x :: a, y :: b, ha, hb, hab, h => by
    rw [List.flatMap_cons, List.flatMap_cons]
    rcases List.cons_lt_cons_iff.mp h with hxy | ⟨rfl, hrest⟩
    · exact append_lt_append (hlen x y) (hf x y (ha x List.mem_cons_self) (hb y List.mem_cons_self) hxy) _ _
    · exact List.append_left_lt (flatMap_lt_flatMap hlen hf (fun z hz => ha z (List.mem_cons_of_mem _ hz))
        (fun z hz => hb z (List.mem_cons_of_mem _ hz)) (Nat.succ.inj hab) hrest)

/-- A difference is in the first elements, or in what follows them. -/
theorem take_lt_or_drop_lt : ∀ (n : ℕ) {a b : List α}, a.length = b.length → a < b →
    a.take n < b.take n ∨ (a.take n = b.take n ∧ a.drop n < b.drop n)
  | 0, _, _, _, h => .inr ⟨rfl, h⟩
  | _ + 1, [], [], _, h => absurd h (List.not_lt_nil _)
  | n + 1, x :: a, y :: b, hlen, h => by
    simp only [List.take_succ_cons, List.drop_succ_cons, List.cons_lt_cons_iff]
    rcases List.cons_lt_cons_iff.mp h with hxy | ⟨rfl, hab⟩
    · exact .inl (.inl hxy)
    · rcases take_lt_or_drop_lt n (Nat.succ.inj hlen) hab with htake | ⟨htake, hdrop⟩
      · exact .inl (.inr ⟨rfl, htake⟩)
      · exact .inr ⟨by rw [htake], hdrop⟩

/-- Numbers are ordered by their first digits, and by what these leave when they are the same. -/
theorem cons_lt_cons_of_div {a b m x y : ℕ} {xs ys : List ℕ} (h : a < b) (hfirst : a / m < b / m → x < y)
    (hsame : a / m = b / m → x = y) (hrest : a % m < b % m → xs < ys) : x :: xs < y :: ys := by
  rw [List.cons_lt_cons_iff]
  rcases Nat.lt_or_eq_of_le (Nat.div_le_div_right (c := m) (Nat.le_of_lt h)) with hdiv | hdiv
  · exact .inl (hfirst hdiv)
  · right
    refine ⟨hsame hdiv, hrest ?_⟩
    have ha := Nat.div_add_mod a m
    have hb := Nat.div_add_mod b m
    rw [hdiv] at ha
    omega

end Trek
