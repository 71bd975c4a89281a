/-
# Patterns that look behind

A pattern may ask for the character before its match. It is tried at every position of a text, from the first to the last.
-/
import Trek.Lib.FirstMatch

namespace Trek

variable {ω : Type*}

/-- What a pattern matches at a position, with the character before it. -/
abbrev Lookbehind (ω : Type*) := Option Char → Pattern ω

/-- The first match in a text that comes after a character. -/
def firstMatchFrom (pattern : Lookbehind ω) : Option Char → List Char → Option (Found ω)
  | prev, [] => (pattern prev []).map fun m => ⟨[], m.1, m.2⟩
  | prev, c :: text =>
    match pattern prev (c :: text) with
    | some m => some ⟨[], m.1, m.2⟩
    | none => (firstMatchFrom pattern (some c) text).map fun f => { f with before := c :: f.before }

/-- `text.replace(pattern, "")`. -/
def removeFirst (pattern : Lookbehind ω) (text : List Char) : List Char :=
  match firstMatchFrom pattern none text with
  | some f => f.before ++ f.after
  | none => text

theorem removeFirst_of_none {pattern : Lookbehind ω} {text : List Char} (h : firstMatchFrom pattern none text = none) :
    removeFirst pattern text = text := by
  rw [removeFirst, h]

end Trek
