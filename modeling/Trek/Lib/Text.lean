/-
# Text as JavaScript reads it

The white space `trim` strips and `\s` matches, and the letters of a word.
-/
import Mathlib.Algebra.GroupWithZero.Nat
import Mathlib.Data.List.Basic

namespace Trek

/-- White space and line terminators of ECMAScript. -/
def isJsSpace (c : Char) : Bool :=
  c.toNat ∈ [0x09, 0x0A, 0x0B, 0x0C, 0x0D, 0x20, 0xA0, 0x1680, 0x2028, 0x2029, 0x202F, 0x205F, 0x3000,
    0xFEFF] || (0x2000 ≤ c.toNat && c.toNat ≤ 0x200A)

/-- `s.trim()`. -/
def jsTrim (s : String) : String :=
  String.ofList ((((s.toList.dropWhile isJsSpace).reverse.dropWhile isJsSpace)).reverse)

/-- `[A-Za-z0-9]`. -/
def isAlnum (c : Char) : Bool := c.isAlphanum

/-- `\w`. -/
def isWordChar (c : Char) : Bool := isAlnum c || c = '_'

/-- Every position of a text: the character before it, and the text after it. -/
def positions : Option Char → List Char → List (Option Char × List Char)
  | before, [] => [(before, [])]
  | before, c :: cs => (before, c :: cs) :: positions (some c) cs

/-- A text goes on with a word, and the word ends there: `word\b`. -/
def startsWithWord (word : String) (text : List Char) : Bool :=
  word.toList.isPrefixOf text && !(text.drop word.toList.length).head?.any isWordChar

/-- `s.length`: characters beyond the basic plane count twice. -/
def jsLength (s : String) : ℕ := (s.toList.map fun c => if c.toNat < 0x10000 then 1 else 2).sum

/-- The last separator of a text splits it in one way. -/
theorem append_separator_inj {α : Type*} {c : α} : ∀ {l₁ l₂ d₁ d₂ : List α}, c ∉ d₁ → c ∉ d₂ →
    l₁ ++ c :: d₁ = l₂ ++ c :: d₂ → l₁ = l₂ ∧ d₁ = d₂
  | [], [], _, _, _, _, h => ⟨rfl, (List.cons.inj h).2⟩
  | [], a :: l₂, d₁, d₂, h₁, _, h => by
    obtain ⟨-, rfl⟩ := List.cons.inj h
    exact absurd (List.mem_append_right l₂ List.mem_cons_self) h₁
  | a :: l₁, [], d₁, d₂, _, h₂, h => by
    obtain ⟨-, rfl⟩ := List.cons.inj h
    exact absurd (List.mem_append_right l₁ List.mem_cons_self) h₂
  | a :: l₁, b :: l₂, d₁, d₂, h₁, h₂, h => by
    obtain ⟨hab, htail⟩ := List.cons.inj h
    obtain ⟨hl, hd⟩ := append_separator_inj h₁ h₂ htail
    exact ⟨by rw [hab, hl], hd⟩

/-- Text that neither starts nor ends with a character is not found across enough of that character. -/
theorem infix_of_infix_replicate {α : Type*} {l before after : List α} {c : α} {n : ℕ} (hl : l ≠ [])
    (hhead : l.head? ≠ some c) (hlast : l.getLast? ≠ some c) (hn : l.length ≤ n)
    (h : l <:+: before ++ (List.replicate n c ++ after)) : l <:+: before ∨ l <:+: after := by
  have hhead_ne : ∀ {l₁ l₂ : List α}, l₁ ≠ [] → l = l₁ ++ l₂ → ∃ x ∈ l₁, x ≠ c := by
    rintro (_ | ⟨x, l₁⟩) l₂ hne rfl
    · exact absurd rfl hne
    · exact ⟨x, List.mem_cons_self, fun hx => hhead (congrArg some hx)⟩
  rcases List.infix_append_iff_ne_nil.mp h with h | h | ⟨l₁, l₂, -, hne, rfl, -, hprefix⟩
  · exact Or.inl h
  · rcases List.infix_append_iff_ne_nil.mp h with h | h | ⟨l₁, l₂, hne, -, heq, hsuffix, -⟩
    · obtain ⟨x, hx, hxc⟩ := hhead_ne hl (List.append_nil l).symm
      exact absurd (List.eq_of_mem_replicate (h.subset hx)) hxc
    · exact Or.inr h
    · obtain ⟨x, hx, hxc⟩ := hhead_ne hne heq
      exact absurd (List.eq_of_mem_replicate (hsuffix.subset hx)) hxc
  · -- the end of the text lies among the repeated characters
    have hlen : l₂.length ≤ (List.replicate n c).length := by
      rw [List.length_replicate]
      rw [List.length_append] at hn
      omega
    have hprefix' : l₂ <+: List.replicate n c := List.prefix_of_prefix_length_le hprefix (List.prefix_append _ _) hlen
    have hc := List.eq_of_mem_replicate (hprefix'.subset (List.getLast_mem hne))
    rw [List.getLast?_append_of_ne_nil _ hne, List.getLast?_eq_some_getLast hne, hc] at hlast
    exact absurd rfl hlast

end Trek
