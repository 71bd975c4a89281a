/-
# UTF-16

The code units of a text. A character beyond the basic plane has two of them, a high surrogate and a
low one; what reads a text unit by unit has to put them together again.
-/
import Trek.Lib.Utf8

namespace Trek

/-- `0xd800 <= code && code <= 0xdbff`. -/
def isHighSurrogate (code : ℕ) : Bool := 0xD800 ≤ code && code ≤ 0xDBFF

/-- `0xdc00 <= code && code <= 0xdfff`. -/
def isLowSurrogate (code : ℕ) : Bool := 0xDC00 ≤ code && code ≤ 0xDFFF

/-- The code units of a character. -/
def utf16Char (c : Char) : List ℕ :=
  if c.toNat < 0x10000 then [c.toNat]
  else [0xD800 + (c.toNat - 0x10000) / 0x400, 0xDC00 + (c.toNat - 0x10000) % 0x400]

/-- The code units of a text. -/
def utf16 (text : List Char) : List ℕ := text.flatMap utf16Char

/-- The text that code units make up. A surrogate without its other half is replaced. -/
def utf16ToString : List ℕ → List Char
  | [] => []
  | [code] => if isHighSurrogate code || isLowSurrogate code then [replacement] else [Char.ofNat code]
  | code :: next :: rest =>
    if isHighSurrogate code && isLowSurrogate next then
      Char.ofNat (0x10000 + (code - 0xD800) * 0x400 + (next - 0xDC00)) :: utf16ToString rest
    else
      (if isHighSurrogate code || isLowSurrogate code then replacement else Char.ofNat code) ::
        utf16ToString (next :: rest)

/-- A character has one unit that is no surrogate, or a pair of surrogates. -/
theorem utf16Char_cases (c : Char) :
    (c.toNat < 0x10000 ∧ utf16Char c = [c.toNat] ∧ isHighSurrogate c.toNat = false ∧ isLowSurrogate c.toNat = false) ∨
      ∃ high low, 0x10000 ≤ c.toNat ∧ utf16Char c = [high, low] ∧ isHighSurrogate high = true ∧
        isLowSurrogate low = true ∧ 0x10000 + (high - 0xD800) * 0x400 + (low - 0xDC00) = c.toNat := by
  have hv := Utf8Decoder.toNat_valid c
  unfold utf16Char isHighSurrogate isLowSurrogate
  generalize c.toNat = n at hv
  by_cases h : n < 0x10000
  · refine Or.inl ⟨h, if_pos h, ?_, ?_⟩ <;> grind
  · refine Or.inr ⟨0xD800 + (n - 0x10000) / 0x400, 0xDC00 + (n - 0x10000) % 0x400, by omega, if_neg h, ?_, ?_, by omega⟩
    · rw [Bool.and_eq_true, decide_eq_true_eq, decide_eq_true_eq]
      omega
    · rw [Bool.and_eq_true, decide_eq_true_eq, decide_eq_true_eq]
      omega

theorem utf16_cons (c : Char) (text : List Char) : utf16 (c :: text) = utf16Char c ++ utf16 text := List.flatMap_cons

theorem utf16_append (s t : List Char) : utf16 (s ++ t) = utf16 s ++ utf16 t := List.flatMap_append

/-- **The units of a text are read back as the text.** -/
theorem utf16ToString_utf16 : ∀ text : List Char, utf16ToString (utf16 text) = text
  | [] => rfl
  | c :: text => by
    have ih := utf16ToString_utf16 text
    rcases utf16Char_cases c with ⟨-, hc, hhigh, hlow⟩ | ⟨high, low, -, hc, hhigh, hlow, hcode⟩
    · have hchar : Char.ofNat c.toNat = c := Char.ofNat_toNat c
      rw [utf16_cons, hc, List.singleton_append]
      cases hunits : utf16 text with
      | nil =>
        rw [hunits] at ih
        rw [← ih]
        simp [utf16ToString, hhigh, hlow, hchar]
      | cons next rest =>
        rw [hunits] at ih
        rw [utf16ToString, hhigh, hlow, ih]
        simp [hchar]
    · have hchar : Char.ofNat c.toNat = c := Char.ofNat_toNat c
      rw [utf16_cons, hc, List.cons_append, List.singleton_append, utf16ToString, hhigh, hlow, hcode, hchar, ih]
      rfl

/-- The bytes of a character, by its code. -/
theorem length_utf8Char (c : Char) : (utf8Char c).length =
    if c.toNat ≤ 0x7F then 1 else if c.toNat ≤ 0x7FF then 2 else if c.toNat < 0x10000 then 3 else 4 := by
  unfold utf8Char
  generalize c.toNat = n
  dsimp only
  split_ifs <;> first | rfl | omega

end Trek
