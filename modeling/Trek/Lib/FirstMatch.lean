/-
# The first match of a pattern

A pattern says of a text whether it starts with a match, which one, and what comes after it. `text.match(pattern)` finds the
first place of a text where one starts (`firstMatch`), with the text before it and the text after it. A replacement text
that is given as a string is not inserted as it is: `$$`, `$&` and the two patterns for the text before and after the match
are expanded in it (`expandReplacement`). The patterns that use this have no groups, so that a `$` before anything else
stands for itself.
-/
import Mathlib.Data.List.TakeWhile
import Trek.Lib.Text

namespace Trek

/-- What a pattern matches at the start of a text, and the text after the match. -/
abbrev Pattern (ω : Type*) := List Char → Option (ω × List Char)

/-- A match in a text. -/
structure Found (ω : Type*) where
  before : List Char
  what : ω
  after : List Char
  deriving DecidableEq

variable {ω : Type*}

/-- The first match in a text. -/
def firstMatch (pattern : Pattern ω) : List Char → Option (Found ω)
  | [] => (pattern []).map fun m => ⟨[], m.1, m.2⟩
  | c :: text =>
    match pattern (c :: text) with
    | some m => some ⟨[], m.1, m.2⟩
    | none => (firstMatch pattern text).map fun f => { f with before := c :: f.before }

/-- The text goes on with a word, whatever the case of its letters: `/word/i`. The word is in lower case. -/
def dropWord (word text : List Char) : Option (List Char) :=
  if (text.take word.length).map Char.toLower = word then some (text.drop word.length) else none

/-- The list of characters of `s.trim()`. -/
def trimChars (text : List Char) : List Char := ((text.dropWhile isJsSpace).reverse.dropWhile isJsSpace).reverse

/-- The back quote, in a replacement the text before the match. -/
def BACK_QUOTE : Char := Char.ofNat 0x60

/-- The apostrophe, in a replacement the text after the match. -/
def APOSTROPHE : Char := Char.ofNat 0x27

/-- What a character after a `$` stands for in a replacement string. -/
def replacementPattern (matched before after : List Char) (c : Char) : Option (List Char) :=
  if c = '$' then some ['$']
  else if c = '&' then some matched
  else if c = BACK_QUOTE then some before
  else if c = APOSTROPHE then some after
  else none

/-- The text that `replace` inserts for a replacement string. -/
def expandReplacement (matched before after : List Char) : List Char → List Char
  | [] => []
  | [c] => [c]
  | c :: d :: rest =>
    match if c = '$' then replacementPattern matched before after d else none with
    | some text => text ++ expandReplacement matched before after rest
    | none => c :: expandReplacement matched before after (d :: rest)

/-! ### First matches -/

section

variable {pattern : Pattern ω} {text : List Char}

theorem firstMatch_of_match {w : ω} {after : List Char} (h : pattern text = some (w, after)) :
    firstMatch pattern text = some ⟨[], w, after⟩ := by
  cases text with
  | nil => rw [firstMatch, h, Option.map_some]
  | cons c text => rw [firstMatch, h]

theorem firstMatch_cons {c : Char} (h : pattern (c :: text) = none) :
    firstMatch pattern (c :: text) = (firstMatch pattern text).map fun f => { f with before := c :: f.before } := by
  rw [firstMatch, h]

/-- Nothing is found where no rest of the text starts with a match. -/
theorem firstMatch_eq_none : ∀ {text : List Char},
    firstMatch pattern text = none ↔ ∀ before rest, text = before ++ rest → pattern rest = none
  | [] => by
    rw [firstMatch, Option.map_eq_none_iff]
    constructor
    · intro h before rest heq
      rw [(List.append_eq_nil_iff.mp heq.symm).2]
      exact h
    · exact fun h => h [] [] rfl
  | c :: text => by
    cases hc : pattern (c :: text) with
    | some m =>
      rw [firstMatch_of_match hc]
      refine iff_of_false nofun fun h => ?_
      rw [h [] _ rfl] at hc
      cases hc
    | none =>
      rw [firstMatch_cons hc, Option.map_eq_none_iff, firstMatch_eq_none]
      constructor
      · intro h before rest heq
        cases before with
        | nil =>
          obtain rfl : c :: text = rest := heq
          exact hc
        | cons d before => exact h before rest (List.cons.inj heq).2
      · exact fun h before rest heq => h (c :: before) rest (by rw [heq]; rfl)

/-- The first match is the one at the first place where one starts. -/
theorem firstMatch_eq_some : ∀ {text : List Char} {f : Found ω},
    firstMatch pattern text = some f ↔ ∃ rest, text = f.before ++ rest ∧ pattern rest = some (f.what, f.after) ∧
      ∀ a b, f.before = a ++ b → b ≠ [] → pattern (b ++ rest) = none
  | [], ⟨before, w, after⟩ => by
    rw [firstMatch, Option.map_eq_some_iff]
    constructor
    · rintro ⟨⟨w', after'⟩, hm, heq⟩
      cases heq
      refine ⟨[], rfl, hm, fun a b heq hne => ?_⟩
      exact absurd (List.append_eq_nil_iff.mp heq.symm).2 hne
    · rintro ⟨rest, heq, hm, -⟩
      obtain ⟨hbefore, hrest⟩ := List.append_eq_nil_iff.mp heq.symm
      obtain rfl : before = [] := hbefore
      obtain rfl := hrest
      exact ⟨_, hm, rfl⟩
  | c :: text, ⟨before, w, after⟩ => by
    cases hc : pattern (c :: text) with
    | some m =>
      rw [firstMatch_of_match hc, Option.some.injEq]
      constructor
      · intro heq
        cases heq
        refine ⟨c :: text, rfl, hc, fun a b heq hne => ?_⟩
        exact absurd (List.append_eq_nil_iff.mp heq.symm).2 hne
      · rintro ⟨rest, heq, hm, hno⟩
        cases before with
        | nil =>
          obtain rfl : c :: text = rest := heq
          rw [hc] at hm
          obtain rfl := Option.some.inj hm
          rfl
        | cons d before =>
          have hnone := hno [] (d :: before) rfl nofun
          dsimp only at heq
          rw [← heq, hc] at hnone
          cases hnone
    | none =>
      rw [firstMatch_cons hc, Option.map_eq_some_iff]
      constructor
      · rintro ⟨⟨before', w', after'⟩, hf, heq⟩
        cases heq
        obtain ⟨rest, heq, hm, hno⟩ := firstMatch_eq_some.mp hf
        refine ⟨rest, congrArg _ heq, hm, fun a b hab hne => ?_⟩
        cases a with
        | nil =>
          obtain rfl : c :: before' = b := hab
          dsimp only at heq
          rw [List.cons_append, ← heq]
          exact hc
        | cons d a => exact hno a b (List.cons.inj hab).2 hne
      · rintro ⟨rest, heq, hm, hno⟩
        cases before with
        | nil =>
          obtain rfl : c :: text = rest := heq
          rw [hc] at hm
          cases hm
        | cons d before =>
          obtain ⟨rfl, htail⟩ := List.cons.inj heq
          refine ⟨⟨before, w, after⟩, firstMatch_eq_some.mpr ⟨rest, htail, hm, fun a b hab hne => ?_⟩, rfl⟩
          exact hno (c :: a) b (congrArg _ hab) hne

theorem firstMatch_ne_none {rest : List Char} (h : pattern rest ≠ none) (before : List Char) :
    firstMatch pattern (before ++ rest) ≠ none := fun hnone => h (firstMatch_eq_none.mp hnone before rest rfl)

/-- What is found in the rest of a text makes something be found in the text. -/
theorem firstMatch_append_ne_none (before : List Char) (h : firstMatch pattern text ≠ none) :
    firstMatch pattern (before ++ text) ≠ none := by
  obtain ⟨f, hf⟩ := Option.ne_none_iff_exists'.mp h
  obtain ⟨rest, rfl, hm, -⟩ := firstMatch_eq_some.mp hf
  rw [← List.append_assoc]
  apply firstMatch_ne_none
  rw [hm]
  exact Option.some_ne_none _

end

/-! ### Words -/

theorem dropWord_eq_some {word text rest : List Char} : dropWord word text = some rest ↔
    ∃ start, text = start ++ rest ∧ start.map Char.toLower = word := by
  unfold dropWord
  constructor
  · intro h
    rw [Option.ite_none_right_eq_some] at h
    obtain ⟨hword, hrest⟩ := h
    refine ⟨text.take word.length, ?_, hword⟩
    rw [← Option.some.inj hrest, List.take_append_drop]
  · rintro ⟨start, rfl, rfl⟩
    rw [List.length_map, List.take_left, List.drop_left, if_pos rfl]

theorem dropWord_append {word text rest : List Char} (h : dropWord word text = some rest) (after : List Char) :
    dropWord word (text ++ after) = some (rest ++ after) := by
  obtain ⟨start, rfl, hstart⟩ := dropWord_eq_some.mp h
  exact dropWord_eq_some.mpr ⟨start, List.append_assoc _ _ _, hstart⟩

/-- A character that is none of the word's ends it. -/
theorem dropWord_append_cons {word : List Char} {c : Char} (hc : c.toLower ∉ word) {text after rest : List Char}
    (h : dropWord word (text ++ c :: after) = some rest) :
    ∃ rest', dropWord word text = some rest' ∧ rest = rest' ++ c :: after := by
  obtain ⟨start, heq, hstart⟩ := dropWord_eq_some.mp h
  rcases List.append_eq_append_iff.mp heq with ⟨more, rfl, hrest⟩ | ⟨more, rfl, hrest⟩
  · cases more with
    | nil =>
      rw [List.append_nil] at hstart
      exact ⟨[], dropWord_eq_some.mpr ⟨text, (List.append_nil _).symm, hstart⟩, hrest.symm⟩
    | cons d more =>
      obtain rfl : c = d := (List.cons.inj hrest).1
      exact absurd (by rw [← hstart]; simp) hc
  · exact ⟨more, dropWord_eq_some.mpr ⟨start, rfl, hstart⟩, hrest⟩

/-! ### White space around a text -/

theorem trimChars_append_left {space : List Char} (h : ∀ c ∈ space, isJsSpace c = true) (text : List Char) :
    trimChars (space ++ text) = trimChars text := by
  rw [trimChars, trimChars, List.dropWhile_append_of_pos h]

theorem trimChars_append_right {space : List Char} (h : ∀ c ∈ space, isJsSpace c = true) (text : List Char) :
    trimChars (text ++ space) = trimChars text := by
  have hreverse : ∀ c ∈ space.reverse, isJsSpace c = true := fun c hc => h c (List.mem_reverse.mp hc)
  rw [trimChars, trimChars, List.dropWhile_append]
  split
  · next hempty =>
    rw [List.isEmpty_iff] at hempty
    have hspace : space.dropWhile isJsSpace = [] := List.dropWhile_eq_nil_iff.mpr h
    rw [hempty, hspace]
  · rw [List.reverse_append, List.dropWhile_append_of_pos hreverse]

/-- A text is white space, the trimmed text, and white space. -/
theorem exists_eq_trimChars (text : List Char) : ∃ before after, (∀ c ∈ before, isJsSpace c = true) ∧
    (∀ c ∈ after, isJsSpace c = true) ∧ text = before ++ (trimChars text ++ after) := by
  have hall : ∀ l : List Char, ∀ c ∈ l.takeWhile isJsSpace, isJsSpace c = true := fun l c hc => List.mem_takeWhile_imp hc
  refine ⟨text.takeWhile isJsSpace, ((text.dropWhile isJsSpace).reverse.takeWhile isJsSpace).reverse, hall _,
    fun c hc => hall _ c (List.mem_reverse.mp hc), ?_⟩
  rw [trimChars, ← List.reverse_append, List.takeWhile_append_dropWhile, List.reverse_reverse,
    List.takeWhile_append_dropWhile]

theorem trimChars_trimChars (text : List Char) : trimChars (trimChars text) = trimChars text := by
  obtain ⟨before, after, hbefore, hafter, heq⟩ := exists_eq_trimChars text
  conv_rhs => rw [heq, trimChars_append_left hbefore, trimChars_append_right hafter]

theorem count_trimChars {c : Char} (hc : isJsSpace c = false) (text : List Char) : (trimChars text).count c = text.count c := by
  obtain ⟨before, after, hbefore, hafter, heq⟩ := exists_eq_trimChars text
  have hzero : ∀ {space : List Char}, (∀ d ∈ space, isJsSpace d = true) → space.count c = 0 := by
    intro space h
    rw [List.count_eq_zero]
    intro hmem
    rw [h c hmem] at hc
    cases hc
  conv_rhs => rw [heq, List.count_append, List.count_append, hzero hbefore, hzero hafter]
  omega

/-! ### Replacements -/

section

variable {matched before after : List Char}

theorem expandReplacement_cons {c : Char} (hc : c ≠ '$') (rest : List Char) :
    expandReplacement matched before after (c :: rest) = c :: expandReplacement matched before after rest := by
  cases rest with
  | nil => rfl
  | cons d rest => simp only [expandReplacement, if_neg hc]

theorem expandReplacement_some {d : Char} {text : List Char} (hd : replacementPattern matched before after d = some text)
    (rest : List Char) : expandReplacement matched before after ('$' :: d :: rest) =
      text ++ expandReplacement matched before after rest := by
  simp only [expandReplacement, if_pos, hd]

theorem expandReplacement_none {d : Char} (hd : replacementPattern matched before after d = none) (rest : List Char) :
    expandReplacement matched before after ('$' :: d :: rest) =
      '$' :: expandReplacement matched before after (d :: rest) := by
  simp only [expandReplacement, if_pos, hd]

theorem replacementPattern_eq_none {c : Char} (hc : c ∉ ['$', '&', BACK_QUOTE, APOSTROPHE]) :
    replacementPattern matched before after c = none := by
  simp only [List.mem_cons, List.not_mem_nil, or_false, not_or] at hc
  rw [replacementPattern, if_neg hc.1, if_neg hc.2.1, if_neg hc.2.2.1, if_neg hc.2.2.2]

/-- A character that is no part of a replacement pattern ends the one before it. -/
theorem expandReplacement_append_cons {c : Char} (hc : c ∉ ['$', '&', BACK_QUOTE, APOSTROPHE]) (rest : List Char) :
    ∀ text : List Char, expandReplacement matched before after (text ++ c :: rest) =
      expandReplacement matched before after text ++ c :: expandReplacement matched before after rest
  | [] => expandReplacement_cons (fun h => hc (by simp [h])) rest
  | [d] => by
    have hdollar : c ≠ '$' := fun h => hc (by simp [h])
    rw [List.singleton_append]
    by_cases hd : d = '$'
    · rw [hd, expandReplacement_none (replacementPattern_eq_none hc), expandReplacement_cons hdollar]
      rfl
    · rw [expandReplacement_cons hd, expandReplacement_cons hdollar]
      rfl
  | d :: e :: text => by
    rw [List.cons_append, List.cons_append]
    by_cases hd : d = '$'
    · obtain rfl := hd
      cases he : replacementPattern matched before after e with
      | some inserted =>
        rw [expandReplacement_some he, expandReplacement_some he, expandReplacement_append_cons hc rest text,
          List.append_assoc]
      | none =>
        have ih := expandReplacement_append_cons hc rest (e :: text)
        rw [List.cons_append] at ih
        rw [expandReplacement_none he, expandReplacement_none he, ih]
        rfl
    · have ih := expandReplacement_append_cons hc rest (e :: text)
      rw [List.cons_append] at ih
      rw [expandReplacement_cons hd, expandReplacement_cons hd, ih]
      rfl

/-- A text without a `$` is inserted as it is. -/
theorem expandReplacement_append {start : List Char} (h : '$' ∉ start) (text : List Char) :
    expandReplacement matched before after (start ++ text) = start ++ expandReplacement matched before after text := by
  induction start with
  | nil => rfl
  | cons c start ih =>
    rw [List.mem_cons, not_or] at h
    rw [List.cons_append, expandReplacement_cons (Ne.symm h.1), ih h.2]
    rfl

theorem expandReplacement_of_notMem {text : List Char} (h : '$' ∉ text) :
    expandReplacement matched before after text = text := by
  have happend : expandReplacement matched before after (text ++ []) = text ++ expandReplacement matched before after [] :=
    expandReplacement_append h []
  rwa [List.append_nil, expandReplacement, List.append_nil] at happend

/-- The text has a replacement pattern. -/
def hasReplacement : List Char → Bool
  | c :: d :: rest => (c = '$' && d ∈ ['$', '&', BACK_QUOTE, APOSTROPHE]) || hasReplacement (d :: rest)
  | _ => false

/-- A text without a replacement pattern is inserted as it is. -/
theorem expandReplacement_of_hasReplacement : ∀ {text : List Char}, hasReplacement text = false →
    expandReplacement matched before after text = text
  | [], _ => rfl
  | [_], _ => rfl
  | c :: d :: text, h => by
    rw [hasReplacement, Bool.or_eq_false_iff, Bool.and_eq_false_iff] at h
    by_cases hc : c = '$'
    · obtain rfl := hc
      have hd : d ∉ ['$', '&', BACK_QUOTE, APOSTROPHE] := of_decide_eq_false (h.1.resolve_left (by decide))
      rw [expandReplacement_none (replacementPattern_eq_none hd), expandReplacement_of_hasReplacement h.2]
    · rw [expandReplacement_cons hc, expandReplacement_of_hasReplacement h.2]

/-- What is inserted has each character that is no part of a replacement pattern as often at least. -/
theorem count_le_expandReplacement {c : Char} (hc : c ∉ ['$', '&', BACK_QUOTE, APOSTROPHE]) :
    ∀ text : List Char, text.count c ≤ (expandReplacement matched before after text).count c
  | [] => Nat.le_refl _
  | [_] => Nat.le_refl _
  | d :: e :: text => by
    have hpattern : ∀ e : Char, (replacementPattern matched before after e).isSome = true → e ≠ c := by
      rintro e hsome rfl
      rw [replacementPattern_eq_none hc] at hsome
      exact Bool.false_ne_true hsome
    by_cases hd : d = '$'
    · obtain rfl := hd
      have hdollar : '$' ≠ c := fun h => hc (by simp [← h])
      cases he : replacementPattern matched before after e with
      | some inserted =>
        rw [expandReplacement_some he, List.count_append, List.count_cons_of_ne hdollar,
          List.count_cons_of_ne (hpattern e (by rw [he]; rfl))]
        exact Nat.le_trans (count_le_expandReplacement hc text) (Nat.le_add_left _ _)
      | none =>
        rw [expandReplacement_none he, List.count_cons_of_ne hdollar, List.count_cons_of_ne hdollar]
        exact count_le_expandReplacement hc (e :: text)
    · rw [expandReplacement_cons hd, List.count_cons, List.count_cons (l := expandReplacement _ _ _ _)]
      exact Nat.add_le_add_right (count_le_expandReplacement hc (e :: text)) _

end

end Trek
