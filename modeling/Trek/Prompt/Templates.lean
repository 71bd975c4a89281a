/-
# Prompt templates

`substituteArgs` of `core/prompt-templates.ts` puts the arguments of a command into the placeholders of a template: `$1`,
`${@:2}`, `${@:2:3}`, `$ARGUMENTS` and `$@`. It replaces one kind after the other, so that what it has inserted for one kind
is read again for the next ones, and for the last two kinds it gives `replace` the arguments as a replacement string. Where
no placeholder arises so and no replacement pattern is expanded, every placeholder of the template is replaced by its value,
once and as it is (`substituteArgs_once`).
-/
import Mathlib.Data.List.Infix
import Trek.Lib.Replace

namespace Trek.Templates

/-! ### Placeholders -/

/-- A placeholder, with its digits as they are written. -/
inductive Placeholder where
  | positional (num : List Char)
  | slice (start : List Char) (length : Option (List Char))
  | arguments
  | allArgs
  deriving DecidableEq

/-- The kinds of placeholders, in the order in which they are replaced. -/
inductive Kind where
  | positional
  | slice
  | arguments
  | allArgs
  deriving DecidableEq

def Kind.stage : Kind → ℕ
  | positional => 0
  | slice => 1
  | arguments => 2
  | allArgs => 3

def Placeholder.kind : Placeholder → Kind
  | positional _ => .positional
  | slice _ _ => .slice
  | arguments => .arguments
  | allArgs => .allArgs

/-- The brackets of a slice. -/
def SLICE_OPEN : List Char := ['$', '{', '@', ':']

def SLICE_CLOSE : Char := '}'

/-- The words for all arguments. -/
def ARGUMENTS : List Char := "$ARGUMENTS".toList

def ALL_ARGS : List Char := "$@".toList

/-- The text of a placeholder. -/
def Placeholder.source : Placeholder → List Char
  | positional num => '$' :: num
  | slice start none => SLICE_OPEN ++ (start ++ [SLICE_CLOSE])
  | slice start (some length) => SLICE_OPEN ++ (start ++ ':' :: (length ++ [SLICE_CLOSE]))
  | arguments => ARGUMENTS
  | allArgs => ALL_ARGS

/-- `\d+`. -/
def digits (text : List Char) : Option (List Char × List Char) :=
  if text.takeWhile Char.isDigit = [] then none
  else some (text.takeWhile Char.isDigit, text.dropWhile Char.isDigit)

/-- `/\$(\d+)/`. -/
def positionalPattern : Pattern Placeholder := fun text =>
  (word ['$'] text).bind fun p => (digits p.2).map fun q => (.positional q.1, q.2)

/-- `/\}/`. -/
def sliceEnd (start : List Char) (length : Option (List Char)) : Pattern Placeholder := fun text =>
  (word [SLICE_CLOSE] text).map fun p => (.slice start length, p.2)

/-- `/:(\d+)\}/`. -/
def sliceLength (start : List Char) : Pattern Placeholder := fun text =>
  (word [':'] text).bind fun p => (digits p.2).bind fun q => sliceEnd start (some q.1) q.2

/-- `/\$\{@:(\d+)(?::(\d+))?\}/`. -/
def slicePattern : Pattern Placeholder := fun text =>
  (word SLICE_OPEN text).bind fun p => (digits p.2).bind fun q => (sliceLength q.1 q.2).or (sliceEnd q.1 none q.2)

/-- `/\$ARGUMENTS/`. -/
def argumentsPattern : Pattern Placeholder := fun text =>
  (word ARGUMENTS text).map fun p => (.arguments, p.2)

/-- `/\$@/`. -/
def allArgsPattern : Pattern Placeholder := fun text =>
  (word ALL_ARGS text).map fun p => (.allArgs, p.2)

def Kind.pattern : Kind → Pattern Placeholder
  | positional => positionalPattern
  | slice => slicePattern
  | arguments => argumentsPattern
  | allArgs => allArgsPattern

/-! ### The code -/

/-- `parseInt(num, 10)`. -/
def parseDigits (num : List Char) : ℕ := num.foldl (fun n c => 10 * n + (c.toNat - '0'.toNat)) 0

/-- `args.join(" ")`. -/
def joinArgs (args : List (List Char)) : List Char := [' '].intercalate args

/-- `args[num - 1] ?? ""`. -/
def positionalValue (args : List (List Char)) (num : List Char) : List Char :=
  if parseDigits num = 0 then [] else (args[parseDigits num - 1]?).getD []

/-- The arguments from a start on, as many as a length if there is one. -/
def sliceValue (args : List (List Char)) (start : List Char) (length : Option (List Char)) : List Char :=
  match length with
  | none => joinArgs (args.drop (parseDigits start - 1))
  | some length => joinArgs ((args.drop (parseDigits start - 1)).take (parseDigits length))

/-- What a placeholder stands for. -/
def Placeholder.value (args : List (List Char)) : Placeholder → List Char
  | positional num => positionalValue args num
  | slice start length => sliceValue args start length
  | arguments => joinArgs args
  | allArgs => joinArgs args

def substituteArgs (content : List Char) (args : List (List Char)) : List Char :=
  let result := replaceAll positionalPattern (fun f => f.what.value args) content
  let result := replaceAll slicePattern (fun f => f.what.value args) result
  let allArgs := joinArgs args
  let result := replaceAll argumentsPattern (fun f => expandReplacement ARGUMENTS f.before f.after allArgs) result
  replaceAll allArgsPattern (fun f => expandReplacement ALL_ARGS f.before f.after allArgs) result

structure ArgState where
  args : List (List Char) := []
  current : List Char := []
  inQuote : Option Char := none

def argStep (s : ArgState) (char : Char) : ArgState :=
  match s.inQuote with
  | some quote => if char = quote then { s with inQuote := none } else { s with current := s.current ++ [char] }
  | none =>
    if char = Char.ofNat 0x22 ∨ char = APOSTROPHE then { s with inQuote := some char }
    else if isJsSpace char then
      if s.current ≠ [] then { s with args := s.args ++ [s.current], current := [] } else s
    else { s with current := s.current ++ [char] }

def parseCommandArgs (argsString : List Char) : List (List Char) :=
  let s := argsString.foldl argStep {}
  if s.current ≠ [] then s.args ++ [s.current] else s.args

structure PromptTemplate where
  name : List Char
  content : List Char

/-- `/^\/([^\s]+)(?:\s+([\s\S]*))?$/`: the name of a template, and its arguments. -/
def templateCall (text : List Char) : Option (List Char × List Char) :=
  match word ['/'] text with
  | none => none
  | some (_, text) =>
    if text.takeWhile (!isJsSpace ·) = [] then none
    else some (text.takeWhile (!isJsSpace ·), (text.dropWhile (!isJsSpace ·)).dropWhile isJsSpace)

def expandPromptTemplate (text : List Char) (templates : List PromptTemplate) : List Char :=
  match templateCall text with
  | none => text
  | some (templateName, argsString) =>
    match templates.find? (·.name = templateName) with
    | some template => substituteArgs template.content (parseCommandArgs argsString)
    | none => text

/-! ### One pass -/

/-- Any placeholder. -/
def anyPlaceholder : Pattern Placeholder := fun text =>
  (positionalPattern text).or ((slicePattern text).or ((argumentsPattern text).or (allArgsPattern text)))

/-- The template read once, each of its placeholders replaced by its value. -/
def substituteOnce (content : List Char) (args : List (List Char)) : List Char :=
  replaceAll anyPlaceholder (fun f => f.what.value args) content

/-! ### What the patterns match -/

section

variable {text rest before after : List Char} {p : Placeholder} {k : Kind} {args : List (List Char)}

/-- The digits of a placeholder are digits. -/
def IsDigits (num : List Char) : Prop := num ≠ [] ∧ ∀ c ∈ num, c.isDigit = true

def Placeholder.WellFormed : Placeholder → Prop
  | positional num => IsDigits num
  | slice start none => IsDigits start
  | slice start (some length) => IsDigits start ∧ IsDigits length
  | arguments => True
  | allArgs => True

theorem eq_of_digits {num : List Char} (h : digits text = some (num, rest)) : text = num ++ rest ∧ IsDigits num := by
  unfold digits at h
  split at h
  · cases h
  · next hne =>
    cases h
    refine ⟨(List.takeWhile_append_dropWhile).symm, hne, fun c hc => ?_⟩
    exact List.mem_takeWhile_imp hc

theorem digits_append {num : List Char} (h : IsDigits num) {c : Char} (hc : c.isDigit = false) (rest : List Char) :
    digits (num ++ c :: rest) = some (num, c :: rest) := by
  have htake : (num ++ c :: rest).takeWhile Char.isDigit = num := by
    rw [List.takeWhile_append_of_pos h.2, List.takeWhile_cons_of_neg (by simp [hc]), List.append_nil]
  have hdrop : (num ++ c :: rest).dropWhile Char.isDigit = c :: rest := by
    rw [List.dropWhile_append_of_pos h.2, List.dropWhile_cons_of_neg (by simp [hc])]
  rw [digits, htake, hdrop, if_neg h.1]

theorem eq_of_positionalPattern (h : positionalPattern text = some (p, rest)) :
    p.kind = .positional ∧ p.WellFormed ∧ text = p.source ++ rest := by
  obtain ⟨⟨u, text'⟩, hword, h⟩ := Option.bind_eq_some_iff.mp h
  obtain ⟨⟨num, rest'⟩, hdigits, heq⟩ := Option.map_eq_some_iff.mp h
  cases heq
  obtain ⟨htext : text' = num ++ rest', hnum⟩ := eq_of_digits hdigits
  refine ⟨rfl, hnum, ?_⟩
  calc text = ['$'] ++ text' := eq_of_word hword
    _ = '$' :: num ++ rest' := by rw [htext]; rfl

theorem eq_of_sliceEnd {start : List Char} {length : Option (List Char)} (h : sliceEnd start length text = some (p, rest)) :
    p = .slice start length ∧ text = SLICE_CLOSE :: rest := by
  obtain ⟨⟨u, rest'⟩, hword, heq⟩ := Option.map_eq_some_iff.mp h
  cases heq
  exact ⟨rfl, eq_of_word hword⟩

theorem eq_of_sliceLength {start : List Char} (h : sliceLength start text = some (p, rest)) :
    ∃ length, p = .slice start (some length) ∧ IsDigits length ∧ text = ':' :: (length ++ SLICE_CLOSE :: rest) := by
  obtain ⟨⟨u, text'⟩, hword, h⟩ := Option.bind_eq_some_iff.mp h
  obtain ⟨⟨length, text''⟩, hdigits, hend⟩ := Option.bind_eq_some_iff.mp h
  obtain ⟨htext' : text' = length ++ text'', hlength⟩ := eq_of_digits hdigits
  obtain ⟨hp, htext'' : text'' = SLICE_CLOSE :: rest⟩ := eq_of_sliceEnd hend
  refine ⟨length, hp, hlength, ?_⟩
  calc text = [':'] ++ text' := eq_of_word hword
    _ = ':' :: (length ++ SLICE_CLOSE :: rest) := by rw [htext', htext'']; rfl

theorem eq_of_slicePattern (h : slicePattern text = some (p, rest)) :
    p.kind = .slice ∧ p.WellFormed ∧ text = p.source ++ rest := by
  obtain ⟨⟨u, text'⟩, hopen, h⟩ := Option.bind_eq_some_iff.mp h
  obtain ⟨⟨start, text''⟩, hdigits, h⟩ := Option.bind_eq_some_iff.mp h
  dsimp only at hdigits h
  obtain ⟨htext', hstart⟩ := eq_of_digits hdigits
  have htext : text = SLICE_OPEN ++ (start ++ text'') := by rw [eq_of_word hopen, htext']
  rcases Option.or_eq_some_iff.mp h with hlength | ⟨-, hend⟩
  · obtain ⟨length, hp, hdigits', htext''⟩ := eq_of_sliceLength hlength
    rw [hp]
    refine ⟨rfl, ⟨hstart, hdigits'⟩, ?_⟩
    rw [htext, htext'', Placeholder.source, List.append_assoc, List.append_assoc, List.cons_append, List.append_assoc,
      List.singleton_append]
  · obtain ⟨hp, htext''⟩ := eq_of_sliceEnd hend
    rw [hp]
    refine ⟨rfl, hstart, ?_⟩
    rw [htext, htext'', Placeholder.source, List.append_assoc, List.append_assoc, List.singleton_append]

theorem eq_of_argumentsPattern (h : argumentsPattern text = some (p, rest)) :
    p.kind = .arguments ∧ p.WellFormed ∧ text = p.source ++ rest := by
  obtain ⟨⟨u, rest'⟩, hword, heq⟩ := Option.map_eq_some_iff.mp h
  cases heq
  exact ⟨rfl, trivial, eq_of_word hword⟩

theorem eq_of_allArgsPattern (h : allArgsPattern text = some (p, rest)) :
    p.kind = .allArgs ∧ p.WellFormed ∧ text = p.source ++ rest := by
  obtain ⟨⟨u, rest'⟩, hword, heq⟩ := Option.map_eq_some_iff.mp h
  cases heq
  exact ⟨rfl, trivial, eq_of_word hword⟩

/-- A pattern matches the placeholders of its kind. -/
theorem eq_of_pattern (h : k.pattern text = some (p, rest)) : p.kind = k ∧ p.WellFormed ∧ text = p.source ++ rest := by
  cases k with
  | positional => exact eq_of_positionalPattern h
  | slice => exact eq_of_slicePattern h
  | arguments => exact eq_of_argumentsPattern h
  | allArgs => exact eq_of_allArgsPattern h

/-- A placeholder that ends by itself is matched whatever comes after it. -/
theorem pattern_source (hp : p.WellFormed) (hk : p.kind ≠ .positional) (rest : List Char) :
    p.kind.pattern (p.source ++ rest) = some (p, rest) := by
  have hclose : SLICE_CLOSE.isDigit = false := by decide
  have hcolon : (':').isDigit = false := by decide
  match p with
  | .positional num => exact absurd rfl hk
  | .arguments =>
    change argumentsPattern (ARGUMENTS ++ rest) = _
    rw [argumentsPattern, word_append]
    rfl
  | .allArgs =>
    change allArgsPattern (ALL_ARGS ++ rest) = _
    rw [allArgsPattern, word_append]
    rfl
  | .slice start none =>
    have hend : word [SLICE_CLOSE] (SLICE_CLOSE :: rest) = some ((), rest) := word_append [SLICE_CLOSE] rest
    have hnone : sliceLength start (SLICE_CLOSE :: rest) = none := rfl
    change slicePattern (SLICE_OPEN ++ (start ++ [SLICE_CLOSE]) ++ rest) = _
    rw [List.append_assoc, List.append_assoc, List.singleton_append, slicePattern, word_append, Option.bind_some,
      digits_append hp hclose, Option.bind_some, hnone, Option.none_or, sliceEnd, hend, Option.map_some]
  | .slice start (some length) =>
    have hend : word [SLICE_CLOSE] (SLICE_CLOSE :: rest) = some ((), rest) := word_append [SLICE_CLOSE] rest
    have hnext : word [':'] (':' :: (length ++ SLICE_CLOSE :: rest)) = some ((), length ++ SLICE_CLOSE :: rest) :=
      word_append [':'] _
    change slicePattern (SLICE_OPEN ++ (start ++ ':' :: (length ++ [SLICE_CLOSE])) ++ rest) = _
    rw [List.append_assoc, List.append_assoc, List.cons_append, List.append_assoc, List.singleton_append, slicePattern,
      word_append, Option.bind_some, digits_append hp.1 hcolon, Option.bind_some, sliceLength, hnext, Option.bind_some,
      digits_append hp.2 hclose, Option.bind_some, sliceEnd, hend, Option.map_some, Option.some_or]

/-- The kind of a placeholder by the character after its `$`. -/
def Kind.marks : Kind → Char → Bool
  | positional, c => c.isDigit
  | slice, c => c = '{'
  | arguments, c => c = 'A'
  | allArgs, c => c = '@'

theorem Kind.eq_of_marks {k' : Kind} {c : Char} (h : k.marks c = true) (h' : k'.marks c = true) : k = k' := by
  have hdigit : ∀ c, c.isDigit = true → c ≠ '{' ∧ c ≠ 'A' ∧ c ≠ '@' := by
    intro c hc
    refine ⟨?_, ?_, ?_⟩ <;>
    · rintro rfl
      exact absurd hc (by decide)
  cases k <;> cases k' <;> simp_all [Kind.marks]

/-- A placeholder has one `$`, and the character after it. -/
theorem exists_source (hp : p.WellFormed) : ∃ c tail, p.source = '$' :: c :: tail ∧ p.kind.marks c = true ∧ '$' ∉ c :: tail := by
  have hdollar : ∀ {num : List Char}, IsDigits num → '$' ∉ num := fun hnum hmem => absurd (hnum.2 _ hmem) (by decide)
  match p with
  | .positional num =>
    obtain ⟨c, num, rfl⟩ := List.exists_cons_of_ne_nil hp.1
    exact ⟨c, num, rfl, hp.2 c List.mem_cons_self, hdollar hp⟩
  | .slice start none => exact ⟨'{', _, rfl, rfl, by simpa [SLICE_CLOSE] using hdollar hp⟩
  | .slice start (some length) =>
    exact ⟨'{', _, rfl, rfl, by simpa [SLICE_CLOSE] using ⟨hdollar hp.1, hdollar hp.2⟩⟩
  | .arguments => exact ⟨'A', "RGUMENTS".toList, by decide, by decide, by decide⟩
  | .allArgs => exact ⟨'@', [], by decide, by decide, by decide⟩

theorem eq_dollar_of_pattern {c : Char} (h : k.pattern (c :: text) ≠ none) : c = '$' := by
  obtain ⟨⟨p, rest⟩, hmatch⟩ := Option.ne_none_iff_exists'.mp h
  obtain ⟨-, hp, htext⟩ := eq_of_pattern hmatch
  obtain ⟨d, tail, hsource, -, -⟩ := exists_source hp
  rw [hsource] at htext
  exact (List.cons.inj htext).1

/-- No other pattern matches a placeholder, and none matches inside of it. -/
theorem pattern_source_of_ne (hp : p.WellFormed) (hk : p.kind ≠ k) {x y : List Char} (h : p.source = x ++ y) (hne : y ≠ [])
    (rest : List Char) : k.pattern (y ++ rest) = none := by
  obtain ⟨c, tail, hsource, hmarks, hdollar⟩ := exists_source hp
  obtain ⟨d, y, rfl⟩ := List.exists_cons_of_ne_nil hne
  by_contra hmatch
  obtain rfl := eq_dollar_of_pattern hmatch
  rw [hsource] at h
  cases x with
  | cons e x =>
    have htail := (List.cons.inj h).2
    exact hdollar (htail ▸ List.mem_append_right _ List.mem_cons_self)
  | nil =>
    obtain rfl := (List.cons.inj h).2
    obtain ⟨⟨p', rest'⟩, hp'⟩ := Option.ne_none_iff_exists'.mp hmatch
    obtain ⟨hkind, hwell, htext⟩ := eq_of_pattern hp'
    obtain ⟨c', tail', hsource', hmarks', -⟩ := exists_source hwell
    rw [hsource'] at htext
    obtain rfl := (List.cons.inj (List.cons.inj htext).2).1
    rw [hkind] at hmarks'
    exact hk (Kind.eq_of_marks hmarks hmarks')

theorem source_ne_nil (hp : p.WellFormed) : p.source ≠ [] := by
  obtain ⟨c, tail, hsource, -, -⟩ := exists_source hp
  rw [hsource]
  exact List.cons_ne_nil _ _

/-- Any placeholder is one of its kind. -/
theorem anyPlaceholder_eq_some (h : anyPlaceholder text = some (p, rest)) : p.kind.pattern text = some (p, rest) := by
  have hkind : ∀ k : Kind, k.pattern text = some (p, rest) → p.kind.pattern text = some (p, rest) := by
    intro k hk
    rw [(eq_of_pattern hk).1]
    exact hk
  rcases Option.or_eq_some_iff.mp h with h | ⟨-, h⟩
  · exact hkind .positional h
  rcases Option.or_eq_some_iff.mp h with h | ⟨-, h⟩
  · exact hkind .slice h
  rcases Option.or_eq_some_iff.mp h with h | ⟨-, h⟩
  · exact hkind .arguments h
  · exact hkind .allArgs h

theorem length_of_anyPlaceholder (h : anyPlaceholder text = some (p, rest)) : rest.length < text.length := by
  obtain ⟨-, hp, htext⟩ := eq_of_pattern (anyPlaceholder_eq_some h)
  rw [htext, List.length_append]
  have hpos := List.length_pos_iff.mpr (source_ne_nil hp)
  omega

end

/-! ### The pieces of a template -/

inductive Piece where
  | char (c : Char)
  | hole (p : Placeholder)
  deriving DecidableEq

/-- The template read once into characters and placeholders. -/
def pieces : List Char → List Piece
  | [] => []
  | c :: text =>
    match h : anyPlaceholder (c :: text) with
    | some (p, rest) =>
      have := length_of_anyPlaceholder h
      .hole p :: pieces rest
    | none => .char c :: pieces text
termination_by text => text.length
decreasing_by
  · assumption
  · exact Nat.lt_succ_self _

/-- The text of a piece once the kinds before a stage are replaced by their values. -/
def Piece.text (args : List (List Char)) (stage : ℕ) : Piece → List Char
  | char c => [c]
  | hole p => if p.kind.stage < stage then p.value args else p.source

def textAt (args : List (List Char)) (stage : ℕ) (ps : List Piece) : List Char := ps.flatMap (Piece.text args stage)

/-- In the text of a stage no placeholder of a kind starts at a character of the template or in a value that was put in. -/
def Quiet (args : List (List Char)) (k : Kind) : List Piece → Prop
  | [] => True
  | .char c :: ps => k.pattern (c :: textAt args k.stage ps) = none ∧ Quiet args k ps
  | .hole p :: ps => (p.kind.stage < k.stage → ∀ y ∈ (p.value args).tails, y ≠ [] →
      k.pattern (y ++ textAt args k.stage ps) = none) ∧ Quiet args k ps

instance (args : List (List Char)) (k : Kind) : ∀ ps : List Piece, Decidable (Quiet args k ps)
  | [] => inferInstanceAs (Decidable True)
  | .char _ :: ps =>
    have := instDecidableQuiet args k ps
    inferInstanceAs (Decidable (_ ∧ _))
  | .hole _ :: ps =>
    have := instDecidableQuiet args k ps
    inferInstanceAs (Decidable (_ ∧ _))

/-- Pieces as they are read from their text. -/
def Parsed : List Piece → Prop
  | [] => True
  | .char c :: ps => anyPlaceholder (c :: textAt [] 0 ps) = none ∧ Parsed ps
  | .hole p :: ps => anyPlaceholder (p.source ++ textAt [] 0 ps) = some (p, textAt [] 0 ps) ∧ Parsed ps

section

variable {args : List (List Char)} {k : Kind} {ps : List Piece} {text : List Char}

theorem textAt_pieces (text : List Char) : textAt [] 0 (pieces text) = text := by
  fun_induction pieces text with
  | case1 => rfl
  | case2 c text p rest h _ ih =>
    obtain ⟨-, -, htext⟩ := eq_of_pattern (anyPlaceholder_eq_some h)
    rw [htext]
    exact congrArg (p.source ++ ·) ih
  | case3 c text h ih => exact congrArg (c :: ·) ih

theorem parsed_pieces (text : List Char) : Parsed (pieces text) := by
  fun_induction pieces text with
  | case1 => trivial
  | case2 c text p rest h _ ih =>
    obtain ⟨-, -, htext⟩ := eq_of_pattern (anyPlaceholder_eq_some h)
    refine ⟨?_, ih⟩
    rw [textAt_pieces, ← htext]
    exact h
  | case3 c text h ih =>
    refine ⟨?_, ih⟩
    rw [textAt_pieces]
    exact h

/-- A placeholder is matched where its text stands in the text of its stage. -/
theorem pattern_textAt {p : Placeholder} (h : Parsed (.hole p :: ps)) :
    p.kind.pattern (p.source ++ textAt args p.kind.stage ps) = some (p, textAt args p.kind.stage ps) := by
  have hmatch := anyPlaceholder_eq_some h.1
  by_cases hk : p.kind = .positional
  · rw [hk] at hmatch ⊢
    exact hmatch
  · exact pattern_source (eq_of_pattern hmatch).2.1 hk _

theorem Kind.stage_inj {k' : Kind} (h : k.stage = k'.stage) : k = k' := by
  revert h
  cases k <;> cases k' <;> decide

/-- A stage replaces the placeholders of its kind by their values, where it replaces nothing else. -/
theorem replaceFrom_stage {insert : Found Placeholder → List Char} : ∀ {ps : List Piece} {before : List Char},
    Parsed ps → Quiet args k ps →
      (∀ p, .hole p ∈ ps → p.kind = k → ∀ before after, insert ⟨before, p, after⟩ = p.value args) →
        replaceFrom k.pattern insert 0 before (textAt args k.stage ps) = textAt args (k.stage + 1) ps
  | [], _, _, _, _ => rfl
  | .char c :: ps, before, hparsed, hquiet, hinsert => by
    have hplain : ∀ x y, [c] = x ++ y → y ≠ [] → k.pattern (y ++ textAt args k.stage ps) = none := by
      intro x y heq hne
      rcases List.append_eq_singleton_iff.mp heq.symm with ⟨-, rfl⟩ | ⟨-, rfl⟩
      · exact hquiet.1
      · exact absurd rfl hne
    have ih : replaceFrom k.pattern insert 0 (before ++ [c]) (textAt args k.stage ps) = textAt args (k.stage + 1) ps :=
      replaceFrom_stage hparsed.2 hquiet.2 fun p hp => hinsert p (List.mem_cons_of_mem _ hp)
    exact (replaceFrom_plain hplain).trans (congrArg ([c] ++ ·) ih)
  | .hole p :: ps, before, hparsed, hquiet, hinsert => by
    have hwell := (eq_of_pattern (anyPlaceholder_eq_some hparsed.1)).2.1
    have ih : ∀ before, replaceFrom k.pattern insert 0 before (textAt args k.stage ps) = textAt args (k.stage + 1) ps :=
      fun before => replaceFrom_stage hparsed.2 hquiet.2 fun p hp => hinsert p (List.mem_cons_of_mem _ hp)
    have hcons : ∀ stage, textAt args stage (.hole p :: ps) = Piece.text args stage (.hole p) ++ textAt args stage ps :=
      fun stage => List.flatMap_cons
    rw [hcons, hcons]
    by_cases hk : p.kind = k
    · -- the placeholder is one of the stage
      obtain rfl := hk
      have hsource : Piece.text args p.kind.stage (.hole p) = p.source := if_neg (Nat.lt_irrefl _)
      have hvalue : Piece.text args (p.kind.stage + 1) (.hole p) = p.value args := if_pos (Nat.lt_succ_self _)
      rw [hsource, hvalue, replaceFrom_match (source_ne_nil hwell) (pattern_textAt hparsed), ih,
        hinsert p List.mem_cons_self rfl]
    · have hne : p.kind.stage ≠ k.stage := fun h => hk (Kind.stage_inj h)
      by_cases hlt : p.kind.stage < k.stage
      · -- it is a value by now
        have hvalue : Piece.text args k.stage (.hole p) = p.value args := if_pos hlt
        have hvalue' : Piece.text args (k.stage + 1) (.hole p) = p.value args := if_pos (Nat.lt_succ_of_lt hlt)
        rw [hvalue, hvalue', replaceFrom_plain fun x y heq hne => ?_, ih]
        exact hquiet.1 hlt y ((List.mem_tails y _).mpr ⟨x, heq.symm⟩) hne
      · -- it is a placeholder yet
        have hsource : Piece.text args k.stage (.hole p) = p.source := if_neg hlt
        have hsource' : Piece.text args (k.stage + 1) (.hole p) = p.source := if_neg (by omega)
        rw [hsource, hsource', replaceFrom_plain fun x y heq hne => pattern_source_of_ne hwell hk heq hne _, ih]

/-- One pass puts every value into the template. -/
theorem replaceFrom_pieces (text : List Char) : ∀ before : List Char,
    replaceFrom anyPlaceholder (fun f => f.what.value args) 0 before text = textAt args 4 (pieces text) := by
  fun_induction pieces text with
  | case1 => exact fun _ => rfl
  | case2 c text p rest h _ ih =>
    intro before
    obtain ⟨-, hwell, htext⟩ := eq_of_pattern (anyPlaceholder_eq_some h)
    have hstage : p.kind.stage < 4 := by cases p.kind <;> decide
    have hvalue : Piece.text args 4 (.hole p) = p.value args := if_pos hstage
    rw [htext] at h ⊢
    rw [replaceFrom_match (source_ne_nil hwell) h, ih, ← hvalue]
    exact List.flatMap_cons.symm
  | case3 c text h ih =>
    intro before
    rw [replaceFrom, h]
    exact congrArg (c :: ·) (ih _)

end

/-! ### When every placeholder is replaced once -/

/-- No stage finds a placeholder but those of the template that are left, and where the template has a placeholder for all
arguments there is no replacement pattern in them. -/
structure Clean (content : List Char) (args : List (List Char)) : Prop where
  quiet : ∀ k, Quiet args k (pieces content)
  literal : (∃ p, .hole p ∈ pieces content ∧ (p.kind = .arguments ∨ p.kind = .allArgs)) → hasReplacement (joinArgs args) = false

theorem substituteOnce_eq (content : List Char) (args : List (List Char)) :
    substituteOnce content args = textAt args 4 (pieces content) :=
  replaceFrom_pieces content []

theorem substituteArgs_eq {content : List Char} {args : List (List Char)} (h : Clean content args) :
    substituteArgs content args = textAt args 4 (pieces content) := by
  have hparsed := parsed_pieces content
  have hliteral : ∀ p, .hole p ∈ pieces content → p.kind = .arguments ∨ p.kind = .allArgs → ∀ matched before after,
      expandReplacement matched before after (joinArgs args) = p.value args := by
    intro p hp hkind matched before after
    rw [expandReplacement_of_hasReplacement (h.literal ⟨p, hp, hkind⟩)]
    cases p with
    | positional num => rcases hkind with hkind | hkind <;> cases hkind
    | slice start length => rcases hkind with hkind | hkind <;> cases hkind
    | arguments => rfl
    | allArgs => rfl
  have hpositional : replaceAll positionalPattern (fun f => f.what.value args) content = textAt args 1 (pieces content) := by
    conv_lhs => rw [← textAt_pieces content]
    exact replaceFrom_stage (k := .positional) hparsed (h.quiet _) fun _ _ _ _ _ => rfl
  have hslice : replaceAll slicePattern (fun f => f.what.value args) (textAt args 1 (pieces content)) =
      textAt args 2 (pieces content) :=
    replaceFrom_stage (k := .slice) hparsed (h.quiet _) fun _ _ _ _ _ => rfl
  have harguments : replaceAll argumentsPattern
      (fun f => expandReplacement ARGUMENTS f.before f.after (joinArgs args)) (textAt args 2 (pieces content)) =
        textAt args 3 (pieces content) :=
    replaceFrom_stage (k := .arguments) hparsed (h.quiet _) fun p hp hk _ _ => hliteral p hp (.inl hk) _ _ _
  have hall : replaceAll allArgsPattern
      (fun f => expandReplacement ALL_ARGS f.before f.after (joinArgs args)) (textAt args 3 (pieces content)) =
        textAt args 4 (pieces content) :=
    replaceFrom_stage (k := .allArgs) hparsed (h.quiet _) fun p hp hk _ _ => hliteral p hp (.inr hk) _ _ _
  rw [substituteArgs, hpositional, hslice, harguments, hall]

/-- Arguments in quotes, with a space behind each. -/
def quoteArgs (quoted : List (Char × List Char)) : List Char := quoted.flatMap fun p => p.1 :: (p.2 ++ [p.1, ' '])

/-- An argument that is not empty, and a quote that it does not have. -/
abbrev Quotes (p : Char × List Char) : Prop := (p.1 = Char.ofNat 0x22 ∨ p.1 = APOSTROPHE) ∧ p.1 ∉ p.2 ∧ p.2 ≠ []

/-- In quotes every other character is part of the argument. -/
theorem foldl_inQuote {q : Char} (args : List (List Char)) : ∀ {arg : List Char} (current : List Char), q ∉ arg →
    arg.foldl argStep ⟨args, current, some q⟩ = ⟨args, current ++ arg, some q⟩
  | [], current, _ => by rw [List.append_nil, List.foldl_nil]
  | c :: arg, current, h => by
    obtain ⟨hne, hrest⟩ := not_or.mp (List.mem_cons.not.mp h)
    have hstep : argStep ⟨args, current, some q⟩ c = ⟨args, current ++ [c], some q⟩ := if_neg (Ne.symm hne)
    rw [List.foldl_cons, hstep, foldl_inQuote args _ hrest, List.append_assoc, List.singleton_append]

theorem foldl_quoteArgs : ∀ {quoted : List (Char × List Char)} (args : List (List Char)), (∀ p ∈ quoted, Quotes p) →
    (quoteArgs quoted).foldl argStep ⟨args, [], none⟩ = ⟨args ++ quoted.map Prod.snd, [], none⟩
  | [], args, _ => by rw [List.map_nil, List.append_nil]; rfl
  | (q, arg) :: quoted, args, h => by
    obtain ⟨⟨hq, hnot, hne⟩, hrest⟩ := List.forall_mem_cons.mp h
    have hopens : argStep ⟨args, [], none⟩ q = ⟨args, [], some q⟩ := if_pos hq
    have hcloses : argStep ⟨args, arg, some q⟩ q = ⟨args, arg, none⟩ := if_pos rfl
    have hends : argStep ⟨args, arg, none⟩ ' ' = ⟨args ++ [arg], [], none⟩ := if_pos hne
    have ih := foldl_quoteArgs (args ++ [arg]) hrest
    rw [quoteArgs, List.flatMap_cons, List.foldl_append, List.foldl_cons, hopens, List.foldl_append,
      foldl_inQuote args [] hnot, List.nil_append, List.foldl_cons, hcloses, List.foldl_cons, hends, List.foldl_nil]
    exact ih.trans (by rw [List.append_assoc]; rfl)

/-- **Quoted arguments are put in as they are.** -/
theorem expandPromptTemplate_quoted {name : List Char} {quoted : List (Char × List Char)} {templates : List PromptTemplate}
    {template : PromptTemplate} (hname : name ≠ [] ∧ ∀ c ∈ name, isJsSpace c = false) (hquoted : ∀ p ∈ quoted, Quotes p)
    (hfind : templates.find? (·.name = name) = some template) (h : Clean template.content (quoted.map Prod.snd)) :
    expandPromptTemplate ('/' :: (name ++ ' ' :: quoteArgs quoted)) templates =
      substituteOnce template.content (quoted.map Prod.snd) := by
  have hargs : parseCommandArgs (quoteArgs quoted) = quoted.map Prod.snd := by
    rw [parseCommandArgs, foldl_quoteArgs [] hquoted]
    rfl
  have hdrop : (' ' :: quoteArgs quoted).dropWhile isJsSpace = quoteArgs quoted := by
    cases quoted with
    | nil => rfl
    | cons p quoted =>
      rcases (hquoted p List.mem_cons_self).1 with hp | hp <;> rw [quoteArgs, List.flatMap_cons, hp] <;> rfl
  have hplain : ∀ c ∈ name, (!isJsSpace c) = true := fun c hc => by rw [hname.2 c hc]; rfl
  have hcall : templateCall ('/' :: (name ++ ' ' :: quoteArgs quoted)) = some (name, quoteArgs quoted) := by
    have hword := word_append ['/'] (name ++ ' ' :: quoteArgs quoted)
    rw [List.singleton_append] at hword
    have htake : (name ++ ' ' :: quoteArgs quoted).takeWhile (!isJsSpace ·) = name := by
      rw [List.takeWhile_append_of_pos hplain]
      exact List.append_nil name
    rw [templateCall, hword]
    dsimp only
    rw [htake, if_neg hname.1, List.dropWhile_append_of_pos hplain]
    exact congrArg (fun rest => some (name, rest)) hdrop
  rw [expandPromptTemplate, hcall]
  dsimp only
  rw [hfind, hargs]
  exact (substituteArgs_eq h).trans (substituteOnce_eq _ _).symm

theorem expandPromptTemplate_quoted_fix : expandPromptTemplate "/f 'a b' ".toList [⟨['f'], "Fix $1".toList⟩] =
    substituteOnce "Fix $1".toList ["a b".toList] :=
  @expandPromptTemplate_quoted ['f'] [(APOSTROPHE, "a b".toList)] [⟨['f'], "Fix $1".toList⟩] _
    ⟨List.cons_ne_nil _ _, List.forall_mem_singleton.mpr rfl⟩ (by decide) rfl
    ⟨fun k => (by cases k <;> decide +kernel), fun _ => by decide +kernel⟩

/-- Every placeholder of the template is replaced by its value, once and as it is. -/
theorem substituteArgs_once {content : List Char} {args : List (List Char)} (h : Clean content args) :
    substituteArgs content args = substituteOnce content args := by
  rw [substituteArgs_eq h, substituteOnce_eq]

/-- Arguments that look like placeholders where they are not read again. -/
theorem substituteArgs_once_literal : substituteArgs "Fix $2: $@".toList ["$100".toList, "$x".toList] =
    substituteOnce "Fix $2: $@".toList ["$100".toList, "$x".toList] := by
  refine substituteArgs_once ⟨fun k => ?_, fun _ => by decide⟩
  cases k <;> decide +kernel

/-- The first argument is read again as a placeholder. -/
theorem substituteArgs_not_once : substituteArgs "$1".toList ["$@".toList, "x".toList] = "$@ x".toList ∧
    substituteOnce "$1".toList ["$@".toList, "x".toList] = "$@".toList := by
  constructor <;> decide

end Trek.Templates
