/-
# The grammar of JSON

A JSON text is read in two steps. The first one finds the string literals: a literal runs from a quote to the next quote
that no backslash escapes (`lex`). The second one is the grammar of the values, over the literals and the characters
between them (`Derives`). What the characters of a literal may be is a parameter of the grammar, so that a text that is at
fault only inside its literals is a text of the same grammar (`Derives.map`). Texts are lists of UTF-16 code units.
-/
import Mathlib.Data.List.Basic

namespace Trek.JsonText

def QUOTE : ℕ := 0x22

def BACKSLASH : ℕ := 0x5c

/-- The `u` of an escape by number. -/
def LETTER_U : ℕ := 0x75

/-- A code unit between the literals, a literal without its quotes, or a literal that the text ends in. -/
inductive Token where
  | mark (unit : ℕ)
  | literal (body : List ℕ)
  | unclosed (body : List ℕ)
  deriving DecidableEq

/-- Where a text is read: between the literals, in one whose body so far is given, or there after a backslash. -/
inductive Place where
  | outside
  | inside (body : List ℕ)
  | escaped (body : List ℕ)

def lex : Place → List ℕ → List Token
  | .outside, [] => []
  | .inside body, [] => [.unclosed body]
  | .escaped body, [] => [.unclosed body]
  | .outside, c :: rest => if c = QUOTE then lex (.inside []) rest else .mark c :: lex .outside rest
  | .inside body, c :: rest =>
    if c = QUOTE then .literal body :: lex .outside rest
    else if c = BACKSLASH then lex (.escaped (body ++ [c])) rest
    else lex (.inside (body ++ [c])) rest
  | .escaped body, c :: rest => lex (.inside (body ++ [c])) rest

/-- The tokens of a text. -/
def tokens (text : List ℕ) : List Token := lex .outside text

namespace Token

def render : Token → List ℕ
  | .mark c => [c]
  | .literal body => QUOTE :: (body ++ [QUOTE])
  | .unclosed body => QUOTE :: body

/-- A change of the bodies of the literals. -/
def map (f : List ℕ → List ℕ) : Token → Token
  | .mark c => .mark c
  | .literal body => .literal (f body)
  | .unclosed body => .unclosed (f body)

end Token

/-! ### The grammar -/

def isHexDigit (c : ℕ) : Bool := (0x30 ≤ c && c ≤ 0x39) || (0x61 ≤ c && c ≤ 0x66) || (0x41 ≤ c && c ≤ 0x46)

/-- A text starts with so many hexadecimal digits. -/
def HexRun : ℕ → List ℕ → Prop
  | 0, _ => True
  | _ + 1, [] => False
  | n + 1, c :: rest => isHexDigit c = true ∧ HexRun n rest

/-- What may stand after a backslash, `u` apart: a quote, a backslash, a slash, `b`, `f`, `n`, `r` and `t`. -/
def simpleEscapes : List ℕ := [0x22, 0x5c, 0x2f, 0x62, 0x66, 0x6e, 0x72, 0x74]

/-- The body of a valid string literal. The four digits of an escape by number are characters of the literal by themselves,
too. -/
inductive StringBody : List ℕ → Prop
  | nil : StringBody []
  | plain {c : ℕ} {rest : List ℕ} :
      c ≠ QUOTE → c ≠ BACKSLASH → 0x20 ≤ c → StringBody rest → StringBody (c :: rest)
  | escape {e : ℕ} {rest : List ℕ} : e ∈ simpleEscapes → StringBody rest → StringBody (BACKSLASH :: e :: rest)
  | unicode {rest : List ℕ} : HexRun 4 rest → StringBody rest → StringBody (BACKSLASH :: LETTER_U :: rest)

/-- What the first step finds between two quotes: characters, and pairs of a backslash and a character. -/
inductive LiteralBody : List ℕ → Prop
  | nil : LiteralBody []
  | plain {c : ℕ} {rest : List ℕ} : c ≠ QUOTE → c ≠ BACKSLASH → LiteralBody rest → LiteralBody (c :: rest)
  | escape {e : ℕ} {rest : List ℕ} : LiteralBody rest → LiteralBody (BACKSLASH :: e :: rest)

/-- White space: a space, a tab, a line feed or a carriage return. -/
def isSpace (c : ℕ) : Bool := c = 0x20 || c = 0x09 || c = 0x0a || c = 0x0d

def isDigit (c : ℕ) : Bool := 0x30 ≤ c && c ≤ 0x39

/-- `true`, `false` and `null`. -/
def words : List (List ℕ) :=
  [[0x74, 0x72, 0x75, 0x65], [0x66, 0x61, 0x6c, 0x73, 0x65], [0x6e, 0x75, 0x6c, 0x6c]]

/-- Digits, at least one. -/
def IsDigits (text : List ℕ) : Prop := text ≠ [] ∧ ∀ c ∈ text, isDigit c

/-- An integer without leading zeros. -/
def IsInteger (text : List ℕ) : Prop := text = [0x30] ∨ IsDigits text ∧ text.head? ≠ some 0x30

/-- Nothing, or a point and digits. -/
def IsFraction (text : List ℕ) : Prop := text = [] ∨ ∃ digits, text = 0x2e :: digits ∧ IsDigits digits

/-- Nothing, or `e` or `E`, a sign or none, and digits. -/
def IsExponent (text : List ℕ) : Prop :=
  text = [] ∨ ∃ e sign digits, text = e :: (sign ++ digits) ∧ e ∈ [0x65, 0x45] ∧ sign ∈ [[], [0x2b], [0x2d]] ∧
    IsDigits digits

/-- A minus or none, an integer, a fraction and an exponent. -/
def IsNumber (text : List ℕ) : Prop :=
  ∃ sign integer fraction exponent, text = sign ++ (integer ++ (fraction ++ exponent)) ∧ sign ∈ [[], [0x2d]] ∧
    IsInteger integer ∧ IsFraction fraction ∧ IsExponent exponent

/-- Code units between the literals. -/
def marks (units : List ℕ) : List Token := units.map .mark

def IsSpaces (ts : List Token) : Prop := ∃ units, ts = marks units ∧ ∀ c ∈ units, isSpace c

inductive Nonterminal
  | value | element | elements | member | members

/-- The grammar of the values. The bodies of the literals meet a condition. -/
inductive Derives (P : List ℕ → Prop) : Nonterminal → List Token → Prop
  | word {word : List ℕ} : word ∈ words → Derives P .value (marks word)
  | number {units : List ℕ} : IsNumber units → Derives P .value (marks units)
  | string {body : List ℕ} : P body → Derives P .value [.literal body]
  | emptyObject {ts : List Token} : IsSpaces ts → Derives P .value (.mark 0x7b :: (ts ++ [Token.mark 0x7d]))
  | object {ts : List Token} : Derives P .members ts → Derives P .value (.mark 0x7b :: (ts ++ [Token.mark 0x7d]))
  | emptyArray {ts : List Token} : IsSpaces ts → Derives P .value (.mark 0x5b :: (ts ++ [Token.mark 0x5d]))
  | array {ts : List Token} : Derives P .elements ts → Derives P .value (.mark 0x5b :: (ts ++ [Token.mark 0x5d]))
  | element {before ts after : List Token} :
      IsSpaces before → Derives P .value ts → IsSpaces after → Derives P .element (before ++ (ts ++ after))
  | lastElement {ts : List Token} : Derives P .element ts → Derives P .elements ts
  | consElement {ts ts' : List Token} :
      Derives P .element ts → Derives P .elements ts' → Derives P .elements (ts ++ Token.mark 0x2c :: ts')
  | member {before after ts : List Token} {body : List ℕ} :
      IsSpaces before → P body → IsSpaces after → Derives P .element ts →
        Derives P .member (before ++ Token.literal body :: (after ++ Token.mark 0x3a :: ts))
  | lastMember {ts : List Token} : Derives P .member ts → Derives P .members ts
  | consMember {ts ts' : List Token} :
      Derives P .member ts → Derives P .members ts' → Derives P .members (ts ++ Token.mark 0x2c :: ts')

/-- A JSON text: a value with white space around it. -/
def IsJson (text : List ℕ) : Prop := Derives StringBody .element (tokens text)

/-- A text that is a JSON text but for the bodies of its literals. -/
def IsOutline (text : List ℕ) : Prop := Derives (fun _ => True) .element (tokens text)

/-! ### Derivations -/

theorem map_marks (f : List ℕ → List ℕ) (units : List ℕ) : (marks units).map (Token.map f) = marks units := by
  rw [marks, List.map_map]
  rfl

theorem IsSpaces.map_eq {ts : List Token} (h : IsSpaces ts) (f : List ℕ → List ℕ) : ts.map (Token.map f) = ts := by
  obtain ⟨units, rfl, -⟩ := h
  exact map_marks f units

/-- A change of the literals keeps a derivation. -/
theorem Derives.map {P Q : List ℕ → Prop} {f : List ℕ → List ℕ} {n : Nonterminal} {ts : List Token}
    (h : Derives P n ts) (hf : ∀ body, Token.literal body ∈ ts → P body → Q (f body)) :
    Derives Q n (ts.map (Token.map f)) := by
  induction h with
  | word hword =>
    rw [map_marks]
    exact .word hword
  | number hnumber =>
    rw [map_marks]
    exact .number hnumber
  | string hbody => exact .string (hf _ List.mem_cons_self hbody)
  | emptyObject hspaces =>
    rw [List.map_cons, List.map_append, hspaces.map_eq]
    exact .emptyObject hspaces
  | object _ ih =>
    rw [List.map_cons, List.map_append]
    exact .object (ih fun body hbody => hf body (by simp [hbody]))
  | emptyArray hspaces =>
    rw [List.map_cons, List.map_append, hspaces.map_eq]
    exact .emptyArray hspaces
  | array _ ih =>
    rw [List.map_cons, List.map_append]
    exact .array (ih fun body hbody => hf body (by simp [hbody]))
  | element hbefore _ hafter ih =>
    rw [List.map_append, List.map_append, hbefore.map_eq, hafter.map_eq]
    exact .element hbefore (ih fun body hbody => hf body (by simp [hbody])) hafter
  | lastElement _ ih => exact .lastElement (ih hf)
  | consElement _ _ ih ih' =>
    rw [List.map_append, List.map_cons]
    exact .consElement (ih fun body hbody => hf body (by simp [hbody])) (ih' fun body hbody => hf body (by simp [hbody]))
  | member hbefore hbody hafter _ ih =>
    rw [List.map_append, List.map_cons, List.map_append, List.map_cons, hbefore.map_eq, hafter.map_eq]
    exact .member hbefore (hf _ (by simp) hbody) hafter (ih fun body hbody => hf body (by simp [hbody]))
  | lastMember _ ih => exact .lastMember (ih hf)
  | consMember _ _ ih ih' =>
    rw [List.map_append, List.map_cons]
    exact .consMember (ih fun body hbody => hf body (by simp [hbody])) (ih' fun body hbody => hf body (by simp [hbody]))

/-- In what is derived every literal is closed and meets the condition. -/
theorem Derives.forall_mem {P : List ℕ → Prop} {n : Nonterminal} {ts : List Token} (h : Derives P n ts) :
    ∀ t ∈ ts, (∃ c, t = .mark c) ∨ ∃ body, t = .literal body ∧ P body := by
  have hmarks : ∀ units : List ℕ, ∀ t ∈ marks units, (∃ c, t = .mark c) ∨ ∃ body, t = .literal body ∧ P body := by
    intro units t ht
    obtain ⟨c, -, rfl⟩ := List.mem_map.mp ht
    exact Or.inl ⟨c, rfl⟩
  have hspaces : ∀ {ts : List Token}, IsSpaces ts → ∀ t ∈ ts, (∃ c, t = .mark c) ∨ ∃ body, t = .literal body ∧ P body := by
    rintro _ ⟨units, rfl, -⟩
    exact hmarks units
  have hmark : ∀ c, (∃ c', Token.mark c = .mark c') ∨ ∃ body, Token.mark c = .literal body ∧ P body := fun c => .inl ⟨c, rfl⟩
  induction h with
  | word _ => exact hmarks _
  | number _ => exact hmarks _
  | string hbody => exact List.forall_mem_singleton.mpr (.inr ⟨_, rfl, hbody⟩)
  | emptyObject h | emptyArray h =>
    exact List.forall_mem_cons.mpr ⟨hmark _, List.forall_mem_append.mpr ⟨hspaces h, List.forall_mem_singleton.mpr (hmark _)⟩⟩
  | object _ ih | array _ ih =>
    exact List.forall_mem_cons.mpr ⟨hmark _, List.forall_mem_append.mpr ⟨ih, List.forall_mem_singleton.mpr (hmark _)⟩⟩
  | element hbefore _ hafter ih =>
    exact List.forall_mem_append.mpr ⟨hspaces hbefore, List.forall_mem_append.mpr ⟨ih, hspaces hafter⟩⟩
  | lastElement _ ih => exact ih
  | consElement _ _ ih ih' | consMember _ _ ih ih' =>
    exact List.forall_mem_append.mpr ⟨ih, List.forall_mem_cons.mpr ⟨hmark _, ih'⟩⟩
  | member hbefore hbody hafter _ ih =>
    exact List.forall_mem_append.mpr ⟨hspaces hbefore, List.forall_mem_cons.mpr ⟨.inr ⟨_, rfl, hbody⟩,
      List.forall_mem_append.mpr ⟨hspaces hafter, List.forall_mem_cons.mpr ⟨hmark _, ih⟩⟩⟩⟩
  | lastMember _ ih => exact ih

/-! ### The tokens of a text -/

@[simp] theorem lex_outside_cons (c : ℕ) (rest : List ℕ) :
    lex .outside (c :: rest) = if c = QUOTE then lex (.inside []) rest else .mark c :: lex .outside rest := rfl

@[simp] theorem lex_quote (body rest : List ℕ) :
    lex (.inside body) (QUOTE :: rest) = .literal body :: lex .outside rest := rfl

theorem lex_plain {c : ℕ} (hquote : c ≠ QUOTE) (hbackslash : c ≠ BACKSLASH) (body rest : List ℕ) :
    lex (.inside body) (c :: rest) = lex (.inside (body ++ [c])) rest := by
  rw [lex, if_neg hquote, if_neg hbackslash]

theorem lex_escape (body : List ℕ) (e : ℕ) (rest : List ℕ) :
    lex (.inside body) (BACKSLASH :: e :: rest) = lex (.inside (body ++ [BACKSLASH, e])) rest := by
  have happend : body ++ [BACKSLASH, e] = body ++ [BACKSLASH] ++ [e] := by simp
  rw [happend]
  rfl

theorem lex_dangling (body : List ℕ) : lex (.inside body) [BACKSLASH] = [.unclosed (body ++ [BACKSLASH])] := rfl

/-- The body of a literal is read to its end. -/
theorem lex_literalBody {body : List ℕ} (h : LiteralBody body) : ∀ before rest : List ℕ,
    lex (.inside before) (body ++ rest) = lex (.inside (before ++ body)) rest := by
  induction h with
  | nil =>
    intro before rest
    rw [List.append_nil, List.nil_append]
  | plain hquote hbackslash _ ih =>
    intro before rest
    rw [List.cons_append, lex_plain hquote hbackslash, ih, List.append_assoc]
    rfl
  | escape _ ih =>
    intro before rest
    rw [List.cons_append, List.cons_append, lex_escape, ih, List.append_assoc]
    rfl

namespace LiteralBody

theorem append {body body' : List ℕ} (h : LiteralBody body) (h' : LiteralBody body') : LiteralBody (body ++ body') := by
  induction h with
  | nil => exact h'
  | plain hquote hbackslash _ ih => exact .plain hquote hbackslash ih
  | escape _ ih => exact .escape ih

end LiteralBody

/-- What a place says of the body read there. -/
def Place.Sound : Place → Prop
  | .outside => True
  | .inside body => LiteralBody body
  | .escaped body => ∃ before, LiteralBody before ∧ body = before ++ [BACKSLASH]

theorem literalBody_of_mem_lex {body : List ℕ} : ∀ {text : List ℕ} {p : Place}, p.Sound →
    Token.literal body ∈ lex p text → LiteralBody body
  | [], .outside, _, h => nomatch h
  | [], .inside _, _, h => by simp [lex] at h
  | [], .escaped _, _, h => by simp [lex] at h
  | c :: rest, .outside, _, h => by
    rw [lex] at h
    split at h
    · exact literalBody_of_mem_lex (p := .inside []) .nil h
    · exact literalBody_of_mem_lex (p := .outside) trivial (by simpa using h)
  | c :: rest, .inside before, hsound, h => by
    rw [lex] at h
    split at h
    · rcases List.mem_cons.mp h with h | h
      · obtain rfl := Token.literal.inj h
        exact hsound
      · exact literalBody_of_mem_lex (p := .outside) trivial h
    · split at h
      · next hbackslash => exact literalBody_of_mem_lex (p := .escaped _) ⟨before, hsound, by rw [hbackslash]⟩ h
      · next hquote hbackslash =>
        exact literalBody_of_mem_lex (p := .inside _) (hsound.append (.plain hquote hbackslash .nil)) h
  | c :: rest, .escaped _, hsound, h => by
    obtain ⟨before, hbefore, rfl⟩ := hsound
    rw [lex, List.append_assoc] at h
    exact literalBody_of_mem_lex (p := .inside _) (hbefore.append (.escape .nil)) h

/-- The bodies of the closed literals are characters, and pairs of a backslash and a character. -/
theorem literalBody_of_mem {body text : List ℕ} (h : Token.literal body ∈ tokens text) : LiteralBody body :=
  literalBody_of_mem_lex (p := .outside) trivial h

/-- What the tokens were read from. -/
def Place.read : Place → List ℕ
  | .outside => []
  | .inside body | .escaped body => QUOTE :: body

theorem flatMap_render_lex : ∀ (text : List ℕ) (place : Place),
    (lex place text).flatMap Token.render = place.read ++ text
  | [], .outside => rfl
  | [], .inside _ => by simp [lex, Token.render, Place.read]
  | [], .escaped _ => by simp [lex, Token.render, Place.read]
  | c :: rest, .outside => by
    rw [lex]
    split
    · next hquote => simp [flatMap_render_lex rest, hquote, Place.read]
    · rw [List.flatMap_cons, flatMap_render_lex rest]
      rfl
  | c :: rest, .inside body => by
    rw [lex]
    split
    · next hquote => simp [flatMap_render_lex rest, hquote, Token.render, Place.read]
    · split <;> simp [flatMap_render_lex rest, Place.read]
  | c :: rest, .escaped body => by
    rw [lex, flatMap_render_lex rest]
    simp [Place.read]

/-- A text is determined by its tokens. -/
theorem tokens_injective : Function.Injective tokens := by
  intro text text' h
  have hrender : (tokens text).flatMap Token.render = (tokens text').flatMap Token.render := by rw [h]
  rwa [tokens, tokens, flatMap_render_lex, flatMap_render_lex] at hrender

end Trek.JsonText
