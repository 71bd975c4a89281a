/-
# The repair of JSON

`repairJson` reads a text unit by unit. Inside string literals it escapes raw control characters and doubles the backslashes
that stand before no escape character. So it changes the bodies of the literals and nothing between them
(`tokens_repairJson`), is the identity on JSON texts, and is idempotent. A `\u` without its four digits stands before an
escape character, too, and is left as it is: the literals of the output are valid exactly where the text has no such escape
(`repairJson_safe_iff`).
-/
import Mathlib.Data.List.Forall2
import Trek.Lib.JsonText

namespace Trek.Ai

open JsonText

/-- `VALID_JSON_ESCAPES`. -/
def VALID_JSON_ESCAPES : List ℕ := [0x22, 0x5c, 0x2f, 0x62, 0x66, 0x6e, 0x72, 0x74, 0x75]

def isControlCharacter (char : ℕ) : Bool := 0x00 ≤ char && char ≤ 0x1f

/-- `s.padStart(4, "0")`. -/
def padStart (text : List ℕ) : List ℕ := List.replicate (4 - text.length) 0x30 ++ text

def escapeControlCharacter (char : ℕ) : List ℕ :=
  match char with
  | 0x08 => [BACKSLASH, 0x62]
  | 0x0c => [BACKSLASH, 0x66]
  | 0x0a => [BACKSLASH, 0x6e]
  | 0x0d => [BACKSLASH, 0x72]
  | 0x09 => [BACKSLASH, 0x74]
  | _ => BACKSLASH :: LETTER_U :: padStart ((Nat.toDigits 16 char).map Char.toNat)

/-- `/^[0-9a-fA-F]{4}$/`. -/
def isUnicodeDigits (text : List ℕ) : Bool := text.length = 4 && text.all isHexDigit

/-- The loop of `repairJson`, from the character at `index` on. `index` moves over the characters that are already read. -/
def repairFrom (inString : Bool) : (skip : ℕ) → List ℕ → List ℕ
  | _, [] => []
  | skip + 1, _ :: rest => repairFrom inString skip rest
  | 0, char :: rest =>
    if !inString then char :: repairFrom (char == QUOTE) 0 rest
    else if char = QUOTE then char :: repairFrom false 0 rest
    else if char = BACKSLASH then
      match rest with
      | [] => [BACKSLASH, BACKSLASH]
      | nextChar :: rest' =>
        if nextChar = LETTER_U ∧ isUnicodeDigits (rest'.take 4) then
          BACKSLASH :: LETTER_U :: (rest'.take 4 ++ repairFrom true 5 rest)
        else if nextChar ∈ VALID_JSON_ESCAPES then BACKSLASH :: nextChar :: repairFrom true 1 rest
        else BACKSLASH :: BACKSLASH :: repairFrom true 0 rest
    else if isControlCharacter char then escapeControlCharacter char ++ repairFrom true 0 rest
    else char :: repairFrom true 0 rest

def repairJson (json : List ℕ) : List ℕ := repairFrom false 0 json

/-- What the repair makes of the body of a literal. -/
def repairBody (body : List ℕ) : List ℕ := repairFrom true 0 body

/-! ### The loop -/

theorem repairFrom_nil (inString : Bool) (skip : ℕ) : repairFrom inString skip [] = [] := by
  cases skip <;> rfl

theorem repairFrom_skip (inString : Bool) : ∀ (skip : ℕ) (text : List ℕ),
    repairFrom inString skip text = repairFrom inString 0 (text.drop skip)
  | 0, _ => rfl
  | skip + 1, [] => by rw [repairFrom_nil, List.drop_nil, repairFrom_nil]
  | skip + 1, _ :: rest => by rw [repairFrom, List.drop_succ_cons, repairFrom_skip inString skip rest]

theorem repairFrom_outside (char : ℕ) (rest : List ℕ) :
    repairFrom false 0 (char :: rest) = char :: repairFrom (char == QUOTE) 0 rest := rfl

theorem repairBody_quote (rest : List ℕ) : repairBody (QUOTE :: rest) = QUOTE :: repairJson rest := rfl

/-- A character of a literal by itself. -/
def repairUnit (char : ℕ) : List ℕ := if isControlCharacter char then escapeControlCharacter char else [char]

theorem repairBody_plain {char : ℕ} (hquote : char ≠ QUOTE) (hbackslash : char ≠ BACKSLASH) (rest : List ℕ) :
    repairBody (char :: rest) = repairUnit char ++ repairBody rest := by
  unfold repairBody repairUnit
  rw [repairFrom.eq_def]
  dsimp only
  rw [if_neg (by decide), if_neg hquote, if_neg hbackslash]
  split <;> rfl

theorem repairBody_dangling : repairBody [BACKSLASH] = [BACKSLASH, BACKSLASH] := rfl

theorem hexDigit_plain {c : ℕ} (h : isHexDigit c = true) :
    c ≠ QUOTE ∧ c ≠ BACKSLASH ∧ isControlCharacter c = false := by
  unfold isHexDigit at h
  unfold isControlCharacter QUOTE BACKSLASH
  grind

theorem repairBody_hexDigits : ∀ {digits : List ℕ}, digits.all isHexDigit = true → ∀ rest : List ℕ,
    repairBody (digits ++ rest) = digits ++ repairBody rest
  | [], _, _ => rfl
  | c :: digits, h, rest => by
    rw [List.all_cons, Bool.and_eq_true] at h
    obtain ⟨hquote, hbackslash, hcontrol⟩ := hexDigit_plain h.1
    rw [List.cons_append, repairBody_plain hquote hbackslash, repairBody_hexDigits h.2, repairUnit, hcontrol]
    rfl

/-- A backslash is kept before an escape character, and doubled before any other one. That `u` is read with its digits makes
no difference, as digits are kept. -/
theorem repairBody_escape (e : ℕ) (rest : List ℕ) :
    repairBody (BACKSLASH :: e :: rest) =
      if e ∈ VALID_JSON_ESCAPES then BACKSLASH :: e :: repairBody rest
      else BACKSLASH :: BACKSLASH :: repairBody (e :: rest) := by
  rw [repairBody, repairFrom, if_neg (by decide), if_neg (by decide), if_pos rfl]
  split
  · next h =>
    obtain ⟨rfl, hdigits⟩ := h
    rw [isUnicodeDigits, Bool.and_eq_true] at hdigits
    rw [if_pos (by decide), repairFrom_skip, List.drop_succ_cons]
    have hkeep := repairBody_hexDigits hdigits.2 (rest.drop 4)
    rw [List.take_append_drop] at hkeep
    rw [hkeep]
    rfl
  · split
    · rw [repairFrom_skip]
      rfl
    · rfl

/-! ### Bodies of literals -/

/-- A pair of a backslash and a character. -/
def repairPair (e : ℕ) : List ℕ := if e ∈ VALID_JSON_ESCAPES then [BACKSLASH, e] else BACKSLASH :: BACKSLASH :: repairUnit e

theorem ne_of_notMem_escapes {e : ℕ} (h : e ∉ VALID_JSON_ESCAPES) : e ≠ QUOTE ∧ e ≠ BACKSLASH :=
  ⟨fun heq => h (heq ▸ by decide), fun heq => h (heq ▸ by decide)⟩

theorem repairBody_pair (e : ℕ) (rest : List ℕ) :
    repairBody (BACKSLASH :: e :: rest) = repairPair e ++ repairBody rest := by
  rw [repairBody_escape, repairPair]
  split
  · rfl
  · next h =>
    obtain ⟨hquote, hbackslash⟩ := ne_of_notMem_escapes h
    rw [repairBody_plain hquote hbackslash]
    rfl

/-- The escape of a control character is one of a letter, or the one of its number. -/
theorem escapeControlCharacter_cases {c : ℕ} (h : isControlCharacter c = true) :
    (∃ e ∈ simpleEscapes, escapeControlCharacter c = [BACKSLASH, e]) ∨
      ∃ digits, isUnicodeDigits digits = true ∧ escapeControlCharacter c = BACKSLASH :: LETTER_U :: digits := by
  have hall : ∀ c < 0x20, (∃ e ∈ simpleEscapes, escapeControlCharacter c = [BACKSLASH, e]) ∨
      isUnicodeDigits ((escapeControlCharacter c).drop 2) = true ∧
        escapeControlCharacter c = BACKSLASH :: LETTER_U :: (escapeControlCharacter c).drop 2 := by
    decide
  have hlt : c < 0x20 := by
    simp only [isControlCharacter, Bool.and_eq_true, decide_eq_true_eq] at h
    omega
  exact (hall c hlt).imp_right fun h => ⟨_, h⟩

theorem literalBody_digits : ∀ {digits : List ℕ}, digits.all isHexDigit = true → LiteralBody digits
  | [], _ => .nil
  | c :: digits, h => by
    rw [List.all_cons, Bool.and_eq_true] at h
    obtain ⟨hquote, hbackslash, -⟩ := hexDigit_plain h.1
    exact .plain hquote hbackslash (literalBody_digits h.2)

theorem digits_of_isUnicodeDigits {digits : List ℕ} (h : isUnicodeDigits digits = true) :
    digits.length = 4 ∧ digits.all isHexDigit = true := by
  rw [isUnicodeDigits, Bool.and_eq_true, decide_eq_true_eq] at h
  exact h

theorem literalBody_repairUnit {c : ℕ} (hquote : c ≠ QUOTE) (hbackslash : c ≠ BACKSLASH) : LiteralBody (repairUnit c) := by
  unfold repairUnit
  split
  · next hcontrol =>
    rcases escapeControlCharacter_cases hcontrol with ⟨e, -, he⟩ | ⟨digits, hdigits, he⟩
    · rw [he]
      exact .escape .nil
    · rw [he]
      exact .escape (literalBody_digits (digits_of_isUnicodeDigits hdigits).2)
  · exact .plain hquote hbackslash .nil

theorem literalBody_repairPair (e : ℕ) : LiteralBody (repairPair e) := by
  unfold repairPair
  split
  · exact .escape .nil
  · next h =>
    obtain ⟨hquote, hbackslash⟩ := ne_of_notMem_escapes h
    exact .escape (literalBody_repairUnit hquote hbackslash)

theorem repairBody_append {body : List ℕ} (h : LiteralBody body) (rest : List ℕ) :
    repairBody (body ++ rest) = repairBody body ++ repairBody rest := by
  induction h with
  | nil => rfl
  | plain hquote hbackslash _ ih =>
    rw [List.cons_append, repairBody_plain hquote hbackslash, repairBody_plain hquote hbackslash, ih, List.append_assoc]
  | escape _ ih => rw [List.cons_append, List.cons_append, repairBody_pair, repairBody_pair, ih, List.append_assoc]

theorem repairBody_singleton {c : ℕ} (hquote : c ≠ QUOTE) (hbackslash : c ≠ BACKSLASH) :
    repairBody [c] = repairUnit c := by
  rw [repairBody_plain hquote hbackslash]
  exact List.append_nil _

theorem repairBody_pair_alone (e : ℕ) : repairBody [BACKSLASH, e] = repairPair e := by
  rw [repairBody_pair]
  exact List.append_nil _

/-! ### The text as a whole -/

/-- The repair of a text changes the bodies of its literals, and the rest of one that is open is repaired like a body. -/
theorem lex_repair : ∀ text : List ℕ,
    tokens (repairJson text) = (tokens text).map (Token.map repairBody) ∧
      ∀ body, LiteralBody body →
        lex (.inside (repairBody body)) (repairBody text) = (lex (.inside body) text).map (Token.map repairBody)
  | [] => ⟨rfl, fun body _ => rfl⟩
  | c :: rest => by
    obtain ⟨houtside, hinside⟩ := lex_repair rest
    constructor
    · rw [repairJson, repairFrom_outside, tokens, tokens, lex_outside_cons, lex_outside_cons]
      by_cases hquote : c = QUOTE
      · rw [if_pos hquote, if_pos hquote, hquote]
        exact hinside [] .nil
      · rw [if_neg hquote, if_neg hquote, beq_eq_false_iff_ne.mpr hquote, List.map_cons]
        exact congrArg _ houtside
    · intro body hbody
      by_cases hquote : c = QUOTE
      · rw [hquote, repairBody_quote, lex_quote, lex_quote, List.map_cons]
        exact congrArg _ houtside
      · by_cases hbackslash : c = BACKSLASH
        · obtain rfl := hbackslash
          cases rest with
          | nil =>
            rw [repairBody_dangling, lex_escape, lex_dangling, List.map_singleton, Token.map, repairBody_append hbody]
            rfl
          | cons e rest =>
            rw [repairBody_pair, lex_literalBody (literalBody_repairPair e), lex_escape, ← repairBody_pair_alone,
              ← repairBody_append hbody]
            exact (lex_repair rest).2 _ (hbody.append (.escape .nil))
        · rw [repairBody_plain hquote hbackslash, lex_literalBody (literalBody_repairUnit hquote hbackslash),
            lex_plain hquote hbackslash, ← repairBody_singleton hquote hbackslash, ← repairBody_append hbody]
          exact hinside _ (hbody.append (.plain hquote hbackslash .nil))

/-- The repair changes the bodies of the literals and nothing between them. -/
theorem tokens_repairJson (json : List ℕ) : tokens (repairJson json) = (tokens json).map (Token.map repairBody) :=
  (lex_repair json).1

theorem repairUnit_idem {c : ℕ} (hquote : c ≠ QUOTE) (hbackslash : c ≠ BACKSLASH) :
    repairBody (repairUnit c) = repairUnit c := by
  by_cases hcontrol : isControlCharacter c = true
  · rw [repairUnit, if_pos hcontrol]
    rcases escapeControlCharacter_cases hcontrol with ⟨e, hmem, he⟩ | ⟨digits, hdigits, he⟩
    · have hvalid : ∀ e ∈ simpleEscapes, e ∈ VALID_JSON_ESCAPES := by decide
      rw [he, repairBody_pair_alone, repairPair, if_pos (hvalid e hmem)]
    · have hkeep := repairBody_hexDigits (digits_of_isUnicodeDigits hdigits).2 []
      rw [List.append_nil] at hkeep
      rw [he, repairBody_pair, hkeep, repairPair, if_pos (by decide)]
      exact congrArg (fun l => BACKSLASH :: LETTER_U :: l) (List.append_nil digits)
  · have hunit : repairUnit c = [c] := if_neg hcontrol
    rw [hunit, repairBody_singleton hquote hbackslash, hunit]

theorem repairPair_idem (e : ℕ) : repairBody (repairPair e) = repairPair e := by
  by_cases h : e ∈ VALID_JSON_ESCAPES
  · have hpair : repairPair e = [BACKSLASH, e] := if_pos h
    rw [hpair, repairBody_pair_alone, hpair]
  · obtain ⟨hquote, hbackslash⟩ := ne_of_notMem_escapes h
    have hpair : repairPair e = BACKSLASH :: BACKSLASH :: repairUnit e := if_neg h
    rw [hpair, repairBody_pair, repairUnit_idem hquote hbackslash, repairPair, if_pos (by decide)]
    rfl

theorem repair_idem : ∀ text : List ℕ,
    repairJson (repairJson text) = repairJson text ∧ repairBody (repairBody text) = repairBody text
  | [] => ⟨rfl, rfl⟩
  | c :: rest => by
    obtain ⟨houtside, hinside⟩ := repair_idem rest
    constructor
    · rw [repairJson, repairJson, repairFrom_outside, repairFrom_outside]
      by_cases hquote : c = QUOTE
      · rw [hquote]
        exact congrArg _ hinside
      · rw [beq_eq_false_iff_ne.mpr hquote]
        exact congrArg _ houtside
    · by_cases hquote : c = QUOTE
      · rw [hquote, repairBody_quote, repairBody_quote, houtside]
      · by_cases hbackslash : c = BACKSLASH
        · obtain rfl := hbackslash
          cases rest with
          | nil => rfl
          | cons e rest =>
            rw [repairBody_pair, repairBody_append (literalBody_repairPair e), repairPair_idem, (repair_idem rest).2]
        · rw [repairBody_plain hquote hbackslash, repairBody_append (literalBody_repairUnit hquote hbackslash),
            repairUnit_idem hquote hbackslash, hinside]

/-! ### What the repair changes -/

/-- A body with its defects mended: raw control characters are escaped, and a backslash is doubled where no escape character
follows it. The other characters are kept, and pairs of a backslash and a character. -/
inductive Mended : List ℕ → List ℕ → Prop
  | nil : Mended [] []
  | keep {c : ℕ} {rest rest' : List ℕ} : c ≠ BACKSLASH → Mended rest rest' → Mended (c :: rest) (c :: rest')
  | control {c : ℕ} {rest rest' : List ℕ} :
      isControlCharacter c = true → Mended rest rest' → Mended (c :: rest) (escapeControlCharacter c ++ rest')
  | pair {e : ℕ} {rest rest' : List ℕ} : Mended rest rest' → Mended (BACKSLASH :: e :: rest) (BACKSLASH :: e :: rest')
  | backslash {e : ℕ} {rest rest' : List ℕ} :
      e ∉ VALID_JSON_ESCAPES → Mended (e :: rest) rest' →
        Mended (BACKSLASH :: e :: rest) (BACKSLASH :: BACKSLASH :: rest')

/-- Tokens that differ at most in the mended body of a literal. -/
inductive MendedToken : Token → Token → Prop
  | mark (c : ℕ) : MendedToken (.mark c) (.mark c)
  | literal {body body' : List ℕ} : Mended body body' → MendedToken (.literal body) (.literal body')

theorem Mended.unit {c : ℕ} {rest rest' : List ℕ} (hbackslash : c ≠ BACKSLASH) (h : Mended rest rest') :
    Mended (c :: rest) (repairUnit c ++ rest') := by
  unfold repairUnit
  split
  · next hcontrol => exact .control hcontrol h
  · exact .keep hbackslash h

theorem mended_repairBody {body : List ℕ} (h : LiteralBody body) : Mended body (repairBody body) := by
  induction h with
  | nil => exact .nil
  | plain hquote hbackslash _ ih =>
    rw [repairBody_plain hquote hbackslash]
    exact ih.unit hbackslash
  | escape _ ih =>
    rw [repairBody_pair, repairPair]
    split
    · exact .pair ih
    · next h => exact .backslash h (ih.unit (ne_of_notMem_escapes h).2)

theorem mended_tokens {json : List ℕ} (h : IsOutline json) :
    List.Forall₂ MendedToken (tokens json) (tokens (repairJson json)) := by
  rw [tokens_repairJson, List.forall₂_map_right_iff, List.forall₂_same]
  intro t ht
  rcases h.forall_mem t ht with ⟨c, rfl⟩ | ⟨body, rfl, -⟩
  · exact .mark c
  · exact .literal (mended_repairBody (literalBody_of_mem ht))

/-! ### Valid literals -/

/-- Every `u` after a backslash stands before four hexadecimal digits. -/
inductive UnicodeComplete : List ℕ → Prop
  | nil : UnicodeComplete []
  | plain {c : ℕ} {rest : List ℕ} : c ≠ BACKSLASH → UnicodeComplete rest → UnicodeComplete (c :: rest)
  | pair {e : ℕ} {rest : List ℕ} :
      (e = LETTER_U → HexRun 4 rest) → UnicodeComplete rest → UnicodeComplete (BACKSLASH :: e :: rest)

theorem unicodeComplete_plain {c : ℕ} {rest : List ℕ} (hbackslash : c ≠ BACKSLASH) :
    UnicodeComplete (c :: rest) ↔ UnicodeComplete rest :=
  ⟨fun h => by cases h with
    | plain _ h => exact h
    | pair _ _ => exact absurd rfl hbackslash,
  .plain hbackslash⟩

theorem unicodeComplete_pair {e : ℕ} {rest : List ℕ} :
    UnicodeComplete (BACKSLASH :: e :: rest) ↔ (e = LETTER_U → HexRun 4 rest) ∧ UnicodeComplete rest :=
  ⟨fun h => by cases h with
    | plain h _ => exact absurd rfl h
    | pair h h' => exact ⟨h, h'⟩,
  fun h => .pair h.1 h.2⟩

theorem stringBody_plain {c : ℕ} {rest : List ℕ} (hbackslash : c ≠ BACKSLASH) :
    StringBody (c :: rest) ↔ c ≠ QUOTE ∧ 0x20 ≤ c ∧ StringBody rest :=
  ⟨fun h => by cases h with
    | plain hquote _ hle h => exact ⟨hquote, hle, h⟩
    | escape _ _ => exact absurd rfl hbackslash
    | unicode _ _ => exact absurd rfl hbackslash,
  fun h => .plain h.1 hbackslash h.2.1 h.2.2⟩

theorem stringBody_pair {e : ℕ} {rest : List ℕ} :
    StringBody (BACKSLASH :: e :: rest) ↔
      e ∈ VALID_JSON_ESCAPES ∧ (e = LETTER_U → HexRun 4 rest) ∧ StringBody rest := by
  constructor
  · intro h
    cases h with
    | plain _ h _ _ => exact absurd rfl h
    | escape hmem h =>
      have hvalid : ∀ e ∈ simpleEscapes, e ∈ VALID_JSON_ESCAPES ∧ e ≠ LETTER_U := by decide
      exact ⟨(hvalid e hmem).1, fun heq => absurd heq (hvalid e hmem).2, h⟩
    | unicode hrun h => exact ⟨by decide, fun _ => hrun, h⟩
  · rintro ⟨hvalid, hrun, h⟩
    have hcases : ∀ e ∈ VALID_JSON_ESCAPES, e ∈ simpleEscapes ∨ e = LETTER_U := by decide
    rcases hcases e hvalid with hmem | rfl
    · exact .escape hmem h
    · exact .unicode (hrun rfl) h

theorem stringBody_hexDigits : ∀ {digits : List ℕ} (_ : digits.all isHexDigit = true) {rest : List ℕ},
    StringBody (digits ++ rest) ↔ StringBody rest
  | [], _, _ => Iff.rfl
  | c :: digits, h, rest => by
    rw [List.all_cons, Bool.and_eq_true] at h
    obtain ⟨hquote, hbackslash, hcontrol⟩ := hexDigit_plain h.1
    have hle : 0x20 ≤ c := by
      simp only [isControlCharacter, Bool.and_eq_false_iff, decide_eq_false_iff_not] at hcontrol
      omega
    rw [List.cons_append, stringBody_plain hbackslash, stringBody_hexDigits h.2]
    exact ⟨fun h => h.2.2, fun h => ⟨hquote, hle, h⟩⟩

theorem hexRun_append : ∀ {digits : List ℕ} (_ : digits.all isHexDigit = true) (rest : List ℕ),
    HexRun digits.length (digits ++ rest)
  | [], _, _ => trivial
  | c :: digits, h, rest => by
    rw [List.all_cons, Bool.and_eq_true] at h
    exact ⟨h.1, hexRun_append h.2 rest⟩

theorem stringBody_repairUnit {c : ℕ} {rest : List ℕ} (hquote : c ≠ QUOTE) (hbackslash : c ≠ BACKSLASH) :
    StringBody (repairUnit c ++ rest) ↔ StringBody rest := by
  unfold repairUnit
  split
  · next hcontrol =>
    rcases escapeControlCharacter_cases hcontrol with ⟨e, hmem, he⟩ | ⟨digits, hdigits, he⟩
    · have hvalid : ∀ e ∈ simpleEscapes, e ∈ VALID_JSON_ESCAPES ∧ e ≠ LETTER_U := by decide
      rw [he, List.cons_append, List.singleton_append, stringBody_pair]
      exact ⟨fun h => h.2.2, fun h => ⟨(hvalid e hmem).1, fun heq => absurd heq (hvalid e hmem).2, h⟩⟩
    · obtain ⟨hlength, hall⟩ := digits_of_isUnicodeDigits hdigits
      rw [he, List.cons_append, List.cons_append, stringBody_pair, stringBody_hexDigits hall, ← hlength]
      exact ⟨fun h => h.2.2, fun h => ⟨by decide, fun _ => hexRun_append hall rest, h⟩⟩
  · next hcontrol =>
    have hle : 0x20 ≤ c := by
      simp only [isControlCharacter, Bool.and_eq_true, decide_eq_true_eq] at hcontrol
      omega
    rw [List.singleton_append, stringBody_plain hbackslash]
    exact ⟨fun h => h.2.2, fun h => ⟨hquote, hle, h⟩⟩

theorem not_hexRun_backslash (n : ℕ) (rest : List ℕ) : ¬ HexRun (n + 1) (BACKSLASH :: rest) := fun h =>
  (hexDigit_plain h.1).2.1 rfl

/-- The repair neither makes nor breaks a run of hexadecimal digits. -/
theorem hexRun_repairBody : ∀ (n : ℕ) (text : List ℕ), HexRun n (repairBody text) ↔ HexRun n text
  | 0, _ => Iff.rfl
  | _ + 1, [] => Iff.rfl
  | n + 1, c :: rest => by
    by_cases hhex : isHexDigit c = true
    · obtain ⟨hquote, hbackslash, hcontrol⟩ := hexDigit_plain hhex
      have hunit : repairUnit c = [c] := if_neg (by rw [hcontrol]; exact Bool.false_ne_true)
      rw [repairBody_plain hquote hbackslash, hunit]
      exact and_congr_right fun _ => hexRun_repairBody n rest
    · refine iff_of_false (fun h => ?_) fun h => hhex h.1
      by_cases hquote : c = QUOTE
      · rw [hquote, repairBody_quote] at h
        exact (hexDigit_plain h.1).1 rfl
      · by_cases hbackslash : c = BACKSLASH
        · obtain rfl := hbackslash
          cases rest with
          | nil => exact not_hexRun_backslash n _ h
          | cons e rest =>
            rw [repairBody_escape] at h
            split at h <;> exact not_hexRun_backslash n _ h
        · rw [repairBody_plain hquote hbackslash, repairUnit] at h
          split at h
          · next hcontrol =>
            rcases escapeControlCharacter_cases hcontrol with ⟨e, -, he⟩ | ⟨digits, -, he⟩
            · rw [he] at h
              exact not_hexRun_backslash n _ h
            · rw [he] at h
              exact not_hexRun_backslash n _ h
          · exact hhex h.1

/-- A repaired literal is valid exactly where no escape by number lacks its digits. -/
theorem stringBody_repairBody {body : List ℕ} (h : LiteralBody body) :
    StringBody (repairBody body) ↔ UnicodeComplete body := by
  induction h with
  | nil => exact ⟨fun _ => .nil, fun _ => .nil⟩
  | plain hquote hbackslash _ ih =>
    rw [repairBody_plain hquote hbackslash, stringBody_repairUnit hquote hbackslash, ih, unicodeComplete_plain hbackslash]
  | @escape e rest _ ih =>
    rw [repairBody_escape, unicodeComplete_pair]
    split
    · next hvalid =>
      rw [stringBody_pair, hexRun_repairBody, ih]
      exact and_iff_right hvalid
    · next hvalid =>
      obtain ⟨hquote, hbackslash⟩ := ne_of_notMem_escapes hvalid
      have hne : e ≠ LETTER_U := fun heq => hvalid (heq ▸ by decide)
      rw [stringBody_pair, repairBody_plain hquote hbackslash, stringBody_repairUnit hquote hbackslash, ih]
      exact ⟨fun h => ⟨fun heq => absurd heq hne, h.2.2⟩, fun h => ⟨by decide, fun heq => absurd heq (by decide), h.2⟩⟩

/-- A valid literal is kept. -/
theorem repairBody_of_stringBody {body : List ℕ} (h : StringBody body) : repairBody body = body := by
  induction h with
  | nil => rfl
  | @plain c rest hquote hbackslash hle _ ih =>
    have hcontrol : ¬ isControlCharacter c = true := by
      simp only [isControlCharacter, Bool.and_eq_true, decide_eq_true_eq]
      omega
    have hunit : repairUnit c = [c] := if_neg hcontrol
    rw [repairBody_plain hquote hbackslash, hunit, ih, List.singleton_append]
  | @escape e rest hmem _ ih =>
    have hvalid : ∀ e ∈ simpleEscapes, e ∈ VALID_JSON_ESCAPES := by decide
    rw [repairBody_escape, if_pos (hvalid e hmem), ih]
  | unicode _ _ ih => rw [repairBody_escape, if_pos (by decide), ih]

/-- The repair of a JSON text is the text. -/
theorem repairJson_of_isJson {json : List ℕ} (h : IsJson json) : repairJson json = json := by
  apply tokens_injective
  rw [tokens_repairJson]
  refine (List.map_congr_left fun t ht => ?_).trans (List.map_id _)
  rcases h.forall_mem t ht with ⟨c, rfl⟩ | ⟨body, rfl, hbody⟩
  · rfl
  · exact congrArg Token.literal (repairBody_of_stringBody hbody)

/-! ### The safety of the repair -/

/-- What a safe repair does to a text: it keeps a JSON text, a second repair changes nothing, the closed literals of the
output are valid, and a text that is at fault in its literals only becomes a JSON text, with nothing changed but the
defects. -/
structure SafelyRepaired (json : List ℕ) : Prop where
  identity : IsJson json → repairJson json = json
  idempotent : repairJson (repairJson json) = repairJson json
  literals : ∀ body, Token.literal body ∈ tokens (repairJson json) → StringBody body
  parseable : IsOutline json → IsJson (repairJson json) ∧ List.Forall₂ MendedToken (tokens json) (tokens (repairJson json))

/-- The literals of the output are valid exactly where those of the text have no escape by number without its digits. -/
theorem literals_repairJson {json : List ℕ} :
    (∀ body, Token.literal body ∈ tokens (repairJson json) → StringBody body) ↔
      ∀ body, Token.literal body ∈ tokens json → UnicodeComplete body := by
  rw [tokens_repairJson]
  constructor
  · intro h body hbody
    exact (stringBody_repairBody (literalBody_of_mem hbody)).mp
      (h _ (List.mem_map.mpr ⟨_, hbody, rfl⟩))
  · intro h body hbody
    obtain ⟨t, ht, heq⟩ := List.mem_map.mp hbody
    cases t with
    | mark c => nomatch heq
    | unclosed body' => nomatch heq
    | literal body' =>
      obtain rfl := Token.literal.inj heq
      exact (stringBody_repairBody (literalBody_of_mem ht)).mpr (h body' ht)

/-- A text is repaired safely exactly where every escape by number in a closed literal has its four digits. -/
theorem repairJson_safe_iff (json : List ℕ) :
    SafelyRepaired json ↔ ∀ body, Token.literal body ∈ tokens json → UnicodeComplete body := by
  constructor
  · exact fun h => literals_repairJson.mp h.literals
  · intro h
    refine ⟨repairJson_of_isJson, (repair_idem json).1, literals_repairJson.mpr h, fun houtline => ⟨?_, mended_tokens houtline⟩⟩
    unfold IsJson
    rw [tokens_repairJson]
    exact houtline.map fun body hbody _ => (stringBody_repairBody (literalBody_of_mem hbody)).mpr (h body hbody)

/-- `"\u12"` is not repaired: two digits are missing. -/
theorem not_safelyRepaired : ¬ SafelyRepaired [QUOTE, BACKSLASH, LETTER_U, 0x31, 0x32, QUOTE] := by
  intro h
  have hbody := h.literals [BACKSLASH, LETTER_U, 0x31, 0x32] (by decide)
  rw [stringBody_pair] at hbody
  obtain ⟨-, -, hrun⟩ := hbody.2.1 rfl
  exact hrun

end Trek.Ai
