/-
# Asking for another role

The patterns and parsers of `core/runtime/escalate.ts`. A model asks for a stronger or a weaker role with a control object,
`{"escalate":"next","why":"…"}`, and small models drop its brackets, so that there is a strict and a loose pattern for each of
the two signals. What else a text may say to be understood as such an ask are phrases. `stripEscalateSignal` takes the
control objects out of a text before the user sees it.
-/
import Trek.Lib.Lookbehind
import Trek.Lib.Replace

namespace Trek.Escalate

/-- What is asked for. -/
inductive Tier where
  | next
  | tooling
  | workhorse
  | planning
  | frontier
  | decision
  deriving DecidableEq

def Tier.text : Tier → List Char
  | next => "next".toList
  | tooling => "tooling".toList
  | workhorse => "workhorse".toList
  | planning => "planning".toList
  | frontier => "frontier".toList
  | decision => "decision".toList

/-- The two signals. -/
inductive Signal where
  | escalate
  | descalate
  deriving DecidableEq

def Signal.word : Signal → List Char
  | escalate => "escalate".toList
  | descalate => "descalate".toList

def Signal.tiers : Signal → List Tier
  | escalate => [.next, .tooling, .workhorse, .planning, .frontier]
  | descalate => [.next, .tooling, .workhorse, .planning, .decision]

/-! ### The patterns -/

/-- The groups of a match: the tier, and the text of the reason. -/
structure Groups where
  tier : Tier
  why : Option (List Char)
  deriving DecidableEq

/-- `\s*`. -/
def skipSpaces (text : List Char) : List Char := text.dropWhile isJsSpace

/-- `"?`. -/
def dropQuote : List Char → List Char
  | '"' :: text => text
  | text => text

/-- One of the tiers, and the quote after it. -/
def closedTier (tiers : List Tier) : Pattern Tier := fun text =>
  tiers.findSome? fun tier => (dropWord (tier.text ++ ['"']) text).map fun rest => (tier, rest)

/-- `escalate"?\s*:\s*"(…)"`. -/
def core (signal : Signal) : Pattern Tier := fun text =>
  (dropWord signal.word text).bind fun rest =>
    (word [':'] (skipSpaces (dropQuote rest))).bind fun p =>
      (word ['"'] (skipSpaces p.2)).bind fun q => closedTier signal.tiers q.2

/-- The line terminators, which `.` does not match unless it is told to. -/
def isLineTerminator (c : Char) : Bool := c.toNat ∈ [0x0A, 0x0D, 0x2028, 0x2029]

/-- `((?:\\.|[^"\\])*)"`. -/
def quoted (dotAll : Bool) : Pattern (List Char)
  | [] => none
  | ['\\'] => none
  | '\\' :: c :: text =>
    if dotAll || !isLineTerminator c then (quoted dotAll text).map fun p => ('\\' :: c :: p.1, p.2) else none
  | '"' :: text => some ([], text)
  | c :: text => (quoted dotAll text).map fun p => (c :: p.1, p.2)

/-- `\s*,\s*"why"\s*:\s*"((?:\\.|[^"\\])*)"`. -/
def whyPart (dotAll : Bool) : Pattern (List Char) := fun text =>
  (word [','] (skipSpaces text)).bind fun p =>
    (dropWord "\"why\"".toList (skipSpaces p.2)).bind fun rest =>
      (word [':'] (skipSpaces rest)).bind fun p =>
        (word ['"'] (skipSpaces p.2)).bind fun q => quoted dotAll q.2

/-- The reason, if there is one. -/
def whyOrNone (dotAll : Bool) (text : List Char) : Option (List Char) × List Char :=
  match whyPart dotAll text with
  | some (why, rest) => (some why, rest)
  | none => (none, text)

/-- `ESCALATE_JSON` and `DESCALATE_JSON`. -/
def json (signal : Signal) : Lookbehind Groups := fun _ text =>
  (word ['{'] text).bind fun p =>
    (word ['"'] (skipSpaces p.2)).bind fun p =>
      if (p.2.drop signal.word.length).head? = some '"' then
        (core signal p.2).bind fun q =>
          (word ['}'] (skipSpaces (whyOrNone true q.2).2)).map fun r => (⟨q.1, (whyOrNone true q.2).1⟩, r.2)
      else none

/-- A signal may start here. The lookbehind of `ESCALATE_LOOSE` avoids matching inside "descalate". -/
def mayStart : Signal → Option Char → Bool
  | .escalate, prev => !prev.any Char.isAlpha
  | .descalate, _ => true

/-- `ESCALATE_LOOSE` and `DESCALATE_LOOSE`. -/
def loose (signal : Signal) : Lookbehind Groups := fun prev text =>
  if mayStart signal prev then
    (core signal (dropQuote text)).map fun q => (⟨q.1, (whyOrNone false q.2).1⟩, (whyOrNone false q.2).2)
  else none

/-! ### Phrases -/

/-- The texts that a sequence of choices stands for. -/
def choices : List (List String) → List (List Char)
  | [] => [[]]
  | alternatives :: rest => alternatives.flatMap fun text => (choices rest).map (text.toList ++ ·)

/-- One of the phrases stands here, and a word ends after it. -/
def phraseHere (phrases : List (List Char)) (text : List Char) : Option (List Char) :=
  phrases.find? fun phrase => (dropWord phrase text).any fun rest => !rest.head?.any isWordChar

/-- `/\b(…)\b/i`: the first of the phrases in the text, in lower case. -/
def findPhrase (phrases : List (List Char)) (text : List Char) : Option (List Char) :=
  (positions none text).findSome? fun p => if p.1.any isWordChar then none else phraseHere phrases p.2

/-- One of the phrases stands anywhere in the text. -/
def includesPhrase (phrases : List (List Char)) (text : List Char) : Bool :=
  (positions none text).any fun p => phrases.any fun phrase => (dropWord phrase p.2).isSome

/-- `SIMPLE_AGAIN`. What may come after "descalate" and "new topic" is left out: a word ends before it. -/
def SIMPLE_AGAIN : List (List Char) :=
  choices [["this is "], ["simple", "easy", "trivial"]] ++
  choices [["simple "], ["edit", "fix", "typo", "rename"]] ++
  choices [["hand off to "], ["tooling", "workhorse"]] ++
  choices [["descalate", "descalation", "please descalate"]] ++
  choices [["too "], ["much", "heavy", "strong"], [" "], ["a ", ""], ["model"]] ++
  choices [["overkill"]] ++
  choices [["drop "], ["to", "down"]] ++
  choices [["go back to "], ["tooling", "workhorse", "decision"]] ++
  choices [["new topic"]] ++
  choices [["user switched "], ["task", "topic"]]

/-- The phrases of `USER_DESCALATE`, without what may come after them. -/
def USER_PHRASES : List (List Char) :=
  choices [["/descalate", "descalate"]] ++
  choices [["use "], ["the ", ""], ["tooling", "workhorse"]] ++
  choices [["go back to "], ["tooling", "workhorse", "decision"]] ++
  choices [["simpler model"]]

/-- `USER_DESCALATE.test`: a phrase or an arrow at the start of the text. -/
def userDescalates (text : List Char) : Bool :=
  (phraseHere USER_PHRASES text).isSome ||
    match word ['↓'] text with
    | some (_, rest) => (skipSpaces rest).head?.any isWordChar
    | none => false

/-! ### Asks -/

/-- `EscalateAsk` and `DescalateAsk`. -/
structure Ask where
  requested : Tier
  why : List Char
  explicit : Bool
  deriving DecidableEq

/-- `text.match(JSON) ?? text.match(LOOSE)`. -/
def controlMatch (signal : Signal) (text : List Char) : Option Groups :=
  ((firstMatchFrom (json signal) none text).or (firstMatchFrom (loose signal) none text)).map (·.what)

/-- The reason of a control object, with its quotes, or a default. -/
def whyText (why : Option (List Char)) (default : List Char) : List Char :=
  let text := trimChars (replaceAll (word ['\\', '"']) (fun _ => ['"']) (why.getD []))
  if text = [] then default else text

def controlAsk (signal : Signal) (default text : List Char) : Option Ask :=
  (controlMatch signal text).map fun groups => ⟨groups.tier, whyText groups.why default, true⟩

/-- The tier of the first of the tiers that a text names. -/
def namedTier (tiers : List Tier) (text : List Char) : Tier :=
  match findPhrase (tiers.map Tier.text) text with
  | some named => (tiers.find? (·.text = named)).getD .next
  | none => .next

/-- What is asked for without a control object. -/
def phraseDescalate (trimmed : List Char) : Option Ask :=
  if userDescalates trimmed then
    if (findPhrase ["decision".toList] trimmed).isSome then some ⟨.decision, "user requested descalation".toList, true⟩
    else some ⟨namedTier [.tooling, .workhorse, .planning] trimmed, "user requested descalation".toList, true⟩
  else if (findPhrase SIMPLE_AGAIN trimmed).isSome then
    if (findPhrase ["decision".toList] trimmed).isSome ||
        includesPhrase (choices [["new topic", "switched task", "switched topic"]]) trimmed then
      some ⟨.decision, "model reported topic reset".toList, false⟩
    else some ⟨namedTier [.tooling, .workhorse] trimmed, "model reported simpler remaining work".toList, false⟩
  else none

def parseDescalateAsk (text : List Char) : Option Ask :=
  let trimmed := trimChars text
  if trimmed = [] then none
  else
    match controlAsk .descalate "model requested descalation".toList trimmed with
    | some ask => some ask
    | none => phraseDescalate trimmed

/-! ### Stripping -/

end Trek.Escalate
