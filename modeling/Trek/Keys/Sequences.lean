/-
# Key sequences

A terminal reports a key as a sequence: in the Kitty protocol with a code point, alternate keys, a
modifier and an event type, in `modifyOtherKeys` format with a modifier and a code point, or in one of
many older forms. The numbers of a sequence have as many digits as they like, so that they are what
`parseInt` makes of them: the nearest double, or infinity.
-/
import Trek.Editor.Markers

namespace Trek.Keys

open Trek.Tui Trek.Editor

/-! ### Numbers -/

/-- A number that is not a fraction. -/
inductive Num where
  | int (n : ℤ)
  | infinity
  deriving DecidableEq

namespace Num

/-- The double that is nearest to a natural number, the even one of two. -/
def ofNat (n : ℕ) : Num :=
  let shift := n.log2 - 52
  let half := 2 ^ shift / 2
  let quotient := n / 2 ^ shift
  let remainder := n % 2 ^ shift
  let rounded := if remainder < half ∨ remainder = half ∧ (quotient % 2 = 0 ∨ shift = 0) then quotient else quotient + 1
  if rounded * 2 ^ shift < 2 ^ 1024 then int (rounded * 2 ^ shift : ℕ) else infinity

/-- `n - 1`. -/
def pred : Num → Num
  | int n => if n ≤ 0 then int (n - 1) else ofNat (n.toNat - 1)
  | infinity => infinity

/-- The bits of a number in a bitwise operation. -/
def toUint32 : Num → ℕ
  | int n => (n % 2 ^ 32).toNat
  | infinity => 0

/-- `lo <= n && n <= hi`. -/
def between (lo hi : ℤ) : Num → Bool
  | int n => lo ≤ n && n ≤ hi
  | infinity => false

/-- `n + 32`, of the code of a letter. -/
def toLower : Num → Num
  | int n => int (n + 32)
  | infinity => infinity

end Num

/-- `parseInt` of digits. -/
def parseInt (digits : List ℕ) : Num := Num.ofNat (parseDigits digits)

/-- The character of `String.fromCharCode`. -/
def fromCharCode (codepoint : Num) : ℕ := codepoint.toUint32 % 0x10000

/-! ### Constants -/

/-- `SYMBOL_KEYS`. -/
def SYMBOL_KEYS : List ℕ := ascii "-=[]\\;',./!@#$%^&*()_+|~:<>?" ++ [0x60, 0x7b, 0x7d]

/-- `MODIFIERS.shift`. -/
abbrev SHIFT : ℕ := 1

/-- `MODIFIERS.alt`. -/
abbrev ALT : ℕ := 2

/-- `MODIFIERS.ctrl`. -/
abbrev CTRL : ℕ := 4

/-- `MODIFIERS.super`. -/
abbrev SUPER : ℕ := 8

/-- `modifier & ~LOCK_MASK`. -/
def effectiveModifier (modifier : Num) : ℕ := modifier.toUint32 &&& 0xffffff3f

/-- `CODEPOINTS`, `ARROW_CODEPOINTS` and `FUNCTIONAL_CODEPOINTS`. -/
inductive SpecialKey where
  | escape
  | tab
  | enter
  | space
  | backspace
  | kpEnter
  | up
  | down
  | right
  | left
  | delete
  | insert
  | pageUp
  | pageDown
  | home
  | end_
  deriving DecidableEq

/-- The code point of a special key. -/
def SpecialKey.codepoint : SpecialKey → ℤ
  | escape => 27
  | tab => 9
  | enter => 13
  | space => 32
  | backspace => 127
  | kpEnter => 57414
  | up => -1
  | down => -2
  | right => -3
  | left => -4
  | delete => -10
  | insert => -11
  | pageUp => -12
  | pageDown => -13
  | home => -14
  | end_ => -15

/-- `KITTY_FUNCTIONAL_KEY_EQUIVALENTS`. -/
def KITTY_FUNCTIONAL_KEY_EQUIVALENTS : List (ℤ × ℤ) :=
  [(57399, 48), (57400, 49), (57401, 50), (57402, 51), (57403, 52), (57404, 53), (57405, 54), (57406, 55), (57407, 56),
    (57408, 57), (57409, 46), (57410, 47), (57411, 42), (57412, 45), (57413, 43), (57415, 61), (57416, 44), (57417, -4),
    (57418, -3), (57419, -1), (57420, -2), (57421, -12), (57422, -13), (57423, -14), (57424, -15), (57425, -11), (57426, -10)]

/-- `normalizeKittyFunctionalCodepoint`. -/
def normalizeKittyFunctionalCodepoint : Num → Num
  | .int n => .int ((KITTY_FUNCTIONAL_KEY_EQUIVALENTS.lookup n).getD n)
  | .infinity => .infinity

/-- `normalizeShiftedLetterIdentityCodepoint`. -/
def normalizeShiftedLetterIdentityCodepoint (codepoint modifier : Num) : Num :=
  if effectiveModifier modifier &&& SHIFT ≠ 0 ∧ codepoint.between 65 90 then codepoint.toLower else codepoint

/-! ### The Kitty protocol -/

/-- `KeyEventType`. -/
inductive KeyEventType where
  | press
  | repeat_
  | release
  deriving DecidableEq

/-- `ParsedKittySequence`. -/
structure ParsedKittySequence where
  codepoint : Num
  shiftedKey : Option Num
  baseLayoutKey : Option Num
  modifier : Num
  eventType : KeyEventType
  deriving DecidableEq

/-- `parseEventType`. -/
def parseEventType (eventTypeStr : Option (List ℕ)) : KeyEventType :=
  match eventTypeStr.map parseInt with
  | some (.int 2) => .repeat_
  | some (.int 3) => .release
  | _ => .press

/-- A group `(?:SEP(\d+))?`, or `(?:SEP(\d*))?`: its digits, where it matches, and what is left. No digit stands
behind a group in the expressions below, so that it never gives one back. -/
def optionalGroup (sep : ℕ) (orEmpty : Bool) : List ℕ → Option (List ℕ) × List ℕ
  | [] => (none, [])
  | c :: text =>
    if c = sep ∧ (orEmpty ∨ text.takeWhile isDigit ≠ []) then (some (text.takeWhile isDigit), text.dropWhile isDigit)
    else (none, c :: text)

/-- The modifier of a sequence, which counts from 1. -/
def modifierOf (modValue : Option (List ℕ)) : Num := ((modValue.map parseInt).getD (.int 1)).pred

/-- `/^\x1b\[(\d+)(?::(\d*))?(?::(\d+))?(?:;(\d+))?(?::(\d+))?u$/`. -/
def parseCsiU : List ℕ → Option ParsedKittySequence
  | 0x1b :: 0x5b :: text =>
    let codepoint := text.takeWhile isDigit
    let shifted := optionalGroup 0x3a true (text.dropWhile isDigit)
    let base := optionalGroup 0x3a false shifted.2
    let modValue := optionalGroup 0x3b false base.2
    let event := optionalGroup 0x3a false modValue.2
    if codepoint ≠ [] ∧ event.2 = [0x75] then
      some {
        codepoint := parseInt codepoint
        shiftedKey := (shifted.1.filter (· ≠ [])).map parseInt
        baseLayoutKey := base.1.map parseInt
        modifier := modifierOf modValue.1
        eventType := parseEventType event.1 }
    else none
  | _ => none

/-- `/^\x1b\[1;(\d+)(?::(\d+))?([FINALS])$/`, with the key of each final letter. -/
def parseLetter (finals : List (ℕ × SpecialKey)) : List ℕ → Option ParsedKittySequence
  | 0x1b :: 0x5b :: 0x31 :: 0x3b :: text =>
    let modValue := text.takeWhile isDigit
    let event := optionalGroup 0x3a false (text.dropWhile isDigit)
    match event.2 with
    | [final] =>
      if modValue = [] then none
      else
        (finals.lookup final).map fun key =>
          { codepoint := .int key.codepoint
            shiftedKey := none
            baseLayoutKey := none
            modifier := modifierOf (some modValue)
            eventType := parseEventType event.1 }
    | _ => none
  | _ => none

/-- `arrowCodes`. -/
def arrowCodes : List (ℕ × SpecialKey) := [(0x41, .up), (0x42, .down), (0x43, .right), (0x44, .left)]

/-- `H` and `F`. -/
def homeEndCodes : List (ℕ × SpecialKey) := [(0x48, .home), (0x46, .end_)]

/-- `funcCodes`. -/
def funcCodes : List (ℤ × SpecialKey) := [(2, .insert), (3, .delete), (5, .pageUp), (6, .pageDown), (7, .home), (8, .end_)]

/-- The key of a number, if there is one. -/
def funcKey : Num → Option SpecialKey
  | .int n => funcCodes.lookup n
  | .infinity => none

/-- `/^\x1b\[(\d+)(?:;(\d+))?(?::(\d+))?~$/`, of a number that is a functional key. -/
def parseFunctional : List ℕ → Option ParsedKittySequence
  | 0x1b :: 0x5b :: text =>
    let keyNum := text.takeWhile isDigit
    let modValue := optionalGroup 0x3b false (text.dropWhile isDigit)
    let event := optionalGroup 0x3a false modValue.2
    if keyNum ≠ [] ∧ event.2 = [0x7e] then
      (funcKey (parseInt keyNum)).map fun key =>
        { codepoint := .int key.codepoint
          shiftedKey := none
          baseLayoutKey := none
          modifier := modifierOf modValue.1
          eventType := parseEventType event.1 }
    else none
  | _ => none

/-- `parseKittySequence`. -/
def parseKittySequence (data : List ℕ) : Option ParsedKittySequence :=
  parseCsiU data <|> parseLetter arrowCodes data <|> parseFunctional data <|> parseLetter homeEndCodes data

/-! ### modifyOtherKeys -/

/-- `ParsedModifyOtherKeysSequence`. -/
structure ParsedModifyOtherKeysSequence where
  codepoint : Num
  modifier : Num
  deriving DecidableEq

/-- `parseModifyOtherKeysSequence`: `/^\x1b\[27;(\d+);(\d+)~$/`. -/
def parseModifyOtherKeysSequence : List ℕ → Option ParsedModifyOtherKeysSequence
  | 0x1b :: 0x5b :: 0x32 :: 0x37 :: 0x3b :: text =>
    let modValue := text.takeWhile isDigit
    match text.dropWhile isDigit with
    | 0x3b :: text =>
      let codepoint := text.takeWhile isDigit
      if modValue ≠ [] ∧ codepoint ≠ [] ∧ text.dropWhile isDigit = [0x7e] then
        some ⟨parseInt codepoint, modifierOf (some modValue)⟩
      else none
    | _ => none
  | _ => none

end Trek.Keys
