/-
# Matching and parsing keys

`matchesKey` says whether the data of a key press is a key that is given by its id, such as `ctrl+c`;
`parseKey` finds the id for the data. Both know the same families of sequences, but each goes through
them by itself.
-/
import Trek.Keys.Sequences

namespace Trek.Keys

open Trek.Tui Trek.Editor

/-- What the two ask about the terminal: `_kittyProtocolActive` and `isWindowsTerminalSession()`. -/
structure Session where
  kittyProtocolActive : Bool
  windowsTerminal : Bool
  deriving DecidableEq

/-! ### Legacy sequences -/

/-- `LEGACY_KEY_SEQUENCES`. -/
def LEGACY_KEY_SEQUENCES : List (List ℕ × List (List ℕ)) :=
  [(ascii "up", [ascii "\x1b[A", ascii "\x1bOA"]), (ascii "down", [ascii "\x1b[B", ascii "\x1bOB"]),
    (ascii "right", [ascii "\x1b[C", ascii "\x1bOC"]), (ascii "left", [ascii "\x1b[D", ascii "\x1bOD"]),
    (ascii "home", [ascii "\x1b[H", ascii "\x1bOH", ascii "\x1b[1~", ascii "\x1b[7~"]),
    (ascii "end", [ascii "\x1b[F", ascii "\x1bOF", ascii "\x1b[4~", ascii "\x1b[8~"]),
    (ascii "insert", [ascii "\x1b[2~"]), (ascii "delete", [ascii "\x1b[3~"]),
    (ascii "pageUp", [ascii "\x1b[5~", ascii "\x1b[[5~"]), (ascii "pageDown", [ascii "\x1b[6~", ascii "\x1b[[6~"]),
    (ascii "clear", [ascii "\x1b[E", ascii "\x1bOE"]), (ascii "f1", [ascii "\x1bOP", ascii "\x1b[11~", ascii "\x1b[[A"]),
    (ascii "f2", [ascii "\x1bOQ", ascii "\x1b[12~", ascii "\x1b[[B"]), (ascii "f3", [ascii "\x1bOR", ascii "\x1b[13~", ascii "\x1b[[C"]),
    (ascii "f4", [ascii "\x1bOS", ascii "\x1b[14~", ascii "\x1b[[D"]), (ascii "f5", [ascii "\x1b[15~", ascii "\x1b[[E"]),
    (ascii "f6", [ascii "\x1b[17~"]), (ascii "f7", [ascii "\x1b[18~"]), (ascii "f8", [ascii "\x1b[19~"]),
    (ascii "f9", [ascii "\x1b[20~"]), (ascii "f10", [ascii "\x1b[21~"]), (ascii "f11", [ascii "\x1b[23~"]),
    (ascii "f12", [ascii "\x1b[24~"])]

/-- `LEGACY_SHIFT_SEQUENCES`. -/
def LEGACY_SHIFT_SEQUENCES : List (List ℕ × List (List ℕ)) :=
  [(ascii "up", [ascii "\x1b[a"]), (ascii "down", [ascii "\x1b[b"]), (ascii "right", [ascii "\x1b[c"]),
    (ascii "left", [ascii "\x1b[d"]), (ascii "clear", [ascii "\x1b[e"]), (ascii "insert", [ascii "\x1b[2$"]),
    (ascii "delete", [ascii "\x1b[3$"]), (ascii "pageUp", [ascii "\x1b[5$"]), (ascii "pageDown", [ascii "\x1b[6$"]),
    (ascii "home", [ascii "\x1b[7$"]), (ascii "end", [ascii "\x1b[8$"])]

/-- `LEGACY_CTRL_SEQUENCES`. -/
def LEGACY_CTRL_SEQUENCES : List (List ℕ × List (List ℕ)) :=
  [(ascii "up", [ascii "\x1bOa"]), (ascii "down", [ascii "\x1bOb"]), (ascii "right", [ascii "\x1bOc"]),
    (ascii "left", [ascii "\x1bOd"]), (ascii "clear", [ascii "\x1bOe"]), (ascii "insert", [ascii "\x1b[2^"]),
    (ascii "delete", [ascii "\x1b[3^"]), (ascii "pageUp", [ascii "\x1b[5^"]), (ascii "pageDown", [ascii "\x1b[6^"]),
    (ascii "home", [ascii "\x1b[7^"]), (ascii "end", [ascii "\x1b[8^"])]

/-- `LEGACY_SEQUENCE_KEY_IDS`. -/
def LEGACY_SEQUENCE_KEY_IDS : List (List ℕ × List ℕ) :=
  [("\x1bOA", "up"), ("\x1bOB", "down"), ("\x1bOC", "right"), ("\x1bOD", "left"), ("\x1bOH", "home"), ("\x1bOF", "end"),
    ("\x1b[E", "clear"), ("\x1bOE", "clear"), ("\x1bOe", "ctrl+clear"), ("\x1b[e", "shift+clear"), ("\x1b[2~", "insert"),
    ("\x1b[2$", "shift+insert"), ("\x1b[2^", "ctrl+insert"), ("\x1b[3$", "shift+delete"), ("\x1b[3^", "ctrl+delete"),
    ("\x1b[[5~", "pageUp"), ("\x1b[[6~", "pageDown"), ("\x1b[a", "shift+up"), ("\x1b[b", "shift+down"), ("\x1b[c", "shift+right"),
    ("\x1b[d", "shift+left"), ("\x1bOa", "ctrl+up"), ("\x1bOb", "ctrl+down"), ("\x1bOc", "ctrl+right"), ("\x1bOd", "ctrl+left"),
    ("\x1b[5$", "shift+pageUp"), ("\x1b[6$", "shift+pageDown"), ("\x1b[7$", "shift+home"), ("\x1b[8$", "shift+end"),
    ("\x1b[5^", "ctrl+pageUp"), ("\x1b[6^", "ctrl+pageDown"), ("\x1b[7^", "ctrl+home"), ("\x1b[8^", "ctrl+end"), ("\x1bOP", "f1"),
    ("\x1bOQ", "f2"), ("\x1bOR", "f3"), ("\x1bOS", "f4"), ("\x1b[11~", "f1"), ("\x1b[12~", "f2"), ("\x1b[13~", "f3"),
    ("\x1b[14~", "f4"), ("\x1b[[A", "f1"), ("\x1b[[B", "f2"), ("\x1b[[C", "f3"), ("\x1b[[D", "f4"), ("\x1b[[E", "f5"),
    ("\x1b[15~", "f5"), ("\x1b[17~", "f6"), ("\x1b[18~", "f7"), ("\x1b[19~", "f8"), ("\x1b[20~", "f9"), ("\x1b[21~", "f10"),
    ("\x1b[23~", "f11"), ("\x1b[24~", "f12"), ("\x1bb", "alt+left"), ("\x1bf", "alt+right"), ("\x1bp", "alt+up"),
    ("\x1bn", "alt+down")].map fun entry => (ascii entry.1, ascii entry.2)

/-- The names that `LEGACY_SEQUENCE_KEY_IDS` has from `Object.prototype`. -/
def INHERITED_NAMES : List (List ℕ) :=
  ["constructor", "__defineGetter__", "__defineSetter__", "hasOwnProperty", "__lookupGetter__", "__lookupSetter__",
    "isPrototypeOf", "propertyIsEnumerable", "toString", "valueOf", "__proto__", "toLocaleString"].map ascii

/-- `sequences[key]`. -/
def sequencesOf (sequences : List (List ℕ × List (List ℕ))) (key : List ℕ) : List (List ℕ) := (sequences.lookup key).getD []

/-- `matchesLegacySequence`. -/
def matchesLegacySequence (data : List ℕ) (sequences : List (List ℕ)) : Bool := sequences.contains data

/-- `matchesLegacyModifierSequence`. -/
def matchesLegacyModifierSequence (data key : List ℕ) (modifier : ℕ) : Bool :=
  if modifier = SHIFT then matchesLegacySequence data (sequencesOf LEGACY_SHIFT_SEQUENCES key)
  else if modifier = CTRL then matchesLegacySequence data (sequencesOf LEGACY_CTRL_SEQUENCES key)
  else false

/-! ### Sequences with a modifier -/

/-- A code point that is no Latin letter and no symbol. -/
def isUnknownSymbol (codepoint : Num) : Bool := !codepoint.between 97 122 && !SYMBOL_KEYS.contains (fromCharCode codepoint)

/-- `matchesKittySequence`. -/
def matchesKittySequence (data : List ℕ) (expectedCodepoint : ℤ) (expectedModifier : ℕ) : Bool :=
  match parseKittySequence data with
  | none => false
  | some parsed =>
    if effectiveModifier parsed.modifier ≠ effectiveModifier (.int expectedModifier) then false
    else
      let normalizedCodepoint :=
        normalizeShiftedLetterIdentityCodepoint (normalizeKittyFunctionalCodepoint parsed.codepoint) parsed.modifier
      let normalizedExpectedCodepoint :=
        normalizeShiftedLetterIdentityCodepoint (normalizeKittyFunctionalCodepoint (.int expectedCodepoint)) (.int expectedModifier)
      normalizedCodepoint = normalizedExpectedCodepoint ||
        parsed.baseLayoutKey = some (.int expectedCodepoint) && isUnknownSymbol normalizedCodepoint

/-- `matchesModifyOtherKeys`. -/
def matchesModifyOtherKeys (data : List ℕ) (expectedKeycode : ℤ) (expectedModifier : ℕ) : Bool :=
  match parseModifyOtherKeysSequence data with
  | none => false
  | some parsed => parsed.codepoint = .int expectedKeycode && parsed.modifier = .int expectedModifier

/-- `matchesPrintableModifyOtherKeys`. -/
def matchesPrintableModifyOtherKeys (data : List ℕ) (expectedKeycode : ℤ) (expectedModifier : ℕ) : Bool :=
  if expectedModifier = 0 then false
  else
    match parseModifyOtherKeysSequence data with
    | none => false
    | some parsed =>
      parsed.modifier = .int expectedModifier &&
        normalizeShiftedLetterIdentityCodepoint parsed.codepoint parsed.modifier =
          normalizeShiftedLetterIdentityCodepoint (.int expectedKeycode) (.int expectedModifier)

/-- `matchesRawBackspace`. -/
def matchesRawBackspace (session : Session) (data : List ℕ) (expectedModifier : ℕ) : Bool :=
  if data = [0x7f] then expectedModifier = 0
  else if data ≠ [0x08] then false
  else if session.windowsTerminal then expectedModifier = CTRL
  else expectedModifier = 0

/-! ### Key ids -/

/-- What `parseKeyId` finds in a key id. -/
structure ParsedKeyId where
  key : List ℕ
  ctrl : Bool
  shift : Bool
  alt : Bool
  super : Bool

/-- The lower case of an ASCII character. -/
def toLowerCase (c : ℕ) : ℕ := if 0x41 ≤ c ∧ c ≤ 0x5a then c + 0x20 else c

/-- `parseKeyId`. Key ids are ASCII. -/
def parseKeyId (keyId : List ℕ) : Option ParsedKeyId :=
  let parts := (keyId.map toLowerCase).splitOn 0x2b
  let key := parts.getLastD []
  if key = [] then none
  else
    some {
      key := key
      ctrl := parts.contains (ascii "ctrl")
      shift := parts.contains (ascii "shift")
      alt := parts.contains (ascii "alt")
      super := parts.contains (ascii "super") }

/-- The modifier of a key id. -/
def ParsedKeyId.modifier (parsed : ParsedKeyId) : ℕ :=
  (if parsed.shift then SHIFT else 0) + (if parsed.alt then ALT else 0) + (if parsed.ctrl then CTRL else 0) +
    (if parsed.super then SUPER else 0)

/-! ### matchesKey -/

/-- The case `escape`. -/
def matchesEscape (data : List ℕ) (modifier : ℕ) : Bool :=
  if modifier ≠ 0 then false
  else data = [ESC] || matchesKittySequence data SpecialKey.escape.codepoint 0 || matchesModifyOtherKeys data SpecialKey.escape.codepoint 0

/-- The case `space`. -/
def matchesSpace (session : Session) (data : List ℕ) (modifier : ℕ) : Bool :=
  if !session.kittyProtocolActive && (modifier = CTRL && data = [0] || modifier = ALT && data = [ESC, 0x20]) then true
  else if modifier = 0 then
    data = [0x20] || matchesKittySequence data SpecialKey.space.codepoint 0 || matchesModifyOtherKeys data SpecialKey.space.codepoint 0
  else matchesKittySequence data SpecialKey.space.codepoint modifier || matchesModifyOtherKeys data SpecialKey.space.codepoint modifier

/-- The case `tab`. -/
def matchesTab (data : List ℕ) (modifier : ℕ) : Bool :=
  if modifier = SHIFT then
    data = ascii "\x1b[Z" || matchesKittySequence data SpecialKey.tab.codepoint SHIFT ||
      matchesModifyOtherKeys data SpecialKey.tab.codepoint SHIFT
  else if modifier = 0 then data = [0x09] || matchesKittySequence data SpecialKey.tab.codepoint 0
  else matchesKittySequence data SpecialKey.tab.codepoint modifier || matchesModifyOtherKeys data SpecialKey.tab.codepoint modifier

/-- `enter` or the `enter` of the numpad in a Kitty sequence. -/
def matchesKittyEnter (data : List ℕ) (modifier : ℕ) : Bool :=
  matchesKittySequence data SpecialKey.enter.codepoint modifier || matchesKittySequence data SpecialKey.kpEnter.codepoint modifier

/-- The case `enter`. -/
def matchesEnter (session : Session) (data : List ℕ) (modifier : ℕ) : Bool :=
  if modifier = SHIFT then
    if matchesKittyEnter data SHIFT then true
    else if matchesModifyOtherKeys data SpecialKey.enter.codepoint SHIFT then true
    else session.kittyProtocolActive && (data = [ESC, 0x0d] || data = [0x0a])
  else if modifier = ALT then
    if matchesKittyEnter data ALT then true
    else if matchesModifyOtherKeys data SpecialKey.enter.codepoint ALT then true
    else !session.kittyProtocolActive && data = [ESC, 0x0d]
  else if modifier = 0 then
    data = [0x0d] || !session.kittyProtocolActive && data = [0x0a] || data = ascii "\x1bOM" || matchesKittyEnter data 0
  else matchesKittyEnter data modifier || matchesModifyOtherKeys data SpecialKey.enter.codepoint modifier

/-- The case `backspace`. -/
def matchesBackspace (session : Session) (data : List ℕ) (modifier : ℕ) : Bool :=
  let reported := matchesKittySequence data SpecialKey.backspace.codepoint modifier ||
    matchesModifyOtherKeys data SpecialKey.backspace.codepoint modifier
  if modifier = ALT then data = [ESC, 0x7f] || data = [ESC, 0x08] || reported
  else if modifier = CTRL then matchesRawBackspace session data CTRL || reported
  else if modifier = 0 then matchesRawBackspace session data 0 || reported
  else reported

/-- The cases `insert`, `delete`, `home`, `end`, `pageup` and `pagedown`. -/
def matchesFunctional (data name : List ℕ) (key : SpecialKey) (modifier : ℕ) : Bool :=
  if modifier = 0 then matchesLegacySequence data (sequencesOf LEGACY_KEY_SEQUENCES name) || matchesKittySequence data key.codepoint 0
  else matchesLegacyModifierSequence data name modifier || matchesKittySequence data key.codepoint modifier

/-- The case `clear`. -/
def matchesClear (data : List ℕ) (modifier : ℕ) : Bool :=
  if modifier = 0 then matchesLegacySequence data (sequencesOf LEGACY_KEY_SEQUENCES (ascii "clear"))
  else matchesLegacyModifierSequence data (ascii "clear") modifier

/-- The cases `up` and `down`. -/
def matchesVertical (data name altSequence : List ℕ) (key : SpecialKey) (modifier : ℕ) : Bool :=
  if modifier = ALT then data = altSequence || matchesKittySequence data key.codepoint ALT
  else matchesFunctional data name key modifier

/-- The cases `left` and `right`, with their sequences for `alt` and `ctrl`. -/
def matchesHorizontal (session : Session) (data name altSequence altLegacy altLetter ctrlSequence : List ℕ) (key : SpecialKey)
    (modifier : ℕ) : Bool :=
  if modifier = ALT then
    data = altSequence || !session.kittyProtocolActive && data = altLegacy || data = altLetter ||
      matchesKittySequence data key.codepoint ALT
  else if modifier = CTRL then
    data = ctrlSequence || matchesLegacyModifierSequence data name CTRL || matchesKittySequence data key.codepoint CTRL
  else matchesFunctional data name key modifier

/-- `f1` to `f12`. -/
def FUNCTION_KEYS : List (List ℕ) := ["f1", "f2", "f3", "f4", "f5", "f6", "f7", "f8", "f9", "f10", "f11", "f12"].map ascii

/-- The `switch` of `matchesKey`; `none` where no case is the key. -/
def matchesNamedKey (session : Session) (data key : List ℕ) (modifier : ℕ) : Option Bool :=
  if key = ascii "escape" ∨ key = ascii "esc" then some (matchesEscape data modifier)
  else if key = ascii "space" then some (matchesSpace session data modifier)
  else if key = ascii "tab" then some (matchesTab data modifier)
  else if key = ascii "enter" ∨ key = ascii "return" then some (matchesEnter session data modifier)
  else if key = ascii "backspace" then some (matchesBackspace session data modifier)
  else if key = ascii "insert" then some (matchesFunctional data (ascii "insert") .insert modifier)
  else if key = ascii "delete" then some (matchesFunctional data (ascii "delete") .delete modifier)
  else if key = ascii "clear" then some (matchesClear data modifier)
  else if key = ascii "home" then some (matchesFunctional data (ascii "home") .home modifier)
  else if key = ascii "end" then some (matchesFunctional data (ascii "end") .end_ modifier)
  else if key = ascii "pageup" then some (matchesFunctional data (ascii "pageUp") .pageUp modifier)
  else if key = ascii "pagedown" then some (matchesFunctional data (ascii "pageDown") .pageDown modifier)
  else if key = ascii "up" then some (matchesVertical data (ascii "up") (ascii "\x1bp") .up modifier)
  else if key = ascii "down" then some (matchesVertical data (ascii "down") (ascii "\x1bn") .down modifier)
  else if key = ascii "left" then
    some (matchesHorizontal session data (ascii "left") (ascii "\x1b[1;3D") (ascii "\x1bB") (ascii "\x1bb") (ascii "\x1b[1;5D") .left
      modifier)
  else if key = ascii "right" then
    some (matchesHorizontal session data (ascii "right") (ascii "\x1b[1;3C") (ascii "\x1bF") (ascii "\x1bf") (ascii "\x1b[1;5C") .right
      modifier)
  else if key ∈ FUNCTION_KEYS then
    some (if modifier ≠ 0 then false else matchesLegacySequence data (sequencesOf LEGACY_KEY_SEQUENCES key))
  else none

/-- A letter from `a` to `z`. -/
def isLetter (c : ℕ) : Bool := 0x61 ≤ c && c ≤ 0x7a

/-- `rawCtrlChar`, of a key in lower case. -/
def rawCtrlChar (c : ℕ) : Option ℕ :=
  if isLetter c || c = 0x5b || c = 0x5c || c = 0x5d || c = 0x5f then some (c &&& 0x1f) else if c = 0x2d then some 31 else none

/-- A single letter, digit or symbol. -/
def matchesCharacter (session : Session) (data : List ℕ) (c : ℕ) (modifier : ℕ) : Bool :=
  let reported := matchesKittySequence data c modifier || matchesPrintableModifyOtherKeys data c modifier
  if modifier = CTRL + ALT && !session.kittyProtocolActive && (rawCtrlChar c).any (data = [ESC, ·]) then true
  else if modifier = ALT && !session.kittyProtocolActive && (isLetter c || isDigit c || c = 0x2f) && data = [ESC, c] then true
  else if modifier = CTRL then (rawCtrlChar c).any (data = [·]) || reported
  else if modifier = SHIFT then isLetter c && data = [c - 0x20] || reported
  else if modifier ≠ 0 then reported
  else data = [c] || matchesKittySequence data c 0

/-- `matchesKey`. -/
def matchesKey (session : Session) (data keyId : List ℕ) : Bool :=
  match parseKeyId keyId with
  | none => false
  | some parsed =>
    match matchesNamedKey session data parsed.key parsed.modifier with
    | some matched => matched
    | none =>
      match parsed.key with
      | [c] => if isLetter c || isDigit c || SYMBOL_KEYS.contains c then matchesCharacter session data c parsed.modifier else false
      | _ => false

/-! ### parseKey -/

/-- What `parseKey` returns: nothing, a key id, or what every object has under a name. -/
inductive Parsed where
  | undefined
  | keyId (id : List ℕ)
  | inherited
  deriving DecidableEq

/-- The names of the modifiers. -/
def modifierNames (modifier : ℕ) : List (List ℕ) :=
  (if modifier &&& SHIFT ≠ 0 then [ascii "shift"] else []) ++ (if modifier &&& CTRL ≠ 0 then [ascii "ctrl"] else []) ++
    (if modifier &&& ALT ≠ 0 then [ascii "alt"] else []) ++ (if modifier &&& SUPER ≠ 0 then [ascii "super"] else [])

/-- `formatKeyNameWithModifiers`. -/
def formatKeyNameWithModifiers (keyName : List ℕ) (modifier : Num) : Option (List ℕ) :=
  let effectiveMod := effectiveModifier modifier
  if effectiveMod &&& 0xfffffff0 ≠ 0 then none else some ([0x2b].intercalate (modifierNames effectiveMod ++ [keyName]))

/-- The special keys that `formatParsedKey` names, in its order. -/
def KEY_NAMES : List (SpecialKey × List ℕ) :=
  [(.escape, ascii "escape"), (.tab, ascii "tab"), (.enter, ascii "enter"), (.kpEnter, ascii "enter"), (.space, ascii "space"),
    (.backspace, ascii "backspace"), (.delete, ascii "delete"), (.insert, ascii "insert"), (.home, ascii "home"),
    (.end_, ascii "end"), (.pageUp, ascii "pageUp"), (.pageDown, ascii "pageDown"), (.up, ascii "up"), (.down, ascii "down"),
    (.left, ascii "left"), (.right, ascii "right")]

/-- The key name of a code point. -/
def keyNameOf (codepoint : Num) : Option (List ℕ) :=
  match KEY_NAMES.find? fun entry => codepoint = .int entry.1.codepoint with
  | some entry => some entry.2
  | none =>
    if codepoint.between 48 57 || codepoint.between 97 122 || SYMBOL_KEYS.contains (fromCharCode codepoint) then
      some [fromCharCode codepoint]
    else none

/-- The code point that a sequence stands for: its own one if that is a known key, or the one of the base layout. -/
def effectiveCodepoint (codepoint modifier : Num) (baseLayoutKey : Option Num) : Num :=
  let identityCodepoint := normalizeShiftedLetterIdentityCodepoint (normalizeKittyFunctionalCodepoint codepoint) modifier
  if identityCodepoint.between 97 122 || identityCodepoint.between 48 57 || SYMBOL_KEYS.contains (fromCharCode identityCodepoint) then
    identityCodepoint
  else baseLayoutKey.getD identityCodepoint

/-- `formatParsedKey`. -/
def formatParsedKey (codepoint modifier : Num) (baseLayoutKey : Option Num) : Option (List ℕ) :=
  (keyNameOf (effectiveCodepoint codepoint modifier baseLayoutKey)).bind (formatKeyNameWithModifiers · modifier)

/-- What `parseKey` compares the data with, up to `alt+right`. -/
def firstKeys (session : Session) : List (List ℕ × List ℕ) :=
  [([ESC], ascii "escape"), ([0x1c], ascii "ctrl+\\"), ([0x1d], ascii "ctrl+]"), ([0x1f], ascii "ctrl+-"),
    ([ESC, ESC], ascii "ctrl+alt+["), ([ESC, 0x1c], ascii "ctrl+alt+\\"), ([ESC, 0x1d], ascii "ctrl+alt+]"),
    ([ESC, 0x1f], ascii "ctrl+alt+-"), ([0x09], ascii "tab"), ([0x0d], ascii "enter")] ++
  (if session.kittyProtocolActive then [] else [([0x0a], ascii "enter")]) ++
  [(ascii "\x1bOM", ascii "enter"), ([0], ascii "ctrl+space"), ([0x20], ascii "space"), ([0x7f], ascii "backspace"),
    ([0x08], if session.windowsTerminal then ascii "ctrl+backspace" else ascii "backspace"), (ascii "\x1b[Z", ascii "shift+tab")] ++
  (if session.kittyProtocolActive then [] else [([ESC, 0x0d], ascii "alt+enter"), ([ESC, 0x20], ascii "alt+space")]) ++
  [([ESC, 0x7f], ascii "alt+backspace"), ([ESC, 0x08], ascii "alt+backspace")] ++
  (if session.kittyProtocolActive then [] else [(ascii "\x1bB", ascii "alt+left"), (ascii "\x1bF", ascii "alt+right")])

/-- A key behind an escape character. -/
def altKey (code : ℕ) : Option (List ℕ) :=
  if 1 ≤ code ∧ code ≤ 26 then some (ascii "ctrl+alt+" ++ [code + 96])
  else if isLetter code || isDigit code || code = 47 then some (ascii "alt+" ++ [code])
  else none

/-- What `parseKey` compares the data with after that. -/
def lastKeys : List (List ℕ × List ℕ) :=
  [("\x1b[A", "up"), ("\x1b[B", "down"), ("\x1b[C", "right"), ("\x1b[D", "left"), ("\x1b[H", "home"), ("\x1bOH", "home"),
    ("\x1b[F", "end"), ("\x1bOF", "end"), ("\x1b[3~", "delete"), ("\x1b[5~", "pageUp"), ("\x1b[6~", "pageDown")].map fun entry =>
      (ascii entry.1, ascii entry.2)

/-- A single character. -/
def rawKey (code : ℕ) : Option (List ℕ) :=
  if 1 ≤ code ∧ code ≤ 26 then some (ascii "ctrl+" ++ [code + 96]) else if 32 ≤ code ∧ code ≤ 126 then some [code] else none

/-- A key from what is written behind an escape character, or as a single character. -/
def shortKey (session : Session) : List ℕ → Option (List ℕ)
  | [0x1b, code] => if session.kittyProtocolActive then none else altKey code
  | _ => none

/-- The legacy sequences of `parseKey`. -/
def parseLegacyKey (session : Session) (data : List ℕ) : Parsed :=
  if session.kittyProtocolActive ∧ (data = [ESC, 0x0d] ∨ data = [0x0a]) then .keyId (ascii "shift+enter")
  else if data ∈ INHERITED_NAMES then .inherited
  else
    match LEGACY_SEQUENCE_KEY_IDS.lookup data <|> (firstKeys session).lookup data <|> shortKey session data <|>
        lastKeys.lookup data <|> (match data with | [code] => rawKey code | _ => none) with
    | some id => .keyId id
    | none => .undefined

/-- `parseKey`. -/
def parseKey (session : Session) (data : List ℕ) : Parsed :=
  match parseKittySequence data with
  | some kitty => ((formatParsedKey kitty.codepoint kitty.modifier kitty.baseLayoutKey).map Parsed.keyId).getD .undefined
  | none =>
    match parseModifyOtherKeysSequence data with
    | some parsed => ((formatParsedKey parsed.codepoint parsed.modifier none).map Parsed.keyId).getD .undefined
    | none => parseLegacyKey session data

end Trek.Keys
