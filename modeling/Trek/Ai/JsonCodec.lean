/-
# JSON texts and their values

`JSON.stringify` writes a value as a text and `JSON.parse` reads it back. The reader goes over the text once, character
by character, with what is open around its place on a stack. A string is read as UTF-16 code units; units that make up no
text, half a surrogate pair, are not read. The text of a number is left to the language: a number that is read from some
literal is written as a literal of that number, and a literal beyond the range of the numbers has none.
-/
import Mathlib.Data.List.Nodup
import Mathlib.Data.List.TakeWhile
import Trek.Lib.Utf16
import Trek.Messages

namespace Trek.JsonCodec

/-! ### Numbers -/

/-- `[+-]?`, taken off. -/
def dropSign : List Char → List Char
  | '+' :: rest | '-' :: rest => rest
  | rest => rest

/-- `[eE][+-]?[0-9]+`, or nothing. -/
def isExponent : List Char → Bool
  | [] => true
  | e :: rest => (e = 'e' || e = 'E') && dropSign rest ≠ [] && (dropSign rest).all Char.isDigit

/-- `\.[0-9]+` or nothing, and an exponent. -/
def isFraction : List Char → Bool
  | '.' :: d :: rest => d.isDigit && isExponent (rest.dropWhile Char.isDigit)
  | literal => isExponent literal

/-- `0` or digits that start with none, and a fraction. -/
def isUnsigned : List Char → Bool
  | [] => false
  | d :: rest => if d = '0' then isFraction rest else d.isDigit && isFraction (rest.dropWhile Char.isDigit)

/-- The literals of numbers. -/
def isNumber : List Char → Bool
  | '-' :: literal => isUnsigned literal
  | literal => isUnsigned literal

/-- The characters of such literals. -/
def isNumberChar (c : Char) : Bool := c.isDigit || c ∈ ['-', '+', '.', 'e', 'E']

/-- The numbers as the language reads and writes them. Zero has no sign here: `JSON.stringify` writes both alike. -/
structure NumberText where
  read : List Char → Option ℚ
  write : ℚ → List Char
  read_one : read ['1'] = some 1
  isNumber_write : ∀ {literal : List Char} {q : ℚ}, read literal = some q → isNumber (write q)
  read_write : ∀ {literal : List Char} {q : ℚ}, read literal = some q → read (write q) = some q

/-! ### Writing -/

def QUOTE : Char := Char.ofNat 0x22

def BACKSLASH : Char := Char.ofNat 0x5c

/-- The code units that have an escape of their own. -/
def SHORT_ESCAPES : List (ℕ × Char) :=
  [(0x22, QUOTE), (0x5c, BACKSLASH), (0x08, 'b'), (0x09, 't'), (0x0a, 'n'), (0x0c, 'f'), (0x0d, 'r')]

def hexDigit (n : ℕ) : Char := "0123456789abcdef".toList.getD n '0'

/-- A character of a string. -/
def escapeChar (c : Char) : List Char :=
  match SHORT_ESCAPES.lookup c.toNat with
  | some e => [BACKSLASH, e]
  | none =>
    if c.toNat < 0x20 then [BACKSLASH, 'u', '0', '0', hexDigit (c.toNat / 16), hexDigit (c.toNat % 16)] else [c]

def writeString (s : String) : List Char := QUOTE :: (s.toList.flatMap escapeChar ++ [QUOTE])

variable (N : NumberText)

mutual

/-- The text of a value. -/
def write : Json → List Char
  | .null => ['n', 'u', 'l', 'l']
  | .bool true => ['t', 'r', 'u', 'e']
  | .bool false => ['f', 'a', 'l', 's', 'e']
  | .num q => N.write q
  | .str s => writeString s
  | .arr xs => '[' :: (writeElements [] xs ++ [']'])
  | .obj fields => '\x7b' :: (writeMembers [] fields ++ ['\x7d'])

/-- The elements of an array; what stands before the first one is given. -/
def writeElements (before : List Char) : List Json → List Char
  | [] => []
  | x :: xs => before ++ write x ++ writeElements [','] xs

/-- The members of an object. -/
def writeMembers (before : List Char) : List (String × Json) → List Char
  | [] => []
  | (key, x) :: fields => before ++ writeString key ++ ':' :: write x ++ writeMembers [','] fields

end

/-- `JSON.stringify(value)`. -/
def stringify (value : Json) : String := String.ofList (write N value)

/-! ### Reading -/

/-- White space between the tokens. -/
def isSpace (c : Char) : Bool := c ∈ [' ', '\t', '\n', '\r']

/-- Where a string is read: at a character, after a backslash, or in the digits of an escape by number. -/
inductive Escape
  | plain
  | backslash
  | unicode (code digits : ℕ)
  deriving DecidableEq

/-- The units that escapes stand for. -/
def unescape (c : Char) : Option ℕ :=
  [(QUOTE, 0x22), (BACKSLASH, 0x5c), ('/', 0x2f), ('b', 0x08), ('t', 0x09), ('n', 0x0a), ('f', 0x0c), ('r', 0x0d)].lookup c

def hexValue (c : Char) : Option ℕ :=
  if c.isDigit then some (c.toNat - 0x30)
  else if 'a' ≤ c ∧ c ≤ 'f' then some (c.toNat - 0x57)
  else if 'A' ≤ c ∧ c ≤ 'F' then some (c.toNat - 0x37)
  else none

/-- The code units that are read with a character of a string. -/
def readUnit : Escape → Char → Option (List ℕ × Escape)
  | .plain, c =>
    if c = BACKSLASH then some ([], .backslash)
    else if c = QUOTE ∨ c.toNat < 0x20 then none
    else some (utf16Char c, .plain)
  | .backslash, c => if c = 'u' then some ([], .unicode 0 0) else (unescape c).map fun unit => ([unit], .plain)
  | .unicode code digits, c =>
    (hexValue c).map fun d =>
      if digits = 3 then ([code * 16 + d], .plain) else ([], .unicode (code * 16 + d) (digits + 1))

/-- The text of code units; none if they hold half a surrogate pair. -/
def textOf (units : List ℕ) : Option String :=
  let text := utf16ToString units
  if utf16 text = units then some (String.ofList text) else none

/-- `object[key] = value`. -/
def setField (key : String) (value : Json) : List (String × Json) → List (String × Json)
  | [] => [(key, value)]
  | (name, old) :: fields => if name = key then (name, value) :: fields else (name, old) :: setField key value fields

/-- What is open around a value. -/
inductive Frame
  | array (before : List Json)
  | member (before : List (String × Json)) (key : String)

/-- What a string is read for. -/
inductive Purpose
  | value
  | key (before : List (String × Json))

/-- What may come next. -/
inductive Mode
  | value
  | firstElement
  | firstKey
  | key (before : List (String × Json))
  | colon (before : List (String × Json)) (key : String)
  | afterElement (before : List Json)
  | afterMember (before : List (String × Json))
  | done (value : Json)
  | string (purpose : Purpose) (units : List ℕ) (escape : Escape)
  | number (literal : List Char)
  | word (rest : List Char) (value : Json)

/-- The variables of the reader. -/
structure State where
  mode : Mode
  stack : List Frame

/-- A value has been read. -/
def deliver (value : Json) : List Frame → State
  | [] => ⟨.done value, []⟩
  | .array before :: stack => ⟨.afterElement (before ++ [value]), stack⟩
  | .member before key :: stack => ⟨.afterMember (setField key value before), stack⟩

/-- The string of some code units has been read. -/
def deliverString (stack : List Frame) : Purpose → String → State
  | .value, s => deliver (.str s) stack
  | .key before, s => ⟨.colon before s, stack⟩

/-- The first character of a value. -/
def startValue (stack : List Frame) (c : Char) : Option State :=
  if c = '[' then some ⟨.firstElement, stack⟩
  else if c = '\x7b' then some ⟨.firstKey, stack⟩
  else if c = QUOTE then some ⟨.string .value [] .plain, stack⟩
  else if c = 'n' then some ⟨.word ['u', 'l', 'l'] .null, stack⟩
  else if c = 't' then some ⟨.word ['r', 'u', 'e'] (.bool true), stack⟩
  else if c = 'f' then some ⟨.word ['a', 'l', 's', 'e'] (.bool false), stack⟩
  else if isNumberChar c then some ⟨.number [c], stack⟩
  else none

/-- The first character of a key. -/
def startKey (before : List (String × Json)) (stack : List Frame) (c : Char) : Option State :=
  if c = QUOTE then some ⟨.string (.key before) [] .plain, stack⟩ else none

/-- Tokens that white space may not stand in. -/
def Mode.within : Mode → Bool
  | .string _ _ _ | .number _ | .word _ _ => true
  | _ => false

/-- A character that does not go on with a number. -/
def stepAt (s : State) (c : Char) : Option State :=
  if isSpace c ∧ s.mode.within = false then some s
  else match s.mode with
  | .value => startValue s.stack c
  | .firstElement => if c = ']' then some (deliver (.arr []) s.stack) else startValue (.array [] :: s.stack) c
  | .firstKey => if c = '\x7d' then some (deliver (.obj []) s.stack) else startKey [] s.stack c
  | .key before => startKey before s.stack c
  | .colon before key => if c = ':' then some ⟨.value, .member before key :: s.stack⟩ else none
  | .afterElement before =>
    if c = ',' then some ⟨.value, .array before :: s.stack⟩
    else if c = ']' then some (deliver (.arr before) s.stack)
    else none
  | .afterMember before =>
    if c = ',' then some ⟨.key before, s.stack⟩
    else if c = '\x7d' then some (deliver (.obj before) s.stack)
    else none
  | .string purpose units escape =>
    if escape = .plain ∧ c = QUOTE then (textOf units).map (deliverString s.stack purpose)
    else (readUnit escape c).map fun read => ⟨.string purpose (units ++ read.1) read.2, s.stack⟩
  | .word (d :: rest) value =>
    if c = d then some (if rest = [] then deliver value s.stack else ⟨.word rest value, s.stack⟩) else none
  | .word [] _ | .number _ | .done _ => none

/-- The number that is read, if one is, has come to its end. -/
def settle (s : State) : Option State :=
  match s.mode with
  | .number literal => if isNumber literal then (N.read literal).map fun q => deliver (.num q) s.stack else none
  | _ => some s

/-- A character of the text. -/
def step (s : State) (c : Char) : Option State :=
  match s.mode with
  | .number literal =>
    if isNumberChar c then some ⟨.number (literal ++ [c]), s.stack⟩ else (settle N s).bind (stepAt · c)
  | _ => stepAt s c

/-- Characters of the text, from a place on. -/
def run (s : State) (text : List Char) : Option State := text.foldlM (step N) s

/-- The value, where the text is over. -/
def result (s : State) : Option Json :=
  match s.mode with
  | .done value => some value
  | _ => none

/-- `JSON.parse(text)`; none where it throws. -/
def parse (text : String) : Option Json := ((run N ⟨.value, []⟩ text.toList).bind (settle N)).bind result

/-! ### Literals of numbers -/

theorem mem_dropSign {c : Char} {literal : List Char} (h : c ∈ literal) : c = '+' ∨ c = '-' ∨ c ∈ dropSign literal := by
  unfold dropSign
  split
  · exact (List.mem_cons.mp h).imp_right .inr
  · exact .inr (List.mem_cons.mp h)
  · exact .inr (.inr h)

theorem isNumberChar_of_isDigit {c : Char} (h : c.isDigit = true) : isNumberChar c = true := by
  rw [isNumberChar, h, Bool.true_or]

theorem forall_of_dropWhile {literal : List Char} (h : ∀ c ∈ literal.dropWhile Char.isDigit, isNumberChar c = true) :
    ∀ c ∈ literal, isNumberChar c = true := by
  intro c hc
  rw [← @List.takeWhile_append_dropWhile _ Char.isDigit literal] at hc
  rcases List.mem_append.mp hc with hdigit | hrest
  · exact isNumberChar_of_isDigit (List.mem_takeWhile_imp hdigit)
  · exact h c hrest

theorem forall_of_isExponent {literal : List Char} (h : isExponent literal = true) : ∀ c ∈ literal, isNumberChar c = true := by
  cases literal with
  | nil => exact fun c hc => absurd hc List.not_mem_nil
  | cons e rest =>
    simp only [isExponent, Bool.and_eq_true, Bool.or_eq_true, decide_eq_true_eq, List.all_eq_true] at h
    obtain ⟨⟨he, -⟩, hdigits⟩ := h
    refine List.forall_mem_cons.mpr ⟨?_, fun c hc => ?_⟩
    · rcases he with rfl | rfl <;> decide
    · rcases mem_dropSign hc with rfl | rfl | hdigit
      · decide
      · decide
      · exact isNumberChar_of_isDigit (hdigits c hdigit)

theorem forall_of_isFraction {literal : List Char} (h : isFraction literal = true) : ∀ c ∈ literal, isNumberChar c = true := by
  unfold isFraction at h
  split at h
  · next d rest =>
    rw [Bool.and_eq_true] at h
    exact List.forall_mem_cons.mpr ⟨by decide, List.forall_mem_cons.mpr
      ⟨isNumberChar_of_isDigit h.1, forall_of_dropWhile (forall_of_isExponent h.2)⟩⟩
  · exact forall_of_isExponent h

theorem forall_of_isUnsigned {literal : List Char} (h : isUnsigned literal = true) : ∀ c ∈ literal, isNumberChar c = true := by
  cases literal with
  | nil => exact fun c hc => absurd hc List.not_mem_nil
  | cons d rest =>
    rw [isUnsigned] at h
    split at h
    · next hzero => exact List.forall_mem_cons.mpr ⟨hzero ▸ by decide, forall_of_isFraction h⟩
    · rw [Bool.and_eq_true] at h
      exact List.forall_mem_cons.mpr ⟨isNumberChar_of_isDigit h.1, forall_of_dropWhile (forall_of_isFraction h.2)⟩

/-- A literal of a number is not empty, and has no other characters. -/
theorem isNumber_spec {literal : List Char} (h : isNumber literal = true) :
    literal ≠ [] ∧ ∀ c ∈ literal, isNumberChar c = true := by
  unfold isNumber at h
  split at h
  · exact ⟨List.cons_ne_nil _ _, List.forall_mem_cons.mpr ⟨by decide, forall_of_isUnsigned h⟩⟩
  · refine ⟨?_, forall_of_isUnsigned h⟩
    rintro rfl
    cases h

/-! ### Strings -/

/-- The code units that are read with characters of a string. -/
def readUnits : Escape → List Char → Option (List ℕ × Escape)
  | escape, [] => some ([], escape)
  | escape, c :: cs =>
    (readUnit escape c).bind fun first => (readUnits first.2 cs).map fun rest => (first.1 ++ rest.1, rest.2)

theorem readUnits_append : ∀ (cs cs' : List Char) {escape escape' : Escape} {units : List ℕ},
    readUnits escape cs = some (units, escape') →
      readUnits escape (cs ++ cs') = (readUnits escape' cs').map fun rest => (units ++ rest.1, rest.2)
  | [], cs', escape, escape', units, h => by
    obtain ⟨rfl, rfl⟩ := Prod.mk.inj (Option.some.inj h)
    simp
  | c :: cs, cs', escape, escape', units, h => by
    rw [readUnits, Option.bind_eq_some_iff] at h
    obtain ⟨first, hfirst, h⟩ := h
    rw [Option.map_eq_some_iff] at h
    obtain ⟨⟨rest, last⟩, hrest, heq⟩ := h
    obtain ⟨rfl, rfl⟩ := Prod.mk.inj heq
    rw [List.cons_append, readUnits, hfirst, Option.bind_some, readUnits_append cs cs' hrest, Option.map_map]
    simp only [Function.comp_def, List.append_assoc]

/-- What is written for a character is read as its code units. -/
theorem readUnits_escapeChar (c : Char) : readUnits .plain (escapeChar c) = some (utf16Char c, .plain) := by
  by_cases hc : c.toNat < 0x80
  · have hall : ∀ n < 0x80, readUnits .plain (escapeChar (Char.ofNat n)) = some (utf16Char (Char.ofNat n), .plain) := by
      decide +kernel
    have := hall c.toNat hc
    rwa [Char.ofNat_toNat] at this
  · have hlookup : SHORT_ESCAPES.lookup c.toNat = none := by
      rw [List.lookup_eq_none_iff]
      intro entry hentry
      have hkeys : ∀ entry ∈ SHORT_ESCAPES, entry.1 < 0x80 := by decide
      have := hkeys entry hentry
      exact bne_iff_ne.mpr (by omega)
    have hplain : c ≠ BACKSLASH ∧ c ≠ QUOTE :=
      ⟨fun heq => hc (heq ▸ by decide), fun heq => hc (heq ▸ by decide)⟩
    rw [escapeChar, hlookup]
    dsimp only
    rw [if_neg (by omega), readUnits, readUnit, if_neg hplain.1, if_neg (by rintro (h | h) <;> [exact hplain.2 h; omega])]
    simp [readUnits]

theorem readUnits_escape : ∀ cs : List Char, readUnits .plain (cs.flatMap escapeChar) = some (utf16 cs, .plain)
  | [] => rfl
  | c :: cs => by
    rw [List.flatMap_cons, readUnits_append _ _ (readUnits_escapeChar c), readUnits_escape cs, utf16_cons]
    rfl

theorem textOf_utf16 (s : String) : textOf (utf16 s.toList) = some s := by
  rw [textOf, utf16ToString_utf16, if_pos rfl, String.ofList_toList]

/-! ### Runs -/

variable {N}

theorem run_append (s : State) (text text' : List Char) :
    run N s (text ++ text') = (run N s text).bind (run N · text') := List.foldlM_append

theorem run_cons (s : State) (c : Char) (text : List Char) : run N s (c :: text) = (step N s c).bind (run N · text) :=
  List.foldlM_cons

/-- Behind a character that no number goes on with, a number has come to its end. -/
theorem step_of_not_isNumberChar {c : Char} (hc : isNumberChar c = false) (s : State) :
    step N s c = (settle N s).bind (stepAt · c) := by
  obtain ⟨mode, stack⟩ := s
  cases mode with
  | number literal => exact if_neg (by rw [hc]; exact Bool.false_ne_true)
  | _ => rfl

theorem settle_deliver (value : Json) (stack : List Frame) : settle N (deliver value stack) = some (deliver value stack) := by
  rcases stack with _ | ⟨⟨before⟩ | ⟨before, key⟩, stack⟩ <;> rfl

theorem run_number (stack : List Frame) : ∀ (rest literal : List Char), (∀ c ∈ rest, isNumberChar c = true) →
    run N ⟨.number literal, stack⟩ rest = some ⟨.number (literal ++ rest), stack⟩
  | [], literal, _ => by rw [List.append_nil]; rfl
  | c :: rest, literal, h => by
    have hstep : step N ⟨.number literal, stack⟩ c = some ⟨.number (literal ++ [c]), stack⟩ := if_pos (h c List.mem_cons_self)
    rw [run_cons, hstep, Option.bind_some,
      run_number stack rest _ fun c hc => h c (List.mem_cons_of_mem _ hc), List.append_assoc]
    rfl

theorem run_string (purpose : Purpose) (stack : List Frame) : ∀ (cs : List Char) (before : List ℕ)
    {units : List ℕ} {escape escape' : Escape}, readUnits escape cs = some (units, escape') →
      run N ⟨.string purpose before escape, stack⟩ cs = some ⟨.string purpose (before ++ units) escape', stack⟩
  | [], before, units, escape, escape', h => by
    obtain ⟨rfl, rfl⟩ := Prod.mk.inj (Option.some.inj h)
    rw [List.append_nil]
    rfl
  | c :: cs, before, units, escape, escape', h => by
    rw [readUnits, Option.bind_eq_some_iff] at h
    obtain ⟨first, hfirst, h⟩ := h
    rw [Option.map_eq_some_iff] at h
    obtain ⟨⟨rest, last⟩, hrest, heq⟩ := h
    obtain ⟨rfl, rfl⟩ := Prod.mk.inj heq
    -- a quote that ends the string is no character of it
    have hopen : ¬ (escape = .plain ∧ c = QUOTE) := by
      rintro ⟨rfl, rfl⟩
      cases hfirst
    have hstep : step N ⟨.string purpose before escape, stack⟩ c =
        some ⟨.string purpose (before ++ first.1) first.2, stack⟩ := by
      rw [step, stepAt, if_neg (by simp [Mode.within])]
      dsimp only
      rw [if_neg hopen, hfirst]
      rfl
    rw [run_cons, hstep, Option.bind_some, run_string purpose stack cs _ hrest, List.append_assoc]

/-- A string is read back. -/
theorem run_writeString (purpose : Purpose) (stack : List Frame) (s : String) :
    run N ⟨.string purpose [] .plain, stack⟩ (s.toList.flatMap escapeChar ++ [QUOTE]) = some (deliverString stack purpose s) := by
  rw [run_append, run_string purpose stack _ [] (readUnits_escape s.toList), Option.bind_some, run_cons, step, stepAt,
    if_neg (by simp [Mode.within])]
  dsimp only
  rw [if_pos ⟨rfl, rfl⟩, List.nil_append, textOf_utf16]
  rfl

theorem startValue_number (stack : List Frame) {c : Char} (hc : isNumberChar c = true) :
    startValue stack c = some ⟨.number [c], stack⟩ := by
  have hne : ∀ d : Char, isNumberChar d = false → c ≠ d := fun d hd heq => by
    rw [heq, hd] at hc
    exact Bool.noConfusion hc
  unfold startValue
  rw [if_neg (hne '[' (by decide)), if_neg (hne '\x7b' (by decide)), if_neg (hne QUOTE (by decide)), if_neg (hne 'n' (by decide)),
    if_neg (hne 't' (by decide)), if_neg (hne 'f' (by decide)), if_pos hc]

theorem stepAt_value (stack : List Frame) (c : Char) :
    stepAt ⟨.value, stack⟩ c = if isSpace c then some ⟨.value, stack⟩ else startValue stack c := by
  by_cases h : isSpace c = true <;> simp [stepAt, Mode.within, h]

/-- A value starts with a printable character. -/
theorem startValue_bounds {stack : List Frame} {c : Char} {s : State} (h : startValue stack c = some s) :
    0x21 < c.toNat ∧ c.toNat < 0x7f := by
  unfold startValue at h
  split_ifs at h with h₁ h₂ h₃ h₄ h₅ h₆ hnumber
  · exact h₁ ▸ by decide
  · exact h₂ ▸ by decide
  · exact h₃ ▸ by decide
  · exact h₄ ▸ by decide
  · exact h₅ ▸ by decide
  · exact h₆ ▸ by decide
  · rw [isNumberChar, Bool.or_eq_true, decide_eq_true_eq] at hnumber
    rcases hnumber with hdigit | hmem
    · simp only [Char.isDigit, Bool.and_eq_true, decide_eq_true_eq, ge_iff_le, UInt32.le_iff_toNat_le] at hdigit
      exact ⟨Nat.lt_of_lt_of_le (by decide) hdigit.1, Nat.lt_of_le_of_lt hdigit.2 (by decide)⟩
    · simp only [List.mem_cons, List.not_mem_nil, or_false] at hmem
      rcases hmem with rfl | rfl | rfl | rfl | rfl <;> decide

/-! ### What is written is read back -/

variable (N)

mutual

/-- A value of `JSON.parse`: its numbers are read from literals, and no key of an object occurs twice. -/
def Held : Json → Prop
  | .null | .bool _ | .str _ => True
  | .num q => ∃ literal, N.read literal = some q
  | .arr xs => HeldElements xs
  | .obj fields => (fields.map Prod.fst).Nodup ∧ HeldMembers fields

def HeldElements : List Json → Prop
  | [] => True
  | x :: xs => Held x ∧ HeldElements xs

def HeldMembers : List (String × Json) → Prop
  | [] => True
  | (_, x) :: fields => Held x ∧ HeldMembers fields

end

variable {N}

theorem heldElements_iff : ∀ {xs : List Json}, HeldElements N xs ↔ ∀ x ∈ xs, Held N x
  | [] => by simp [HeldElements]
  | x :: xs => by rw [HeldElements, heldElements_iff, List.forall_mem_cons]

theorem heldMembers_iff : ∀ {fields : List (String × Json)}, HeldMembers N fields ↔ ∀ field ∈ fields, Held N field.2
  | [] => by simp [HeldMembers]
  | (key, x) :: fields => by rw [HeldMembers, heldMembers_iff, List.forall_mem_cons]

theorem setField_of_notMem {key : String} (value : Json) : ∀ {fields : List (String × Json)}, key ∉ fields.map Prod.fst →
    setField key value fields = fields ++ [(key, value)]
  | [], _ => rfl
  | (name, old) :: fields, h => by
    obtain ⟨hname, hrest⟩ := not_or.mp (List.mem_cons.not.mp h)
    rw [setField, if_neg (Ne.symm hname), setField_of_notMem value hrest, List.cons_append]

/-- What a value starts with. -/
theorem write_head {value : Json} (h : Held N value) :
    ∃ c rest, write N value = c :: rest ∧ c ≠ ']' ∧ isSpace c = false := by
  match value, h with
  | .null, _ => exact ⟨'n', _, by rw [write], by decide, by decide⟩
  | .bool true, _ => exact ⟨'t', _, by rw [write], by decide, by decide⟩
  | .bool false, _ => exact ⟨'f', _, by rw [write], by decide, by decide⟩
  | .str s, _ => exact ⟨QUOTE, _, by rw [write, writeString], by decide, by decide⟩
  | .arr xs, _ => exact ⟨'[', _, by rw [write], by decide, by decide⟩
  | .obj fields, _ => exact ⟨'\x7b', _, by rw [write], by decide, by decide⟩
  | .num q, h =>
    obtain ⟨literal, hread⟩ := h
    obtain ⟨hne, hchars⟩ := isNumber_spec (N.isNumber_write hread)
    obtain ⟨c, rest, hwrite⟩ := List.exists_cons_of_ne_nil hne
    have hc := hchars c (hwrite ▸ List.mem_cons_self)
    refine ⟨c, rest, by rw [write, hwrite], ?_, ?_⟩
    · rintro rfl
      exact absurd hc (by decide)
    · by_contra hspace
      rw [Bool.not_eq_false, isSpace, decide_eq_true_eq] at hspace
      simp only [List.mem_cons, List.not_mem_nil, or_false] at hspace
      rcases hspace with rfl | rfl | rfl | rfl <;> exact absurd hc (by decide)

/-- A value is the first element of an array as it is any other. -/
theorem run_firstElement (stack : List Frame) {value : Json} (h : Held N value) :
    run N ⟨.firstElement, stack⟩ (write N value) = run N ⟨.value, .array [] :: stack⟩ (write N value) := by
  obtain ⟨c, rest, hwrite, hc, hspace⟩ := write_head h
  have hstep : step N ⟨.firstElement, stack⟩ c = step N ⟨.value, .array [] :: stack⟩ c := by
    simp [step, stepAt, hspace, hc]
  rw [hwrite, run_cons, run_cons, hstep]

/-- The key of a member, as the first one or behind a comma. -/
theorem run_key {s : State} {before : List (String × Json)} {stack : List Frame} (key : String) (rest : List Char)
    (hs : step N s QUOTE = some ⟨.string (.key before) [] .plain, stack⟩) :
    run N s (writeString key ++ ':' :: rest) = run N ⟨.value, .member before key :: stack⟩ rest := by
  rw [writeString, List.cons_append, run_cons, hs, Option.bind_some, run_append, run_writeString, Option.bind_some, run_cons]
  rfl

mutual

/-- What is written for a value is read as that value. -/
theorem run_write : ∀ (value : Json) (stack : List Frame), Held N value →
    ∃ s, run N ⟨.value, stack⟩ (write N value) = some s ∧ settle N s = some (deliver value stack)
  | .null, stack, _ => ⟨_, rfl, settle_deliver _ _⟩
  | .bool true, stack, _ => ⟨_, rfl, settle_deliver _ _⟩
  | .bool false, stack, _ => ⟨_, rfl, settle_deliver _ _⟩
  | .num q, stack, h => by
    obtain ⟨literal, hread⟩ := h
    have hnumber := N.isNumber_write hread
    obtain ⟨hne, hchars⟩ := isNumber_spec hnumber
    obtain ⟨c, rest, hwrite⟩ := List.exists_cons_of_ne_nil hne
    rw [hwrite] at hchars
    have hc := hchars c List.mem_cons_self
    have hspace : isSpace c = false := by
      obtain ⟨c', rest', hwrite', -, hspace⟩ := @write_head N (.num q) ⟨literal, hread⟩
      rw [write, hwrite] at hwrite'
      rw [(List.cons.inj hwrite').1]
      exact hspace
    refine ⟨⟨.number (write N (.num q)), stack⟩, ?_, ?_⟩
    · rw [write, hwrite, run_cons, step, stepAt, if_neg (by simp [hspace])]
      dsimp only
      rw [startValue_number stack hc, Option.bind_some, run_number stack rest _ fun c h => hchars c (List.mem_cons_of_mem _ h)]
      rfl
    · rw [settle]
      dsimp only
      rw [write, if_pos hnumber, N.read_write hread]
      rfl
  | .str s, stack, _ => by
    refine ⟨deliver (.str s) stack, ?_, settle_deliver _ _⟩
    rw [write, writeString, run_cons]
    exact run_writeString .value stack s
  | .arr [], stack, _ => ⟨deliver (.arr []) stack, rfl, settle_deliver _ _⟩
  | .arr (x :: xs), stack, h => by
    obtain ⟨s, hrun, hsettle⟩ := run_write x (.array [] :: stack) h.1
    obtain ⟨s', hrun', hsettle'⟩ := run_elements xs [x] stack s hsettle h.2
    refine ⟨deliver (.arr (x :: xs)) stack, ?_, settle_deliver _ _⟩
    rw [write, writeElements, List.nil_append, run_cons, List.append_assoc]
    show (some (⟨.firstElement, stack⟩ : State)).bind _ = _
    rw [Option.bind_some, run_append, run_firstElement stack h.1, hrun, Option.bind_some, run_append, hrun', Option.bind_some,
      run_cons, step_of_not_isNumberChar (by decide), hsettle']
    rfl
  | .obj [], stack, _ => ⟨deliver (.obj []) stack, rfl, settle_deliver _ _⟩
  | .obj ((key, x) :: fields), stack, h => by
    obtain ⟨s, hrun, hsettle⟩ := run_write x (.member [] key :: stack) h.2.1
    obtain ⟨s', hrun', hsettle'⟩ := run_members fields [(key, x)] stack s hsettle h.1 h.2.2
    refine ⟨deliver (.obj ((key, x) :: fields)) stack, ?_, settle_deliver _ _⟩
    rw [write, writeMembers, List.nil_append, run_cons, List.append_assoc, List.append_assoc]
    show (some (⟨.firstKey, stack⟩ : State)).bind _ = _
    rw [Option.bind_some, List.cons_append, @run_key N ⟨.firstKey, stack⟩ [] stack key _ rfl, run_append, hrun, Option.bind_some,
      run_append, hrun', Option.bind_some, run_cons, step_of_not_isNumberChar (by decide), hsettle']
    rfl

theorem run_elements : ∀ (xs before : List Json) (stack : List Frame) (s : State),
    settle N s = some ⟨.afterElement before, stack⟩ → HeldElements N xs →
      ∃ s', run N s (writeElements N [','] xs) = some s' ∧ settle N s' = some ⟨.afterElement (before ++ xs), stack⟩
  | [], before, stack, s, hs, _ => ⟨s, rfl, by rw [List.append_nil]; exact hs⟩
  | x :: xs, before, stack, s, hs, h => by
    obtain ⟨s₁, hrun, hsettle⟩ := run_write x (.array before :: stack) h.1
    obtain ⟨s₂, hrun', hsettle'⟩ := run_elements xs (before ++ [x]) stack s₁ hsettle h.2
    refine ⟨s₂, ?_, by rw [hsettle', List.append_assoc]; rfl⟩
    rw [writeElements, List.append_assoc, List.cons_append, List.nil_append, run_cons,
      step_of_not_isNumberChar (by decide), hs]
    show (some (⟨.value, .array before :: stack⟩ : State)).bind _ = _
    rw [Option.bind_some, run_append, hrun, Option.bind_some, hrun']

theorem run_members : ∀ (fields before : List (String × Json)) (stack : List Frame) (s : State),
    settle N s = some ⟨.afterMember before, stack⟩ → ((before ++ fields).map Prod.fst).Nodup → HeldMembers N fields →
      ∃ s', run N s (writeMembers N [','] fields) = some s' ∧ settle N s' = some ⟨.afterMember (before ++ fields), stack⟩
  | [], before, stack, s, hs, _, _ => ⟨s, rfl, by rw [List.append_nil]; exact hs⟩
  | (key, x) :: fields, before, stack, s, hs, hnodup, h => by
    obtain ⟨s₁, hrun, hsettle⟩ := run_write x (.member before key :: stack) h.1
    have hkey : key ∉ before.map Prod.fst := by
      rw [List.map_append, List.nodup_append] at hnodup
      exact fun hmem => hnodup.2.2 key hmem key List.mem_cons_self rfl
    rw [deliver, setField_of_notMem x hkey] at hsettle
    have hsplit : before ++ (key, x) :: fields = before ++ [(key, x)] ++ fields := by rw [List.append_assoc]; rfl
    obtain ⟨s₂, hrun', hsettle'⟩ := run_members fields (before ++ [(key, x)]) stack s₁ hsettle (hsplit ▸ hnodup) h.2
    refine ⟨s₂, ?_, by rw [hsettle', hsplit]⟩
    rw [writeMembers, List.append_assoc, List.append_assoc, List.cons_append, List.nil_append, run_cons,
      step_of_not_isNumberChar (by decide), hs]
    show (some (⟨.key before, stack⟩ : State)).bind _ = _
    rw [Option.bind_some, List.cons_append, @run_key N ⟨.key before, stack⟩ before stack key _ rfl, run_append, hrun,
      Option.bind_some, hrun']

end

/-- **`JSON.parse` undoes `JSON.stringify`.** -/
theorem parse_stringify {value : Json} (h : Held N value) : parse N (stringify N value) = some value := by
  obtain ⟨s, hrun, hsettle⟩ := run_write value [] h
  rw [parse, stringify, String.toList_ofList, hrun, Option.bind_some, hsettle]
  rfl

/-- What is written is not empty. -/
theorem stringify_ne_empty {value : Json} (h : Held N value) : stringify N value ≠ "" := by
  obtain ⟨c, rest, hwrite, -⟩ := write_head h
  intro hempty
  have := congrArg String.toList hempty
  rw [stringify, String.toList_ofList, hwrite] at this
  cases this

/-! ### What is read can be written -/

section

variable (N)

def HeldFields (fields : List (String × Json)) : Prop :=
  (fields.map Prod.fst).Nodup ∧ ∀ field ∈ fields, Held N field.2

theorem keys_setField (key : String) (value : Json) : ∀ fields : List (String × Json),
    (setField key value fields).map Prod.fst =
      if key ∈ fields.map Prod.fst then fields.map Prod.fst else fields.map Prod.fst ++ [key]
  | [] => rfl
  | (name, old) :: fields => by
    rw [setField]
    split
    · next hname => rw [List.map_cons, List.map_cons, if_pos (hname ▸ List.mem_cons_self)]
    · next hname =>
      rw [List.map_cons, List.map_cons, keys_setField key value fields]
      by_cases hmem : key ∈ fields.map Prod.fst
      · rw [if_pos hmem, if_pos (List.mem_cons_of_mem _ hmem)]
      · rw [if_neg hmem, if_neg (by rw [List.mem_cons]; exact not_or.mpr ⟨Ne.symm hname, hmem⟩)]
        rfl

theorem mem_setField {key : String} {value : Json} {field : String × Json} : ∀ {fields : List (String × Json)},
    field ∈ setField key value fields → field.2 = value ∨ field ∈ fields
  | [], h => .inl (by rw [List.mem_singleton.mp h])
  | (name, old) :: fields, h => by
    rw [setField] at h
    split at h
    · exact (List.mem_cons.mp h).imp (fun heq => by rw [heq]) (List.mem_cons_of_mem _)
    · rcases List.mem_cons.mp h with rfl | hmem
      · exact .inr List.mem_cons_self
      · exact (mem_setField hmem).imp_right (List.mem_cons_of_mem _)

theorem HeldFields.set {fields : List (String × Json)} (h : HeldFields N fields) (key : String) {value : Json}
    (hvalue : Held N value) : HeldFields N (setField key value fields) := by
  refine ⟨?_, fun field hfield => ?_⟩
  · rw [keys_setField]
    split
    · exact h.1
    · next hkey =>
      rw [List.nodup_append]
      refine ⟨h.1, List.nodup_singleton key, fun a ha b hb hab => hkey ?_⟩
      rw [← List.mem_singleton.mp hb, ← hab]
      exact ha
  · rcases mem_setField hfield with heq | hmem
    · rw [heq]
      exact hvalue
    · exact h.2 field hmem

def Frame.Held : Frame → Prop
  | .array before => ∀ x ∈ before, JsonCodec.Held N x
  | .member before _ => HeldFields N before

def Mode.Held : Mode → Prop
  | .key before | .colon before _ | .afterMember before | .string (.key before) _ _ => HeldFields N before
  | .afterElement before => ∀ x ∈ before, JsonCodec.Held N x
  | .done v | .word _ v => JsonCodec.Held N v
  | _ => True

/-- What has been read so far can be written. -/
structure State.Held (s : State) : Prop where
  mode : s.mode.Held N
  stack : ∀ frame ∈ s.stack, frame.Held N

end

theorem heldFields_nil : HeldFields N [] := ⟨List.nodup_nil, fun _ h => absurd h List.not_mem_nil⟩

theorem held_arr {xs : List Json} : Held N (.arr xs) ↔ ∀ x ∈ xs, Held N x := by rw [Held, heldElements_iff]

theorem held_obj {fields : List (String × Json)} : Held N (.obj fields) ↔ HeldFields N fields := by
  rw [Held, heldMembers_iff, HeldFields]

theorem held_deliver {value : Json} (hvalue : Held N value) : ∀ {stack : List Frame}, (∀ frame ∈ stack, frame.Held N) →
    (deliver value stack).Held N
  | [], h => ⟨hvalue, h⟩
  | .array _ :: _, h =>
    ⟨List.forall_mem_append.mpr ⟨h _ List.mem_cons_self, List.forall_mem_singleton.mpr hvalue⟩,
      fun frame hframe => h frame (List.mem_cons_of_mem _ hframe)⟩
  | .member _ key :: _, h =>
    ⟨HeldFields.set N (h _ List.mem_cons_self) key hvalue, fun frame hframe => h frame (List.mem_cons_of_mem _ hframe)⟩

theorem held_deliverString {purpose : Purpose} {stack : List Frame} {units : List ℕ} {escape : Escape}
    (h : State.Held N ⟨.string purpose units escape, stack⟩) (s : String) : (deliverString stack purpose s).Held N := by
  cases purpose with
  | value => exact held_deliver (by rw [Held]; exact trivial) h.stack
  | key before => exact ⟨h.mode, h.stack⟩

theorem held_startValue {stack : List Frame} {c : Char} {s : State} (hstack : ∀ frame ∈ stack, frame.Held N)
    (h : startValue stack c = some s) : s.Held N := by
  unfold startValue at h
  split_ifs at h <;> obtain rfl := Option.some.inj h <;> exact ⟨by simp [Mode.Held, Held], hstack⟩

theorem held_startKey {before : List (String × Json)} {stack : List Frame} {c : Char} {s : State}
    (hbefore : HeldFields N before) (hstack : ∀ frame ∈ stack, frame.Held N) (h : startKey before stack c = some s) :
    s.Held N := by
  unfold startKey at h
  split_ifs at h
  obtain rfl := Option.some.inj h
  exact ⟨hbefore, hstack⟩

theorem held_stepAt {s s' : State} {c : Char} (hs : s.Held N) (h : stepAt s c = some s') : s'.Held N := by
  obtain ⟨mode, stack⟩ := s
  obtain ⟨hmode, hstack⟩ := hs
  unfold stepAt at h
  split at h
  · obtain rfl := Option.some.inj h
    exact ⟨hmode, hstack⟩
  · cases mode with
    | value => exact held_startValue hstack h
    | firstElement =>
      dsimp only at h
      split at h
      · obtain rfl := Option.some.inj h
        exact held_deliver (held_arr.mpr fun _ hx => absurd hx List.not_mem_nil) hstack
      · refine held_startValue (List.forall_mem_cons.mpr ⟨?_, hstack⟩) h
        exact fun _ hx => absurd hx List.not_mem_nil
    | firstKey =>
      dsimp only at h
      split at h
      · obtain rfl := Option.some.inj h
        exact held_deliver (held_obj.mpr heldFields_nil) hstack
      · exact held_startKey heldFields_nil hstack h
    | key before => exact held_startKey hmode hstack h
    | colon before key =>
      dsimp only at h
      split at h
      · obtain rfl := Option.some.inj h
        exact ⟨trivial, List.forall_mem_cons.mpr ⟨hmode, hstack⟩⟩
      · cases h
    | afterElement before =>
      dsimp only at h
      split_ifs at h
      · obtain rfl := Option.some.inj h
        exact ⟨trivial, List.forall_mem_cons.mpr ⟨hmode, hstack⟩⟩
      · obtain rfl := Option.some.inj h
        exact held_deliver (held_arr.mpr hmode) hstack
    | afterMember before =>
      dsimp only at h
      split_ifs at h
      · obtain rfl := Option.some.inj h
        exact ⟨hmode, hstack⟩
      · obtain rfl := Option.some.inj h
        exact held_deliver (held_obj.mpr hmode) hstack
    | string purpose units escape =>
      dsimp only at h
      split at h
      · obtain ⟨text, -, rfl⟩ := Option.map_eq_some_iff.mp h
        exact held_deliverString ⟨hmode, hstack⟩ text
      · obtain ⟨read, -, rfl⟩ := Option.map_eq_some_iff.mp h
        cases purpose with
        | value => exact ⟨trivial, hstack⟩
        | key before => exact ⟨hmode, hstack⟩
    | word rest value =>
      cases rest with
      | nil => cases h
      | cons d rest =>
        dsimp only at h
        split at h
        · obtain rfl := Option.some.inj h
          split
          · exact held_deliver hmode hstack
          · exact ⟨hmode, hstack⟩
        · cases h
    | number literal => cases h
    | done value => cases h

theorem held_settle {s s' : State} (hs : s.Held N) (h : settle N s = some s') : s'.Held N := by
  unfold settle at h
  split at h
  · next literal _ =>
    split at h
    · obtain ⟨q, hq, rfl⟩ := Option.map_eq_some_iff.mp h
      exact held_deliver (by rw [Held]; exact ⟨literal, hq⟩) hs.stack
    · cases h
  · obtain rfl := Option.some.inj h
    exact hs

theorem held_step {s s' : State} {c : Char} (hs : s.Held N) (h : step N s c = some s') : s'.Held N := by
  unfold step at h
  split at h
  · split at h
    · obtain rfl := Option.some.inj h
      exact ⟨trivial, hs.stack⟩
    · obtain ⟨settled, hsettled, h⟩ := Option.bind_eq_some_iff.mp h
      exact held_stepAt (held_settle hs hsettled) h
  · exact held_stepAt hs h

theorem held_run : ∀ (text : List Char) {s s' : State}, s.Held N → run N s text = some s' → s'.Held N
  | [], s, s', hs, h => by
    obtain rfl := Option.some.inj h
    exact hs
  | c :: text, s, s', hs, h => by
    rw [run_cons, Option.bind_eq_some_iff] at h
    obtain ⟨first, hfirst, h⟩ := h
    exact held_run text (held_step hs hfirst) h

/-- **What `JSON.parse` gives can be written and read back.** -/
theorem held_of_parse {text : String} {value : Json} (h : parse N text = some value) : Held N value := by
  rw [parse, Option.bind_eq_some_iff] at h
  obtain ⟨settled, h, hresult⟩ := h
  obtain ⟨s, hrun, hsettle⟩ := Option.bind_eq_some_iff.mp h
  have hstart : State.Held N ⟨.value, []⟩ := ⟨trivial, fun _ h => absurd h List.not_mem_nil⟩
  have hheld := held_settle (held_run _ hstart hrun) hsettle
  unfold result at hresult
  split at hresult
  · next hmode =>
    obtain rfl := Option.some.inj hresult
    have := hheld.mode
    rwa [hmode] at this
  · cases hresult

end Trek.JsonCodec
