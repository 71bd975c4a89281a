/-
# Parsing and matching agree

A key id that `parseKey` finds for the data of a key press should match the data. Whether it does is said
by the sequence (`agrees_iff`): a Kitty sequence matches its id but for `+`, for `escape` with a modifier
and for a code point that is taken for another one; a `modifyOtherKeys` sequence only with a modifier that
has no lock bits, and only for some keys without one; of the legacy sequences upper case letters, `+`
and the quotation mark do not match, nor do five control sequences where the Kitty protocol is active.
-/
import Trek.Keys.Matching

namespace Trek.Keys

open Trek.Tui Trek.Editor

/-- The key id that is found for the data matches the data. -/
def Agrees (session : Session) (data : List ℕ) : Prop := ∀ k, parseKey session data = .keyId k → matchesKey session data k = true

/-- The key of a Kitty sequence, if it has a name and only known modifiers: not `+`, not `escape` with a modifier,
and a code point of 16 bits. -/
def KittyConsistent (s : ParsedKittySequence) : Prop :=
  let codepoint := effectiveCodepoint s.codepoint s.modifier s.baseLayoutKey
  let modifier := effectiveModifier s.modifier
  modifier < 16 → keyNameOf codepoint ≠ none →
    codepoint ≠ .int 0x2b ∧ codepoint.between (-15) 0xffff ∧ (codepoint = .int SpecialKey.escape.codepoint → modifier = 0)

/-- The key of a `modifyOtherKeys` sequence, if it has a name and only known modifiers: it is written with its own
code point and without lock bits, and with a modifier if it is none of `escape`, `space` and `backspace`. -/
def ModifyConsistent (s : ParsedModifyOtherKeysSequence) : Prop :=
  let codepoint := effectiveCodepoint s.codepoint s.modifier none
  let modifier := effectiveModifier s.modifier
  modifier < 16 → keyNameOf codepoint ≠ none →
    s.modifier = .int modifier ∧ normalizeKittyFunctionalCodepoint s.codepoint = s.codepoint ∧
      codepoint ≠ .int SpecialKey.kpEnter.codepoint ∧ codepoint.between 0 0xffff ∧ codepoint ≠ .int 0x2b ∧
      (codepoint = .int SpecialKey.escape.codepoint → modifier = 0) ∧
      (codepoint ∉ [SpecialKey.escape, .space, .backspace].map (Num.int ·.codepoint) → modifier ≠ 0)

/-- The upper case letters, `+` and the quotation mark. -/
def UNMATCHED_CHARACTERS : List (List ℕ) := ascii "ABCDEFGHIJKLMNOPQRSTUVWXYZ+\"" |>.map ([·])

/-- A legacy sequence: no upper case letter, `+` or quotation mark, and none of the control sequences that are
parsed, but not matched, while the Kitty protocol is active. -/
def LegacyConsistent (session : Session) (data : List ℕ) : Prop :=
  data ∉ UNMATCHED_CHARACTERS ∧
    (session.kittyProtocolActive → data ∉ [[0], [ESC, ESC], [ESC, 0x1c], [ESC, 0x1d], [ESC, 0x1f]])

instance (session : Session) (data : List ℕ) : Decidable (LegacyConsistent session data) := inferInstanceAs (Decidable (_ ∧ _))

/-- The data has a key id that matches it, or no key id. -/
def Consistent (session : Session) (data : List ℕ) : Prop :=
  match parseKittySequence data with
  | some kitty => KittyConsistent kitty
  | none =>
    match parseModifyOtherKeysSequence data with
    | some parsed => ModifyConsistent parsed
    | none => LegacyConsistent session data

variable {session : Session} {data name : List ℕ} {m : ℕ} {c : ℕ}

/-! ### Modifiers -/

theorem effectiveModifier_lt (modifier : Num) : effectiveModifier modifier < 2 ^ 32 := Nat.and_lt_two_pow _ (by decide)

theorem unsupported_iff (modifier : Num) : effectiveModifier modifier &&& 0xfffffff0 ≠ 0 ↔ ¬ effectiveModifier modifier < 16 := by
  have hlt := effectiveModifier_lt modifier
  generalize effectiveModifier modifier = m at hlt
  have hsmall : ∀ m < 16, m &&& 0xfffffff0 = 0 := by decide
  constructor
  · exact fun hbits hlt => hbits (hsmall m hlt)
  · intro hlarge hzero
    have hshift : (m &&& 0xfffffff0) >>> 4 = (m >>> 4) &&& (2 ^ 28 - 1) := Nat.shiftRight_and_distrib
    rw [hzero, Nat.and_two_pow_sub_one_eq_mod, Nat.shiftRight_eq_div_pow] at hshift
    omega

theorem effectiveModifier_int (hm : m < 16) : effectiveModifier (.int m) = m := by
  have hall : ∀ m < 16, effectiveModifier (.int (m : ℕ)) = m := by decide
  exact hall m hm

/-- The key id of a name and a modifier. -/
def keyIdOf (name : List ℕ) (m : ℕ) : List ℕ := [0x2b].intercalate (modifierNames m ++ [name])

theorem formatKeyNameWithModifiers_eq (name : List ℕ) (modifier : Num) :
    formatKeyNameWithModifiers name modifier =
      if effectiveModifier modifier < 16 then some (keyIdOf name (effectiveModifier modifier)) else none := by
  unfold formatKeyNameWithModifiers
  dsimp only
  by_cases hm : effectiveModifier modifier < 16
  · rw [if_neg (fun hbits => (unsupported_iff modifier).mp hbits hm), if_pos hm]
    rfl
  · rw [if_pos ((unsupported_iff modifier).mpr hm), if_neg hm]

/-! ### Key ids -/

theorem intercalate_concat (sep name : List ℕ) : ∀ names : List (List ℕ),
    sep.intercalate (names ++ [name]) = names.flatMap (· ++ sep) ++ name
  | [] => List.intercalate_singleton
  | first :: names => by
    rw [List.cons_append, List.intercalate_cons_of_ne_nil (by simp), intercalate_concat sep name names]
    simp

theorem map_keyIdOf (hm : m < 16) (name : List ℕ) : (keyIdOf name m).map toLowerCase = keyIdOf (name.map toLowerCase) m := by
  have hlower : ∀ m < 16, ((modifierNames m).flatMap (· ++ [0x2b])).map toLowerCase = (modifierNames m).flatMap (· ++ [0x2b]) := by
    decide
  rw [keyIdOf, keyIdOf, intercalate_concat, intercalate_concat, List.map_append, hlower m hm]

/-- The names of the modifiers in a key id are those of the modifier. -/
theorem modifier_modifierNames (hm : m < 16) (key : List ℕ) :
    ParsedKeyId.modifier ⟨key, (modifierNames m).contains (ascii "ctrl"), (modifierNames m).contains (ascii "shift"),
      (modifierNames m).contains (ascii "alt"), (modifierNames m).contains (ascii "super")⟩ = m := by
  have hall : ∀ m < 16, ParsedKeyId.modifier ⟨[], (modifierNames m).contains (ascii "ctrl"), (modifierNames m).contains (ascii "shift"),
      (modifierNames m).contains (ascii "alt"), (modifierNames m).contains (ascii "super")⟩ = m := by decide
  exact hall m hm

/-- A name that a key id can be made of. -/
def IsName (name : List ℕ) : Prop := name ≠ [] ∧ 0x2b ∉ name ∧ name ∉ [ascii "ctrl", ascii "shift", ascii "alt", ascii "super"]

instance (name : List ℕ) : Decidable (IsName name) := inferInstanceAs (Decidable (_ ∧ _ ∧ _))

/-- A key id is taken apart into its name and its modifier. -/
theorem parseKeyId_keyIdOf (hm : m < 16) (hname : IsName (name.map toLowerCase)) :
    ∃ parsed, parseKeyId (keyIdOf name m) = some parsed ∧ parsed.key = name.map toLowerCase ∧ parsed.modifier = m := by
  obtain ⟨hne, hplus, hmodifier⟩ := hname
  have hnames : ∀ m < 16, ∀ part ∈ modifierNames m, 0x2b ∉ part := by decide
  have hsplit : (keyIdOf (name.map toLowerCase) m).splitOn 0x2b = modifierNames m ++ [name.map toLowerCase] := by
    refine List.splitOn_intercalate 0x2b (fun part hpart => ?_) (by simp)
    rcases List.mem_append.mp hpart with hpart | hpart
    · exact hnames m hm part hpart
    · rw [List.mem_singleton.mp hpart]
      exact hplus
  have hcontains : ∀ modifier ∈ [ascii "ctrl", ascii "shift", ascii "alt", ascii "super"],
      (modifierNames m ++ [name.map toLowerCase]).contains modifier = (modifierNames m).contains modifier := by
    intro modifier hmem
    have hother : modifier ≠ name.map toLowerCase := fun heq => hmodifier (heq ▸ hmem)
    rw [Bool.eq_iff_iff]
    simp [hother]
  unfold parseKeyId
  rw [map_keyIdOf hm, hsplit]
  dsimp only
  rw [List.getLastD_concat, if_neg hne, hcontains _ (by simp), hcontains _ (by simp), hcontains _ (by simp), hcontains _ (by simp)]
  exact ⟨_, rfl, rfl, modifier_modifierNames hm _⟩

/-- A key id of `+` is taken apart at its own character. -/
theorem parseKeyId_plus (hm : m < 16) : parseKeyId (keyIdOf [0x2b] m) = none := by
  have hall : ∀ m < 16, (((keyIdOf [0x2b] m).map toLowerCase).splitOn 0x2b).getLastD [] = [] := by decide
  unfold parseKeyId
  exact if_pos (hall m hm)

/-! ### The cases of matchesKey -/

theorem matchesKey_keyIdOf (hm : m < 16) (hname : IsName (name.map toLowerCase)) :
    matchesKey session data (keyIdOf name m) =
      match matchesNamedKey session data (name.map toLowerCase) m with
      | some matched => matched
      | none =>
        match name.map toLowerCase with
        | [c] => if isLetter c || isDigit c || SYMBOL_KEYS.contains c then matchesCharacter session data c m else false
        | _ => false := by
  obtain ⟨parsed, hparsed, hkey, hmodifier⟩ := parseKeyId_keyIdOf hm hname
  simp only [matchesKey, hparsed, hkey, hmodifier] <;> rfl

/-- The case of a special key. -/
def matchesSpecial (session : Session) (data : List ℕ) (key : SpecialKey) (m : ℕ) : Bool :=
  match key with
  | .escape => matchesEscape data m
  | .tab => matchesTab data m
  | .enter | .kpEnter => matchesEnter session data m
  | .space => matchesSpace session data m
  | .backspace => matchesBackspace session data m
  | .delete => matchesFunctional data (ascii "delete") .delete m
  | .insert => matchesFunctional data (ascii "insert") .insert m
  | .home => matchesFunctional data (ascii "home") .home m
  | .end_ => matchesFunctional data (ascii "end") .end_ m
  | .pageUp => matchesFunctional data (ascii "pageUp") .pageUp m
  | .pageDown => matchesFunctional data (ascii "pageDown") .pageDown m
  | .up => matchesVertical data (ascii "up") (ascii "\x1bp") .up m
  | .down => matchesVertical data (ascii "down") (ascii "\x1bn") .down m
  | .left => matchesHorizontal session data (ascii "left") (ascii "\x1b[1;3D") (ascii "\x1bB") (ascii "\x1bb") (ascii "\x1b[1;5D") .left m
  | .right => matchesHorizontal session data (ascii "right") (ascii "\x1b[1;3C") (ascii "\x1bF") (ascii "\x1bf") (ascii "\x1b[1;5C") .right m

theorem matchesKey_special (hm : m < 16) {entry : SpecialKey × List ℕ} (hentry : entry ∈ KEY_NAMES) :
    matchesKey session data (keyIdOf entry.2 m) = matchesSpecial session data entry.1 m := by
  have hnames : ∀ entry ∈ KEY_NAMES, IsName (entry.2.map toLowerCase) := by decide
  rw [matchesKey_keyIdOf hm (hnames entry hentry)]
  revert entry hentry
  simp only [KEY_NAMES, List.forall_mem_cons]
  refine ⟨rfl, rfl, rfl, rfl, rfl, rfl, rfl, rfl, rfl, rfl, rfl, rfl, rfl, rfl, rfl, rfl, fun _ h => by cases h⟩

/-- A letter, a digit or a symbol. -/
def IsKeyChar (c : ℕ) : Prop := (isLetter c || isDigit c || SYMBOL_KEYS.contains c) = true

theorem toLowerCase_of_isKeyChar (hc : IsKeyChar c) : toLowerCase c = c := by
  have hsymbols : ∀ c ∈ SYMBOL_KEYS, toLowerCase c = c := by decide
  simp only [IsKeyChar, isLetter, isDigit, Bool.or_eq_true, Bool.and_eq_true, decide_eq_true_eq, List.contains_iff_mem] at hc
  rcases hc with (hletter | hdigit) | hsymbol
  · exact if_neg (by omega)
  · exact if_neg (by omega)
  · exact hsymbols c hsymbol

/-- A single character is no case of the `switch`. -/
theorem matchesNamedKey_character (c m : ℕ) : matchesNamedKey session data [c] m = none := by
  have hlong : ∀ name : List ℕ, name.length ≠ 1 → [c] ≠ name := fun name hlength heq => hlength (heq ▸ rfl)
  have hfunction : [c] ∉ FUNCTION_KEYS := fun hmem => by
    have hlengths : ∀ name ∈ FUNCTION_KEYS, name.length ≠ 1 := by decide
    exact hlengths _ hmem rfl
  unfold matchesNamedKey
  rw [if_neg (by rintro (h | h) <;> exact hlong _ (by decide) h)]
  simp only [hlong (ascii "space") (by decide), hlong (ascii "tab") (by decide), hlong (ascii "enter") (by decide),
    hlong (ascii "return") (by decide), hlong (ascii "backspace") (by decide), hlong (ascii "insert") (by decide),
    hlong (ascii "delete") (by decide), hlong (ascii "clear") (by decide), hlong (ascii "home") (by decide),
    hlong (ascii "end") (by decide), hlong (ascii "pageup") (by decide), hlong (ascii "pagedown") (by decide),
    hlong (ascii "up") (by decide), hlong (ascii "down") (by decide), hlong (ascii "left") (by decide),
    hlong (ascii "right") (by decide), hfunction, or_self, if_false]

theorem matchesKey_character (hm : m < 16) (hc : IsKeyChar c) (hplus : c ≠ 0x2b) :
    matchesKey session data (keyIdOf [c] m) = matchesCharacter session data c m := by
  have hlower : [c].map toLowerCase = [c] := congrArg ([·]) (toLowerCase_of_isKeyChar hc)
  have hname : IsName ([c].map toLowerCase) := by
    rw [hlower]
    refine ⟨List.cons_ne_nil _ _, ?_, ?_⟩
    · rw [List.mem_singleton]
      exact fun heq => hplus heq.symm
    · have hlengths : ∀ name ∈ [ascii "ctrl", ascii "shift", ascii "alt", ascii "super"], name.length ≠ 1 := by decide
      exact fun hmem => hlengths _ hmem rfl
  rw [matchesKey_keyIdOf hm hname, hlower, matchesNamedKey_character]
  exact if_pos hc

/-! ### Kitty sequences -/

/-- A sequence with a modifier is longer than what stands for a key by itself. -/
theorem three_le_of_parseKitty {kitty : ParsedKittySequence} (h : parseKittySequence data = some kitty) : 3 ≤ data.length := by
  by_contra hshort
  have hnil : ∀ text, data = 0x1b :: 0x5b :: text → text = [] := fun text heq => by
    rw [heq] at hshort
    cases text with
    | nil => rfl
    | cons c text => simp at hshort
  have hcsiU : parseCsiU data = none := by
    unfold parseCsiU
    split
    · next text => rw [hnil text rfl]; rfl
    · rfl
  have hletter : ∀ finals, parseLetter finals data = none := fun finals => by
    unfold parseLetter
    split
    · next text => exact absurd (hnil _ rfl) (List.cons_ne_nil _ _)
    · rfl
  have hfunctional : parseFunctional data = none := by
    unfold parseFunctional
    split
    · next text => rw [hnil text rfl]; rfl
    · rfl
  simp [parseKittySequence, hcsiU, hletter, hfunctional] at h

theorem three_le_of_parseModify {parsed : ParsedModifyOtherKeysSequence} (h : parseModifyOtherKeysSequence data = some parsed) :
    3 ≤ data.length := by
  unfold parseModifyOtherKeysSequence at h
  split at h
  · simp
  · cases h

/-- Data of more than two characters is none of the short forms of a character. -/
theorem matchesCharacter_of_three_le (hlong : 3 ≤ data.length) :
    matchesCharacter session data c m =
      (matchesKittySequence data c m || (decide (m ≠ 0) && matchesPrintableModifyOtherKeys data c m)) := by
  have hone : ∀ x, data ≠ [x] := fun x heq => by simp [heq] at hlong
  have htwo : ∀ x y, data ≠ [x, y] := fun x y heq => by simp [heq] at hlong
  have hctrl : ∀ code : Option ℕ, code.any (data = [·]) = false := fun code => by cases code <;> simp [hone]
  have halt : ∀ code : Option ℕ, code.any (data = [ESC, ·]) = false := fun code => by cases code <;> simp [htwo]
  unfold matchesCharacter
  dsimp only
  rw [hctrl, halt, if_neg (by simp), if_neg (by simp [htwo])]
  by_cases hm : m = 0
  · subst hm
    simp [hone]
  · simp [hm, hone]

/-- `modifyOtherKeys` sequences are no Kitty sequences. -/
theorem parseKitty_of_parseModify {parsed : ParsedModifyOtherKeysSequence} (h : parseModifyOtherKeysSequence data = some parsed) :
    parseKittySequence data = none := by
  unfold parseModifyOtherKeysSequence at h
  split at h
  · next text =>
    dsimp only at h
    split at h
    · next text' hrest =>
      split at h
      · next hparts =>
        obtain ⟨hmod, -, -⟩ := hparts
        have hdigits : List.takeWhile isDigit (0x32 :: 0x37 :: 0x3b :: text) = [0x32, 0x37] := rfl
        have hsemicolon : List.dropWhile isDigit (0x32 :: 0x37 :: 0x3b :: text) = 0x3b :: text := rfl
        simp [parseKittySequence, parseCsiU, parseLetter, parseFunctional, hdigits, hsemicolon, optionalGroup, hmod, hrest]
      · cases h
    · cases h
  · cases h

/-! ### Code points -/

theorem lt_of_isKeyChar (hc : IsKeyChar c) : c < 128 ∧ ¬ (65 ≤ c ∧ c ≤ 90) := by
  have hsymbols : ∀ c ∈ SYMBOL_KEYS, c < 128 ∧ ¬ (65 ≤ c ∧ c ≤ 90) := by decide
  simp only [IsKeyChar, isLetter, isDigit, Bool.or_eq_true, Bool.and_eq_true, decide_eq_true_eq, List.contains_iff_mem] at hc
  rcases hc with (hletter | hdigit) | hsymbol
  · omega
  · omega
  · exact hsymbols c hsymbol

/-- A code point that stands for itself. -/
def IsPlain (code : ℤ) : Prop := KITTY_FUNCTIONAL_KEY_EQUIVALENTS.lookup code = none ∧ ¬ (65 ≤ code ∧ code ≤ 90)

theorem normalize_of_isPlain {code : ℤ} (hcode : IsPlain code) (modifier : Num) :
    normalizeShiftedLetterIdentityCodepoint (normalizeKittyFunctionalCodepoint (.int code)) modifier = .int code := by
  have hnormal : normalizeKittyFunctionalCodepoint (.int code) = .int code := by rw [normalizeKittyFunctionalCodepoint, hcode.1]; rfl
  have hletter : ¬ (Num.int code).between 65 90 := by
    simp only [Num.between, Bool.and_eq_true, decide_eq_true_eq]
    exact hcode.2
  rw [hnormal, normalizeShiftedLetterIdentityCodepoint, if_neg fun hand => hletter hand.2]

theorem isPlain_special (key : SpecialKey) : IsPlain key.codepoint := by
  cases key <;> exact ⟨by decide, by decide⟩

/-- The codes of the functional keys are no ASCII codes. -/
theorem lookup_functional (hc : c < 128) : KITTY_FUNCTIONAL_KEY_EQUIVALENTS.lookup (c : ℤ) = none := by
  have hcodes : ∀ entry ∈ KITTY_FUNCTIONAL_KEY_EQUIVALENTS, 128 ≤ entry.1 := by decide
  refine List.lookup_eq_none_iff.mpr fun entry hentry => bne_iff_ne.mpr ?_
  have := hcodes entry hentry
  omega

theorem isPlain_character (hc : IsKeyChar c) : IsPlain c :=
  ⟨lookup_functional (lt_of_isKeyChar hc).1, by have := (lt_of_isKeyChar hc).2; omega⟩

/-- A code point that has a name is a special key, or is taken for a letter, a digit or a symbol. -/
theorem keyNameOf_eq_some {codepoint : Num} (h : keyNameOf codepoint = some name) :
    (∃ entry ∈ KEY_NAMES, codepoint = .int entry.1.codepoint ∧ name = entry.2) ∨
      (∀ key : SpecialKey, codepoint ≠ .int key.codepoint) ∧ IsKeyChar (fromCharCode codepoint) ∧ name = [fromCharCode codepoint] := by
  unfold keyNameOf at h
  split at h
  · next entry hentry =>
    have hcode := List.find?_some hentry
    exact Or.inl ⟨entry, List.mem_of_find?_eq_some hentry, of_decide_eq_true hcode, (Option.some.inj h).symm⟩
  · next hnone =>
    split at h
    · next hchar =>
      refine Or.inr ⟨fun key hkey => ?_, ?_, (Option.some.inj h).symm⟩
      · have hall : ∀ key : SpecialKey, ∃ entry ∈ KEY_NAMES, entry.1 = key := by
          intro key
          cases key <;> decide
        obtain ⟨entry, hmem, rfl⟩ := hall key
        exact List.find?_eq_none.mp hnone entry hmem (decide_eq_true hkey)
      · cases codepoint with
        | infinity => simp [Num.between, fromCharCode, Num.toUint32, SYMBOL_KEYS, ascii] at hchar
        | int n =>
          simp only [Bool.or_eq_true, Num.between, Bool.and_eq_true, decide_eq_true_eq] at hchar
          simp only [IsKeyChar, isLetter, isDigit, Bool.or_eq_true, Bool.and_eq_true, decide_eq_true_eq]
          have hvalue : 0 ≤ n → n < 0x10000 → (fromCharCode (.int n) : ℤ) = n := by
            intro hzero hlt
            simp only [fromCharCode, Num.toUint32]
            omega
          rcases hchar with (hdigit | hletter) | hsymbol
          · have := hvalue (by omega) (by omega)
            omega
          · have := hvalue (by omega) (by omega)
            omega
          · exact Or.inr hsymbol
    · cases h

/-- A letter, digit or symbol of 16 bits is its own character. -/
theorem eq_int_of_between {codepoint : Num} (hc : IsKeyChar (fromCharCode codepoint)) (h : codepoint.between (-15) 0xffff) :
    codepoint = .int (fromCharCode codepoint) := by
  obtain ⟨hlt, -⟩ := lt_of_isKeyChar hc
  cases codepoint with
  | infinity => cases h
  | int n =>
    simp only [Num.between, Bool.and_eq_true, decide_eq_true_eq] at h
    simp only [fromCharCode, Num.toUint32] at hlt ⊢
    congr 1
    omega

/-- The ids of a sequence with a modifier. -/
theorem agrees_format_iff {codepoint modifier : Num} {baseLayoutKey : Option Num} :
    (∀ k, ((formatParsedKey codepoint modifier baseLayoutKey).map Parsed.keyId).getD .undefined = .keyId k →
        matchesKey session data k = true) ↔
      ∀ name, effectiveModifier modifier < 16 → keyNameOf (effectiveCodepoint codepoint modifier baseLayoutKey) = some name →
        matchesKey session data (keyIdOf name (effectiveModifier modifier)) = true := by
  unfold formatParsedKey
  cases hname : keyNameOf (effectiveCodepoint codepoint modifier baseLayoutKey) with
  | none => simp
  | some name =>
    rw [Option.bind_some, formatKeyNameWithModifiers_eq]
    split
    · next hm => simp [hm]
    · next hm => simp [hm]

/-! ### Kitty sequences and their ids -/

section Kitty

variable {kitty : ParsedKittySequence}

/-- A Kitty sequence matches a code point that stands for itself by the code point, or by the base layout. -/
theorem matchesKitty_iff (h : parseKittySequence data = some kitty) (hm : effectiveModifier kitty.modifier < 16) {code : ℤ}
    (hcode : IsPlain code) :
    matchesKittySequence data code (effectiveModifier kitty.modifier) = true ↔
      normalizeShiftedLetterIdentityCodepoint (normalizeKittyFunctionalCodepoint kitty.codepoint) kitty.modifier = .int code ∨
        kitty.baseLayoutKey = some (.int code) ∧ isUnknownSymbol
          (normalizeShiftedLetterIdentityCodepoint (normalizeKittyFunctionalCodepoint kitty.codepoint) kitty.modifier) = true := by
  unfold matchesKittySequence
  rw [h]
  dsimp only
  rw [if_neg (not_not.mpr (effectiveModifier_int hm).symm), normalize_of_isPlain hcode]
  simp only [Bool.or_eq_true, Bool.and_eq_true, decide_eq_true_eq]

/-- It matches the code point that it stands for. -/
theorem matchesKitty_of_effective (h : parseKittySequence data = some kitty) (hm : effectiveModifier kitty.modifier < 16) {code : ℤ}
    (hcode : IsPlain code) (heff : effectiveCodepoint kitty.codepoint kitty.modifier kitty.baseLayoutKey = .int code) :
    matchesKittySequence data code (effectiveModifier kitty.modifier) = true := by
  rw [matchesKitty_iff h hm hcode]
  unfold effectiveCodepoint at heff
  dsimp only at heff
  split at heff
  · exact Or.inl heff
  · next hunknown =>
    cases hbase : kitty.baseLayoutKey with
    | none =>
      rw [hbase] at heff
      exact Or.inl heff
    | some base =>
      rw [hbase] at heff
      obtain rfl : base = .int code := heff
      refine Or.inr ⟨rfl, ?_⟩
      simp only [Bool.or_eq_true, not_or, Bool.not_eq_true] at hunknown
      simp only [isUnknownSymbol, hunknown.1.1, hunknown.2, Bool.not_false, Bool.and_self]

/-- It matches a letter, a digit or a symbol only if it stands for that, or for a digit. -/
theorem effective_of_matchesKitty (h : parseKittySequence data = some kitty) (hm : effectiveModifier kitty.modifier < 16)
    (hc : IsKeyChar c) (hmatch : matchesKittySequence data c (effectiveModifier kitty.modifier) = true) :
    effectiveCodepoint kitty.codepoint kitty.modifier kitty.baseLayoutKey = .int c ∨
      (effectiveCodepoint kitty.codepoint kitty.modifier kitty.baseLayoutKey).between 48 57 := by
  have hknown : (Num.int c).between 97 122 || (Num.int c).between 48 57 || SYMBOL_KEYS.contains (fromCharCode (.int c)) := by
    obtain ⟨hlt, -⟩ := lt_of_isKeyChar hc
    have hvalue : fromCharCode (.int c) = c := by
      simp only [fromCharCode, Num.toUint32]
      omega
    rw [hvalue]
    simp only [IsKeyChar, isLetter, isDigit, Bool.or_eq_true, Bool.and_eq_true, decide_eq_true_eq] at hc
    simp only [Num.between, Bool.or_eq_true, Bool.and_eq_true, decide_eq_true_eq]
    rcases hc with (hletter | hdigit) | hsymbol
    · exact Or.inl (Or.inl (by omega))
    · exact Or.inl (Or.inr (by omega))
    · exact Or.inr hsymbol
  unfold effectiveCodepoint
  dsimp only
  rcases (matchesKitty_iff h hm (isPlain_character hc)).mp hmatch with hsame | ⟨hbase, hunknown⟩
  · rw [hsame, if_pos hknown]
    exact Or.inl rfl
  · rw [hbase]
    split
    · next hidentity =>
      simp only [isUnknownSymbol, Bool.and_eq_true, Bool.not_eq_true'] at hunknown
      simp only [hunknown.1, hunknown.2, Bool.false_or, Bool.or_false] at hidentity
      exact Or.inr hidentity
    · exact Or.inl rfl

theorem matchesEnter_of_kitty (h : matchesKittyEnter data m = true) : matchesEnter session data m = true := by
  unfold matchesEnter
  split
  · next hm => subst hm; rw [if_pos h]
  · split
    · next hm => subst hm; rw [if_pos h]
    · split
      · next hm => subst hm; simp [h]
      · simp [h]

/-- A special key matches its Kitty sequence, `escape` without a modifier. -/
theorem matchesSpecial_of_kitty {key : SpecialKey} (h : matchesKittySequence data key.codepoint m = true)
    (hescape : key = .escape → m = 0) : matchesSpecial session data key m = true := by
  have hfunctional : ∀ name, matchesFunctional data name key m = true := fun name => by
    unfold matchesFunctional
    split
    · next hm =>
      subst hm
      simp [h]
    · simp [h]
  cases key with
  | escape =>
    obtain rfl := hescape rfl
    simp [matchesSpecial, matchesEscape, h]
  | tab =>
    unfold matchesSpecial matchesTab
    dsimp only
    split
    · next hm => subst hm; simp [h]
    · split
      · next hm => subst hm; simp [h]
      · simp [h]
  | space =>
    unfold matchesSpecial matchesSpace
    dsimp only
    split
    · rfl
    · split
      · next hm => subst hm; simp [h]
      · simp [h]
  | backspace =>
    unfold matchesSpecial matchesBackspace
    dsimp only
    rw [h]
    split <;> simp
  | enter =>
    have henter : matchesKittyEnter data m = true := by simp [matchesKittyEnter, h]
    exact matchesEnter_of_kitty henter
  | kpEnter =>
    have henter : matchesKittyEnter data m = true := by simp [matchesKittyEnter, h]
    exact matchesEnter_of_kitty henter
  | delete | insert | home | end_ | pageUp | pageDown => exact hfunctional _
  | up | down =>
    unfold matchesSpecial matchesVertical
    dsimp only
    split
    · next hm => subst hm; simp [h]
    · exact hfunctional _
  | left | right =>
    unfold matchesSpecial matchesHorizontal
    dsimp only
    split
    · next hm => subst hm; simp [h]
    · split
      · next hm => subst hm; simp [h]
      · exact hfunctional _

theorem parseKey_of_kitty (h : parseKittySequence data = some kitty) :
    Agrees session data ↔ ∀ name, effectiveModifier kitty.modifier < 16 →
      keyNameOf (effectiveCodepoint kitty.codepoint kitty.modifier kitty.baseLayoutKey) = some name →
        matchesKey session data (keyIdOf name (effectiveModifier kitty.modifier)) = true := by
  have hparse : parseKey session data =
      ((formatParsedKey kitty.codepoint kitty.modifier kitty.baseLayoutKey).map Parsed.keyId).getD .undefined := by
    unfold parseKey
    rw [h]
  unfold Agrees
  rw [hparse]
  exact agrees_format_iff

/-- The id of a special key. -/
theorem matchesKey_special_kitty_iff (h : parseKittySequence data = some kitty) (hm : effectiveModifier kitty.modifier < 16)
    {entry : SpecialKey × List ℕ} (hentry : entry ∈ KEY_NAMES)
    (hcode : effectiveCodepoint kitty.codepoint kitty.modifier kitty.baseLayoutKey = .int entry.1.codepoint) :
    matchesKey session data (keyIdOf entry.2 (effectiveModifier kitty.modifier)) = true ↔
      (entry.1 = .escape → effectiveModifier kitty.modifier = 0) := by
  rw [matchesKey_special hm hentry]
  constructor
  · intro hmatch hescape
    rw [hescape] at hmatch
    by_contra hmod
    simp [matchesSpecial, matchesEscape, hmod] at hmatch
  · exact matchesSpecial_of_kitty (matchesKitty_of_effective h hm (isPlain_special entry.1) hcode)

/-- The id of a letter, a digit or a symbol. -/
theorem matchesKey_character_kitty_iff (h : parseKittySequence data = some kitty) (hm : effectiveModifier kitty.modifier < 16)
    {codepoint : Num} (hcode : effectiveCodepoint kitty.codepoint kitty.modifier kitty.baseLayoutKey = codepoint)
    (hchar : IsKeyChar (fromCharCode codepoint)) :
    matchesKey session data (keyIdOf [fromCharCode codepoint] (effectiveModifier kitty.modifier)) = true ↔
      codepoint ≠ .int 0x2b ∧ codepoint.between (-15) 0xffff := by
  have hmodify : parseModifyOtherKeysSequence data = none := by
    cases hparsed : parseModifyOtherKeysSequence data with
    | none => rfl
    | some parsed => cases (parseKitty_of_parseModify hparsed).symm.trans h
  have hprintable : matchesPrintableModifyOtherKeys data (fromCharCode codepoint) (effectiveModifier kitty.modifier) = false := by
    unfold matchesPrintableModifyOtherKeys
    rw [hmodify]
    exact ite_self _
  by_cases hplus : fromCharCode codepoint = 0x2b
  · rw [hplus, matchesKey, parseKeyId_plus hm]
    refine iff_of_false Bool.false_ne_true fun ⟨hne, hbetween⟩ => hne ?_
    rw [eq_int_of_between hchar hbetween, hplus]
    rfl
  · rw [matchesKey_character hm hchar hplus, matchesCharacter_of_three_le (three_le_of_parseKitty h), hprintable, Bool.and_false,
      Bool.or_false]
    constructor
    · intro hmatch
      have hne : codepoint ≠ .int 0x2b := fun heq => hplus (by rw [heq]; rfl)
      refine ⟨hne, ?_⟩
      obtain ⟨hlt, -⟩ := lt_of_isKeyChar hchar
      rcases effective_of_matchesKitty h hm hchar hmatch with hsame | hdigit
      · rw [← hcode, hsame]
        simp only [Num.between, Bool.and_eq_true, decide_eq_true_eq]
        omega
      · rw [hcode] at hdigit
        cases codepoint with
        | infinity => cases hdigit
        | int n =>
          simp only [Num.between, Bool.and_eq_true, decide_eq_true_eq] at hdigit ⊢
          omega
    · rintro ⟨-, hbetween⟩
      exact matchesKitty_of_effective h hm (isPlain_character hchar) (hcode.trans (eq_int_of_between hchar hbetween))

/-- **A Kitty sequence matches its id** if it is consistent, and only then. -/
theorem agrees_kitty_iff (h : parseKittySequence data = some kitty) : Agrees session data ↔ KittyConsistent kitty := by
  rw [parseKey_of_kitty h]
  unfold KittyConsistent
  dsimp only
  have hname : ∀ name, effectiveModifier kitty.modifier < 16 →
      keyNameOf (effectiveCodepoint kitty.codepoint kitty.modifier kitty.baseLayoutKey) = some name →
        (matchesKey session data (keyIdOf name (effectiveModifier kitty.modifier)) = true ↔
          effectiveCodepoint kitty.codepoint kitty.modifier kitty.baseLayoutKey ≠ .int 0x2b ∧
            (effectiveCodepoint kitty.codepoint kitty.modifier kitty.baseLayoutKey).between (-15) 0xffff ∧
              (effectiveCodepoint kitty.codepoint kitty.modifier kitty.baseLayoutKey = .int SpecialKey.escape.codepoint →
                effectiveModifier kitty.modifier = 0)) := by
    intro name hm hname
    rcases keyNameOf_eq_some hname with ⟨entry, hentry, hcode, rfl⟩ | ⟨hspecial, hchar, rfl⟩
    · have hfacts : ∀ entry ∈ KEY_NAMES, entry.1.codepoint ≠ 0x2b ∧ (Num.int entry.1.codepoint).between (-15) 0xffff ∧
          (entry.1.codepoint = SpecialKey.escape.codepoint ↔ entry.1 = .escape) := by decide
      obtain ⟨hplus, hbetween, hescape⟩ := hfacts entry hentry
      rw [matchesKey_special_kitty_iff h hm hentry hcode, hcode]
      simp only [ne_eq, Num.int.injEq, hplus, not_false_eq_true, hbetween, hescape, true_and]
    · rw [matchesKey_character_kitty_iff h hm rfl hchar]
      exact ⟨fun ⟨hplus, hbetween⟩ => ⟨hplus, hbetween, fun hescape => absurd hescape (hspecial .escape)⟩,
        fun ⟨hplus, hbetween, _⟩ => ⟨hplus, hbetween⟩⟩
  constructor
  · intro hagrees hm hnamed
    obtain ⟨name, hsome⟩ := Option.ne_none_iff_exists'.mp hnamed
    exact (hname name hm hsome).mp (hagrees name hm hsome)
  · intro hconsistent name hm hsome
    exact (hname name hm hsome).mpr (hconsistent hm (by rw [hsome]; exact Option.some_ne_none name))

end Kitty

/-! ### modifyOtherKeys sequences and their ids -/

section ModifyOtherKeys

variable {parsed : ParsedModifyOtherKeysSequence}

theorem effectiveCodepoint_none (codepoint modifier : Num) :
    effectiveCodepoint codepoint modifier none =
      normalizeShiftedLetterIdentityCodepoint (normalizeKittyFunctionalCodepoint codepoint) modifier := by
  unfold effectiveCodepoint
  exact ite_self _

theorem matchesKitty_of_parseModify (h : parseModifyOtherKeysSequence data = some parsed) (code : ℤ) (m : ℕ) :
    matchesKittySequence data code m = false := by
  unfold matchesKittySequence
  rw [parseKitty_of_parseModify h]

theorem matchesModify_iff (h : parseModifyOtherKeysSequence data = some parsed) (code : ℤ) (m : ℕ) :
    matchesModifyOtherKeys data code m = true ↔ parsed.codepoint = .int code ∧ parsed.modifier = .int m := by
  unfold matchesModifyOtherKeys
  rw [h]
  simp

theorem mem_of_lookup {α β : Type*} [BEq α] [LawfulBEq α] {table : List (α × β)} {k : α} {b : β} (h : table.lookup k = some b) :
    (k, b) ∈ table := by
  obtain ⟨front, back, rfl, -⟩ := List.lookup_eq_some_iff.mp h
  simp

/-- The data is none of the legacy sequences. -/
theorem ne_of_parseModify (h : parseModifyOtherKeysSequence data = some parsed) {literal : List ℕ}
    (hliteral : parseModifyOtherKeysSequence literal = none) : data ≠ literal := by
  rintro rfl
  cases hliteral.symm.trans h

theorem matchesLegacy_of_parseModify (h : parseModifyOtherKeysSequence data = some parsed) (name : List ℕ) (m : ℕ) :
    matchesLegacySequence data (sequencesOf LEGACY_KEY_SEQUENCES name) = false ∧ matchesLegacyModifierSequence data name m = false := by
  have htable : ∀ table ∈ [LEGACY_KEY_SEQUENCES, LEGACY_SHIFT_SEQUENCES, LEGACY_CTRL_SEQUENCES], ∀ entry ∈ table,
      ∀ literal ∈ entry.2, parseModifyOtherKeysSequence literal = none := by decide
  have hnone : ∀ table ∈ [LEGACY_KEY_SEQUENCES, LEGACY_SHIFT_SEQUENCES, LEGACY_CTRL_SEQUENCES],
      matchesLegacySequence data (sequencesOf table name) = false := by
    intro table hmem
    unfold matchesLegacySequence sequencesOf
    cases hlookup : table.lookup name with
    | none => rfl
    | some sequences =>
      rw [Bool.eq_false_iff]
      intro hcontains
      have hentry := mem_of_lookup hlookup
      exact ne_of_parseModify h (htable table hmem _ hentry data (List.contains_iff_mem.mp hcontains)) rfl
  refine ⟨hnone _ (by simp), ?_⟩
  unfold matchesLegacyModifierSequence
  rw [hnone _ (by simp), hnone _ (by simp)]
  simp

/-- When a special key matches. -/
def ReportedModify (parsed : ParsedModifyOtherKeysSequence) (m : ℕ) : SpecialKey → Prop
  | .escape => m = 0 ∧ parsed.codepoint = .int SpecialKey.escape.codepoint ∧ parsed.modifier = .int m
  | .space => parsed.codepoint = .int SpecialKey.space.codepoint ∧ parsed.modifier = .int m
  | .backspace => parsed.codepoint = .int SpecialKey.backspace.codepoint ∧ parsed.modifier = .int m
  | .tab => m ≠ 0 ∧ parsed.codepoint = .int SpecialKey.tab.codepoint ∧ parsed.modifier = .int m
  | .enter | .kpEnter => m ≠ 0 ∧ parsed.codepoint = .int SpecialKey.enter.codepoint ∧ parsed.modifier = .int m
  | _ => False

theorem matchesEnter_modify_iff (h : parseModifyOtherKeysSequence data = some parsed) (m : ℕ) :
    matchesEnter session data m = true ↔
      m ≠ 0 ∧ parsed.codepoint = .int SpecialKey.enter.codepoint ∧ parsed.modifier = .int m := by
  have hlong := three_le_of_parseModify h
  have hone : ∀ x, data ≠ [x] := fun x heq => by simp [heq] at hlong
  have htwo : ∀ x y, data ≠ [x, y] := fun x y heq => by simp [heq] at hlong
  have hkeypad : data ≠ ascii "\x1bOM" := ne_of_parseModify h (by decide)
  have hkitty : ∀ m, matchesKittyEnter data m = false := fun m => by
    simp [matchesKittyEnter, matchesKitty_of_parseModify h]
  by_cases hm : m = 0
  · subst hm
    simp [matchesEnter, hone, hkeypad, hkitty]
  · by_cases hshift : m = SHIFT
    · subst hshift
      simp [matchesEnter, hone, htwo, hkitty, matchesModify_iff h]
    · by_cases halt : m = ALT
      · subst halt
        simp [matchesEnter, htwo, hkitty, matchesModify_iff h]
      · simp [matchesEnter, hm, hshift, halt, hkitty, matchesModify_iff h]

theorem matchesSpecial_modify_iff (h : parseModifyOtherKeysSequence data = some parsed) (key : SpecialKey) (m : ℕ) :
    matchesSpecial session data key m = true ↔ ReportedModify parsed m key := by
  have hkitty := matchesKitty_of_parseModify h
  have hlong := three_le_of_parseModify h
  have hone : ∀ x, data ≠ [x] := fun x heq => by simp [heq] at hlong
  have htwo : ∀ x y, data ≠ [x, y] := fun x y heq => by simp [heq] at hlong
  have hfunctional : ∀ name, matchesFunctional data name key m = false := fun name => by
    obtain ⟨hlegacy, hmodifier⟩ := matchesLegacy_of_parseModify h name m
    simp [matchesFunctional, hlegacy, hmodifier, hkitty]
  cases key with
  | escape =>
    by_cases hm : m = 0
    · subst hm
      simp [matchesSpecial, matchesEscape, ReportedModify, hone, hkitty, matchesModify_iff h]
    · simp [matchesSpecial, matchesEscape, ReportedModify, hm]
  | space =>
    by_cases hm : m = 0
    · subst hm
      simp [matchesSpecial, matchesSpace, ReportedModify, hone, hkitty, matchesModify_iff h]
    · simp [matchesSpecial, matchesSpace, ReportedModify, hm, hone, htwo, hkitty, matchesModify_iff h]
  | backspace =>
    have hraw : ∀ m, matchesRawBackspace session data m = false := fun m => by simp [matchesRawBackspace, hone]
    simp [matchesSpecial, matchesBackspace, ReportedModify, hraw, htwo, hkitty, matchesModify_iff h]
  | tab =>
    have hbacktab : data ≠ ascii "\x1b[Z" := ne_of_parseModify h (by decide)
    by_cases hm : m = 0
    · subst hm
      simp [matchesSpecial, matchesTab, ReportedModify, hone, hkitty]
    · by_cases hshift : m = SHIFT
      · subst hshift
        simp [matchesSpecial, matchesTab, ReportedModify, hbacktab, hkitty, matchesModify_iff h]
      · simp [matchesSpecial, matchesTab, ReportedModify, hm, hshift, hkitty, matchesModify_iff h]
  | enter => exact matchesEnter_modify_iff h m
  | kpEnter => exact matchesEnter_modify_iff h m
  | delete | insert | home | end_ | pageUp | pageDown => simp [matchesSpecial, ReportedModify, hfunctional]
  | up | down => simp [matchesSpecial, matchesVertical, ReportedModify, hfunctional, hkitty, ascii, htwo]
  | left | right =>
    have halt : data ≠ ascii "\x1b[1;3D" ∧ data ≠ ascii "\x1b[1;3C" :=
      ⟨ne_of_parseModify h (by decide), ne_of_parseModify h (by decide)⟩
    have hctrl : data ≠ ascii "\x1b[1;5D" ∧ data ≠ ascii "\x1b[1;5C" :=
      ⟨ne_of_parseModify h (by decide), ne_of_parseModify h (by decide)⟩
    have hshort : data ≠ ascii "\x1bB" ∧ data ≠ ascii "\x1bb" ∧ data ≠ ascii "\x1bF" ∧ data ≠ ascii "\x1bf" :=
      ⟨htwo _ _, htwo _ _, htwo _ _, htwo _ _⟩
    have hlegacy : ∀ name, matchesLegacyModifierSequence data name CTRL = false := fun name => (matchesLegacy_of_parseModify h name _).2
    simp [matchesSpecial, matchesHorizontal, ReportedModify, hfunctional, hkitty, halt, hctrl, hshort, hlegacy]

/-- A code point that is normalized to one that is no letter is that one, but for the equivalents of the keypad. -/
theorem normalize_eq_iff {codepoint modifier : Num} {code : ℤ} (hletter : ¬ (97 ≤ code ∧ code ≤ 122))
    (h : normalizeShiftedLetterIdentityCodepoint (normalizeKittyFunctionalCodepoint codepoint) modifier = .int code) :
    normalizeKittyFunctionalCodepoint codepoint = codepoint ↔ codepoint = .int code := by
  have hkitty : normalizeKittyFunctionalCodepoint codepoint = .int code := by
    unfold normalizeShiftedLetterIdentityCodepoint at h
    split at h
    · next hupper =>
      obtain ⟨-, hbetween⟩ := hupper
      generalize normalizeKittyFunctionalCodepoint codepoint = normal at h hbetween
      cases normal with
      | infinity => cases hbetween
      | int n =>
        simp only [Num.between, Bool.and_eq_true, decide_eq_true_eq] at hbetween
        have := Num.int.inj h
        omega
    · exact h
  rw [hkitty]
  exact eq_comm

/-- The id of a special key. -/
theorem matchesKey_special_modify_iff (h : parseModifyOtherKeysSequence data = some parsed)
    (hm : effectiveModifier parsed.modifier < 16) {entry : SpecialKey × List ℕ} (hentry : entry ∈ KEY_NAMES)
    (hcode : effectiveCodepoint parsed.codepoint parsed.modifier none = .int entry.1.codepoint) :
    matchesKey session data (keyIdOf entry.2 (effectiveModifier parsed.modifier)) = true ↔
      parsed.modifier = .int (effectiveModifier parsed.modifier) ∧
        normalizeKittyFunctionalCodepoint parsed.codepoint = parsed.codepoint ∧ entry.1 ≠ .kpEnter ∧ 0 ≤ entry.1.codepoint ∧
          (entry.1 = .escape → effectiveModifier parsed.modifier = 0) ∧
          (entry.1 ∉ [SpecialKey.escape, .space, .backspace] → effectiveModifier parsed.modifier ≠ 0) := by
  have hletter : ¬ (97 ≤ entry.1.codepoint ∧ entry.1.codepoint ≤ 122) := by
    cases entry.1 <;> decide
  rw [effectiveCodepoint_none] at hcode
  rw [matchesKey_special hm hentry, matchesSpecial_modify_iff h, normalize_eq_iff hletter hcode]
  generalize effectiveModifier parsed.modifier = m
  have hkeypad : entry.1 = .kpEnter → parsed.codepoint ≠ .int SpecialKey.enter.codepoint := by
    intro hkey heq
    rw [hkey, heq, normalize_of_isPlain (isPlain_special .enter)] at hcode
    cases hcode
  generalize entry.1 = key at hkeypad
  cases key with
  | escape | space | backspace | tab | enter => simp [ReportedModify, SpecialKey.codepoint, and_comm, and_left_comm]
  | kpEnter => simpa [ReportedModify] using fun _ heq => absurd heq (hkeypad rfl)
  | _ => simp [ReportedModify, SpecialKey.codepoint]

/-- What is normalized to an ASCII character is one itself. -/
theorem normalizeKitty_of_small {codepoint modifier : Num} (hc : c < 128)
    (h : normalizeShiftedLetterIdentityCodepoint codepoint modifier = .int c) : normalizeKittyFunctionalCodepoint codepoint = codepoint := by
  have hsame : ∀ k < 128, normalizeKittyFunctionalCodepoint (.int (k : ℕ)) = .int (k : ℕ) := fun k hk => by
    rw [normalizeKittyFunctionalCodepoint, lookup_functional hk]
    rfl
  unfold normalizeShiftedLetterIdentityCodepoint at h
  split at h
  · next hupper =>
    cases codepoint with
    | infinity => rfl
    | int n =>
      have hbetween := hupper.2
      simp only [Num.between, Bool.and_eq_true, decide_eq_true_eq] at hbetween
      lift n to ℕ using by omega
      exact hsame n (by omega)
  · rw [h]
    exact hsame c hc

/-- The id of a letter, a digit or a symbol. -/
theorem matchesKey_character_modify_iff (h : parseModifyOtherKeysSequence data = some parsed)
    (hm : effectiveModifier parsed.modifier < 16) {codepoint : Num}
    (hcode : effectiveCodepoint parsed.codepoint parsed.modifier none = codepoint) (hchar : IsKeyChar (fromCharCode codepoint)) :
    matchesKey session data (keyIdOf [fromCharCode codepoint] (effectiveModifier parsed.modifier)) = true ↔
      parsed.modifier = .int (effectiveModifier parsed.modifier) ∧
        normalizeKittyFunctionalCodepoint parsed.codepoint = parsed.codepoint ∧ codepoint.between 0 0xffff ∧
          codepoint ≠ .int 0x2b ∧ effectiveModifier parsed.modifier ≠ 0 := by
  rw [effectiveCodepoint_none] at hcode
  have hwide : codepoint.between 0 0xffff → codepoint.between (-15) 0xffff := by
    cases codepoint with
    | infinity => exact id
    | int n =>
      simp only [Num.between, Bool.and_eq_true, decide_eq_true_eq]
      omega
  by_cases hplus : fromCharCode codepoint = 0x2b
  · rw [hplus, matchesKey, parseKeyId_plus hm]
    refine iff_of_false Bool.false_ne_true fun ⟨_, _, hbetween, hne, _⟩ => hne ?_
    rw [eq_int_of_between hchar (hwide hbetween), hplus]
    rfl
  · obtain ⟨hlt, -⟩ := lt_of_isKeyChar hchar
    rw [matchesKey_character hm hchar hplus, matchesCharacter_of_three_le (three_le_of_parseModify h), matchesKitty_of_parseModify h]
    have hexpected : ∀ modifier, normalizeShiftedLetterIdentityCodepoint (.int (fromCharCode codepoint : ℕ)) modifier =
        .int (fromCharCode codepoint : ℕ) := by
      intro modifier
      have hplain := normalize_of_isPlain (isPlain_character hchar) modifier
      rwa [normalizeKittyFunctionalCodepoint, (isPlain_character hchar).1] at hplain
    have hprintable : effectiveModifier parsed.modifier ≠ 0 →
        (matchesPrintableModifyOtherKeys data (fromCharCode codepoint) (effectiveModifier parsed.modifier) = true ↔
          parsed.modifier = .int (effectiveModifier parsed.modifier) ∧
            normalizeShiftedLetterIdentityCodepoint parsed.codepoint parsed.modifier = .int (fromCharCode codepoint : ℕ)) := by
      intro hne
      unfold matchesPrintableModifyOtherKeys
      rw [if_neg hne, h]
      dsimp only
      rw [hexpected, Bool.and_eq_true, decide_eq_true_eq, decide_eq_true_eq]
    simp only [Bool.false_or, Bool.and_eq_true, decide_eq_true_eq]
    constructor
    · rintro ⟨hne, hmatch⟩
      obtain ⟨hmodifier, hsame⟩ := (hprintable hne).mp hmatch
      have hsmall := normalizeKitty_of_small hlt hsame
      rw [hsmall, hsame] at hcode
      refine ⟨hmodifier, hsmall, ?_, fun heq => hplus (by rw [heq]; rfl), hne⟩
      rw [← hcode]
      simp only [Num.between, Bool.and_eq_true, decide_eq_true_eq]
      omega
    · rintro ⟨hmodifier, hnormal, hbetween, -, hne⟩
      refine ⟨hne, (hprintable hne).mpr ⟨hmodifier, ?_⟩⟩
      rw [hnormal] at hcode
      exact hcode.trans (eq_int_of_between hchar (hwide hbetween))

/-- **A `modifyOtherKeys` sequence matches its id** if it is consistent, and only then. -/
theorem agrees_modify_iff (h : parseModifyOtherKeysSequence data = some parsed) : Agrees session data ↔ ModifyConsistent parsed := by
  have hparse : parseKey session data =
      ((formatParsedKey parsed.codepoint parsed.modifier none).map Parsed.keyId).getD .undefined := by
    unfold parseKey
    rw [parseKitty_of_parseModify h]
    dsimp only
    rw [h]
  unfold Agrees ModifyConsistent
  rw [hparse, agrees_format_iff]
  dsimp only
  have hname : ∀ name, effectiveModifier parsed.modifier < 16 →
      keyNameOf (effectiveCodepoint parsed.codepoint parsed.modifier none) = some name →
        (matchesKey session data (keyIdOf name (effectiveModifier parsed.modifier)) = true ↔
          parsed.modifier = .int (effectiveModifier parsed.modifier) ∧
            normalizeKittyFunctionalCodepoint parsed.codepoint = parsed.codepoint ∧
              effectiveCodepoint parsed.codepoint parsed.modifier none ≠ .int SpecialKey.kpEnter.codepoint ∧
                (effectiveCodepoint parsed.codepoint parsed.modifier none).between 0 0xffff ∧
                  effectiveCodepoint parsed.codepoint parsed.modifier none ≠ .int 0x2b ∧
                    (effectiveCodepoint parsed.codepoint parsed.modifier none = .int SpecialKey.escape.codepoint →
                      effectiveModifier parsed.modifier = 0) ∧
                    (effectiveCodepoint parsed.codepoint parsed.modifier none ∉
                      [SpecialKey.escape, .space, .backspace].map (Num.int ·.codepoint) → effectiveModifier parsed.modifier ≠ 0)) := by
    intro name hm hname
    rcases keyNameOf_eq_some hname with ⟨entry, hentry, hcode, rfl⟩ | ⟨hspecial, hchar, rfl⟩
    · rw [matchesKey_special_modify_iff h hm hentry hcode, hcode]
      generalize entry.1 = key
      cases key <;> simp [SpecialKey.codepoint, Num.between]
    · rw [matchesKey_character_modify_iff h hm rfl hchar]
      have hnot : effectiveCodepoint parsed.codepoint parsed.modifier none ∉
          [SpecialKey.escape, .space, .backspace].map (Num.int ·.codepoint) := by
        intro hmem
        obtain ⟨key, -, hkey⟩ := List.mem_map.mp hmem
        exact hspecial key hkey.symm
      simp only [ne_eq, hspecial .kpEnter, hspecial .escape, hnot, not_false_eq_true, true_and, forall_const, false_imp_iff]
  constructor
  · intro hagrees hm hnamed
    obtain ⟨name, hsome⟩ := Option.ne_none_iff_exists'.mp hnamed
    exact (hname name hm hsome).mp (hagrees name hm hsome)
  · intro hconsistent name hm hsome
    exact (hname name hm hsome).mpr (hconsistent hm (by rw [hsome]; exact Option.some_ne_none name))

end ModifyOtherKeys

/-! ### Legacy sequences and their ids -/

/-- The ids of the tables match, those of `firstKeys` if the sequence is consistent. The ids of the other sequences do
not. -/
theorem matchesKey_tables : ∀ kitty windows : Bool,
    (∀ entry ∈ LEGACY_SEQUENCE_KEY_IDS ++ lastKeys, matchesKey ⟨kitty, windows⟩ entry.1 entry.2 = true) ∧
    (∀ entry ∈ firstKeys ⟨kitty, windows⟩, LegacyConsistent ⟨kitty, windows⟩ entry.1 →
      matchesKey ⟨kitty, windows⟩ entry.1 entry.2 = true) ∧
    (∀ data ∈ [[ESC, 0x0d], [0x0a]], matchesKey ⟨true, windows⟩ data (ascii "shift+enter") = true) ∧
    (∀ data ∈ UNMATCHED_CHARACTERS, parseLegacyKey ⟨kitty, windows⟩ data = .keyId data ∧
      matchesKey ⟨kitty, windows⟩ data data = false) ∧
    ∀ data ∈ [[0], [ESC, ESC], [ESC, 0x1c], [ESC, 0x1d], [ESC, 0x1f]],
      ∃ entry ∈ firstKeys ⟨true, windows⟩, parseLegacyKey ⟨true, windows⟩ data = .keyId entry.2 ∧
        matchesKey ⟨true, windows⟩ data entry.2 = false := by
  decide +kernel

theorem keyIdOf_eq (name : List ℕ) (m : ℕ) : keyIdOf name m = (modifierNames m).flatMap (· ++ [0x2b]) ++ name :=
  intercalate_concat _ _ _

theorem rawCtrlChar_letter (hc : 1 ≤ c ∧ c ≤ 26) : IsKeyChar (c + 96) ∧ rawCtrlChar (c + 96) = some c := by
  have hletter : isLetter (c + 96) = true := by
    simp only [isLetter, Bool.and_eq_true, decide_eq_true_eq]
    omega
  have hand : (c + 96) &&& 0x1f = c := by
    rw [show 0x1f = 2 ^ 5 - 1 from rfl, Nat.and_two_pow_sub_one_eq_mod]
    omega
  exact ⟨by simp [IsKeyChar, hletter], by simp [rawCtrlChar, hletter, hand]⟩

/-- A key behind an escape character. -/
theorem matchesKey_of_shortKey {k : List ℕ} (h : shortKey session data = some k) : matchesKey session data k = true := by
  unfold shortKey at h
  split at h
  · next code =>
    split at h
    · cases h
    · next hkitty =>
      unfold altKey at h
      split at h
      · next hcontrol =>
        obtain ⟨hchar, hraw⟩ := rawCtrlChar_letter hcontrol
        have hid : ascii "ctrl+alt+" = (modifierNames (CTRL + ALT)).flatMap (· ++ [0x2b]) := by decide
        rw [← Option.some.inj h, hid, ← keyIdOf_eq, matchesKey_character (by decide) hchar (by omega)]
        simp [matchesCharacter, hkitty, hraw, ESC]
      · split at h
        · next hkey =>
          have hid : ascii "alt+" = (modifierNames ALT).flatMap (· ++ [0x2b]) := by decide
          have hchar : IsKeyChar code := by
            simp only [Bool.or_eq_true, decide_eq_true_eq] at hkey
            rcases hkey with hkey | rfl
            · simp [IsKeyChar, hkey]
            · unfold IsKeyChar
              decide
          rw [← Option.some.inj h, hid, ← keyIdOf_eq, matchesKey_character (by decide) hchar (by rintro rfl; revert hkey; decide)]
          simp [matchesCharacter, hkitty, hkey, ESC, ALT, CTRL]
        · cases h
  · cases h

/-- A single character. -/
theorem matchesKey_of_rawKey {k : List ℕ} (h : rawKey c = some k) (hspace : c ≠ 0x20) (hchar : [c] ∉ UNMATCHED_CHARACTERS) :
    matchesKey session [c] k = true := by
  unfold rawKey at h
  split at h
  · next hcontrol =>
    obtain ⟨hkey, hraw⟩ := rawCtrlChar_letter hcontrol
    have hid : ascii "ctrl+" = (modifierNames CTRL).flatMap (· ++ [0x2b]) := by decide
    rw [← Option.some.inj h, hid, ← keyIdOf_eq, matchesKey_character (by decide) hkey (by omega)]
    simp [matchesCharacter, hraw]
  · split at h
    · next hprintable =>
      have hall : ∀ c < 127, 32 < c → [c] ∉ UNMATCHED_CHARACTERS →
          (isLetter c || isDigit c || SYMBOL_KEYS.contains c) = true ∧ c ≠ 0x2b := by
        decide
      obtain ⟨hkey, hplus⟩ := hall c (by omega) (by omega) hchar
      obtain rfl : keyIdOf [c] 0 = k := Option.some.inj h
      rw [matchesKey_character (by decide) hkey hplus]
      simp [matchesCharacter]
    · cases h

/-- The id of a consistent sequence matches it. -/
theorem matchesKey_of_consistent {k : List ℕ} (hconsistent : LegacyConsistent session data)
    (h : parseLegacyKey session data = .keyId k) : matchesKey session data k = true := by
  unfold parseLegacyKey at h
  split at h
  · next hnewline =>
    obtain ⟨kitty, windows⟩ := session
    obtain ⟨rfl, hdata⟩ := hnewline
    obtain rfl := Parsed.keyId.inj h
    exact (matchesKey_tables true windows).2.2.1 data (by simpa using hdata)
  · split at h
    · cases h
    · split at h
      · next id hid =>
        obtain rfl := Parsed.keyId.inj h
        simp only [Option.orElse_eq_orElse, Option.orElse_eq_or, Option.or_eq_some_iff] at hid
        rcases hid with hlegacy | ⟨-, hfirst | ⟨hnone, hshort | ⟨-, hlast | ⟨-, hraw⟩⟩⟩⟩
        · exact (matchesKey_tables _ _).1 _ (List.mem_append_left _ (mem_of_lookup hlegacy))
        · exact (matchesKey_tables _ _).2.1 _ (mem_of_lookup hfirst) hconsistent
        · exact matchesKey_of_shortKey hshort
        · exact (matchesKey_tables _ _).1 _ (List.mem_append_right _ (mem_of_lookup hlast))
        · split at hraw
          · refine matchesKey_of_rawKey hraw ?_ hconsistent.1
            rintro rfl
            have hspace : ∀ kitty windows : Bool, (firstKeys ⟨kitty, windows⟩).lookup [0x20] ≠ none := by decide
            exact hspace _ _ hnone
          · cases hraw
      · cases h

theorem agrees_legacy_iff (hkitty : parseKittySequence data = none) (hmodify : parseModifyOtherKeysSequence data = none) :
    Agrees session data ↔ LegacyConsistent session data := by
  have hparse : parseKey session data = parseLegacyKey session data := by
    unfold parseKey
    rw [hkitty]
    dsimp only
    rw [hmodify]
  unfold Agrees
  rw [hparse]
  refine ⟨fun h => ⟨fun hchar => ?_, fun hactive hcontrol => ?_⟩, fun h k hk => matchesKey_of_consistent h hk⟩
  · obtain ⟨hid, hfalse⟩ := (matchesKey_tables session.kittyProtocolActive session.windowsTerminal).2.2.2.1 data hchar
    exact Bool.false_ne_true (hfalse.symm.trans (h data hid))
  · obtain ⟨kitty, windows⟩ := session
    obtain rfl : kitty = true := hactive
    obtain ⟨entry, -, hid, hfalse⟩ := (matchesKey_tables true windows).2.2.2.2 data hcontrol
    exact Bool.false_ne_true (hfalse.symm.trans (h entry.2 hid))

/-- **The key id that is found for the data of a key press matches the data** if the sequence is consistent, and
only then. -/
theorem agrees_iff (session : Session) (data : List ℕ) : Agrees session data ↔ Consistent session data := by
  unfold Consistent
  split
  · next kitty hkitty => exact agrees_kitty_iff hkitty
  · next hkitty =>
    split
    · next parsed hmodify => exact agrees_modify_iff hmodify
    · next hmodify => exact agrees_legacy_iff hkitty hmodify

/-- `+`, and `escape` with `shift` in the Kitty protocol. -/
theorem agrees_plus : ¬ Agrees ⟨false, false⟩ (ascii "+") ∧ ¬ Agrees ⟨true, false⟩ (ascii "\x1b[27;2u") := by
  refine ⟨fun h => ((agrees_legacy_iff (by decide) (by decide)).mp h).1 (by decide), fun h => ?_⟩
  exact absurd (h (ascii "shift+escape") (by decide +kernel)) (by decide +kernel)

end Trek.Keys
