/-
# The columns of a text

`visibleWidth` counts the terminal columns of a text: its escape codes have none, and every grapheme of
what is left has those that `graphemeWidth` says. Where the graphemes end, and which characters are
wide, is Unicode data that the code gets from `Intl.Segmenter`, from regular expressions and from
`eastAsianWidth`; here it is `Unicode`, with the few laws of it that the code relies on.
-/
import Trek.Lib.Utf16
import Trek.Tui.Ansi

namespace Trek.Tui

/-- `isPrintableAscii` of one character. -/
def isPrintableChar (c : ℕ) : Bool := 0x20 ≤ c && c ≤ 0x7e

/-- `isPrintableAscii`. -/
def isPrintableAscii (text : List ℕ) : Bool := text.all isPrintableChar

/-- The code points of a text. A surrogate without its other half is one of its own. -/
def codePoints : List ℕ → List ℕ
  | [] => []
  | [code] => [code]
  | code :: next :: text =>
    if isHighSurrogate code && isLowSurrogate next then
      (0x10000 + (code - 0xD800) * 0x400 + (next - 0xDC00)) :: codePoints text
    else code :: codePoints (next :: text)

/-- What the code asks of Unicode: the graphemes of a text, properties of code points, the emoji, and
the columns of a code point. -/
structure Unicode where
  /-- `Intl.Segmenter` with granularity `grapheme`. -/
  graphemes : List ℕ → List (List ℕ)
  /-- `\p{Default_Ignorable_Code_Point}`. -/
  defaultIgnorable : ℕ → Bool
  /-- `\p{Mark}`. -/
  mark : ℕ → Bool
  /-- `\p{Format}`. -/
  format : ℕ → Bool
  /-- `/^\p{RGI_Emoji}$/v`. -/
  rgiEmoji : List ℕ → Bool
  eastAsianWidth : ℕ → ℕ
  /-- The graphemes make up the text. -/
  flatten_graphemes : ∀ text, (graphemes text).flatten = text
  graphemes_ne_nil : ∀ text, ∀ g ∈ graphemes text, g ≠ []
  /-- Where a grapheme ends, the text can be taken apart. -/
  graphemes_restart : ∀ text before after, graphemes text = before ++ after →
    graphemes before.flatten = before ∧ graphemes after.flatten = after
  /-- Printable ASCII characters are graphemes of one column. -/
  graphemes_ascii : ∀ text, isPrintableAscii text = true → graphemes text = text.map ([·])
  ascii_plain : ∀ c, isPrintableChar c = true →
    defaultIgnorable c = false ∧ mark c = false ∧ format c = false ∧ eastAsianWidth c = 1

namespace Unicode

variable (u : Unicode)

/-- `\p{Control}`. -/
def control (c : ℕ) : Bool := c ≤ 0x1f || 0x7f ≤ c && c ≤ 0x9f

/-- `\p{Surrogate}`. -/
def surrogate (c : ℕ) : Bool := isHighSurrogate c || isLowSurrogate c

/-- `zeroWidthRegex`. -/
def isZeroWidth (segment : List ℕ) : Bool :=
  segment ≠ [] && (codePoints segment).all fun c => u.defaultIgnorable c || control c || u.mark c || surrogate c

/-- The class of `leadingNonPrintingRegex`. -/
def isNonPrinting (c : ℕ) : Bool := u.defaultIgnorable c || control c || u.format c || u.mark c || surrogate c

/-- `couldBeEmoji`. -/
def couldBeEmoji (segment : List ℕ) : Bool :=
  let cp := (codePoints segment).headD 0
  0x1f000 ≤ cp && cp ≤ 0x1fbff || 0x2300 ≤ cp && cp ≤ 0x23ff || 0x2600 ≤ cp && cp ≤ 0x27bf ||
    0x2b50 ≤ cp && cp ≤ 0x2b55 || segment.contains 0xfe0f || 2 < segment.length

/-- The columns of halfwidth and fullwidth forms and of AM vowels behind the base of a grapheme. -/
def trailingWidth (c : ℕ) : ℕ :=
  if 0xff00 ≤ c ∧ c ≤ 0xffef then u.eastAsianWidth c else if c = 0x0e33 ∨ c = 0x0eb3 then 1 else 0

/-- `graphemeWidth`. -/
def graphemeWidth (segment : List ℕ) : ℕ :=
  if segment = [0x09] then 3
  else if u.isZeroWidth segment then 0
  else if couldBeEmoji segment && u.rgiEmoji segment then 2
  else
    match (codePoints segment).find? (!u.isNonPrinting ·) with
    | none => 0
    | some cp =>
      if 0x1f1e6 ≤ cp ∧ cp ≤ 0x1f1ff then 2
      else u.eastAsianWidth cp + ((codePoints (segment.drop 1)).map u.trailingWidth).sum

/-- The columns of the graphemes of a text. -/
def columns (text : List ℕ) : ℕ := ((u.graphemes text).map u.graphemeWidth).sum

end Unicode

/-- Tabs are three blanks. -/
def expandTabs (text : List ℕ) : List ℕ := text.flatMap fun c => if c = 0x09 then [0x20, 0x20, 0x20] else [c]

/-- `visibleWidth`. What it finds in its cache is what it would count. -/
def visibleWidth (u : Unicode) (str : List ℕ) : ℕ :=
  if str = [] then 0
  else if isPrintableAscii str then str.length
  else u.columns (stripAnsi (expandTabs str))

/-! ### Columns -/

namespace Unicode

variable {u : Unicode} {text : List ℕ}

theorem codePoints_singleton (c : ℕ) : codePoints [c] = [c] := rfl

theorem graphemeWidth_ascii {c : ℕ} (h : isPrintableChar c = true) : u.graphemeWidth [c] = 1 := by
  obtain ⟨hignorable, hmark, hformat, hwidth⟩ := u.ascii_plain c h
  have hrange : 0x20 ≤ c ∧ c ≤ 0x7e := by
    unfold isPrintableChar at h
    simpa using h
  have hcontrol : control c = false := by
    unfold control
    simp
    omega
  have hsurrogate : surrogate c = false := by
    unfold surrogate isHighSurrogate isLowSurrogate
    simp
    omega
  have hemoji : couldBeEmoji [c] = false := by
    unfold couldBeEmoji
    simp [codePoints_singleton]
    omega
  have hzero : u.isZeroWidth [c] = false := by simp [isZeroWidth, codePoints_singleton, hignorable, hcontrol, hmark, hsurrogate]
  have hprinting : u.isNonPrinting c = false := by simp [isNonPrinting, hignorable, hcontrol, hmark, hformat, hsurrogate]
  unfold graphemeWidth
  rw [if_neg (by simp; omega), hzero, hemoji]
  simp [codePoints, hprinting, hwidth]
  omega

/-- A printable ASCII text has as many columns as characters. -/
theorem columns_ascii (h : isPrintableAscii text = true) : u.columns text = text.length := by
  have hmem : ∀ c ∈ text, isPrintableChar c = true := List.all_eq_true.mp h
  rw [columns, u.graphemes_ascii text h, List.map_map]
  have hone : text.map (u.graphemeWidth ∘ fun c => [c]) = text.map fun _ => 1 :=
    List.map_congr_left fun c hc => graphemeWidth_ascii (hmem c hc)
  rw [hone]
  simp

theorem graphemes_nil : u.graphemes [] = [] := by
  have hflatten := u.flatten_graphemes []
  cases hg : u.graphemes [] with
  | nil => rfl
  | cons g rest =>
    rw [hg, List.flatten_cons, List.append_eq_nil_iff] at hflatten
    exact absurd hflatten.1 (u.graphemes_ne_nil [] g (by rw [hg]; exact List.mem_cons_self))

@[simp] theorem columns_nil : u.columns [] = 0 := by rw [columns, graphemes_nil]; rfl

end Unicode

variable {u : Unicode} {text : List ℕ}

/-- Unicode for text without combining characters: every character is a grapheme, and the CJK
ideographs are wide. -/
def Unicode.uncombined : Unicode where
  graphemes := List.map ([·])
  defaultIgnorable := fun _ => false
  mark := fun _ => false
  format := fun _ => false
  rgiEmoji := fun _ => false
  eastAsianWidth := fun c => if 0x4e00 ≤ c ∧ c ≤ 0x9fff then 2 else 1
  flatten_graphemes := fun text => List.flatMap_singleton' text
  graphemes_ne_nil := fun text g hg => by
    obtain ⟨c, -, rfl⟩ := List.mem_map.mp hg
    exact List.cons_ne_nil c []
  graphemes_restart := fun text before after h => by
    have hsingle : ∀ l : List (List ℕ), (∃ l' : List ℕ, l = l'.map ([·])) → l.flatten.map ([·]) = l := by
      rintro _ ⟨l', rfl⟩
      exact congrArg (List.map ([·])) (List.flatMap_singleton' l')
    obtain ⟨l₁, l₂, -, h₁, h₂⟩ := List.map_eq_append_iff.mp h
    exact ⟨hsingle before ⟨l₁, h₁.symm⟩, hsingle after ⟨l₂, h₂.symm⟩⟩
  graphemes_ascii := fun _ _ => rfl
  ascii_plain := fun c hc => by
    unfold isPrintableChar at hc
    simp only [Bool.and_eq_true, decide_eq_true_eq] at hc
    exact ⟨rfl, rfl, rfl, if_neg (by omega)⟩

theorem expandTabs_of_notMem (h : 0x09 ∉ text) : expandTabs text = text := by
  calc expandTabs text
    _ = text.flatMap ([·]) := List.flatMap_congr fun c hc => if_neg (by rintro rfl; exact h hc)
    _ = text := List.flatMap_singleton' text

/-- The fast path of `visibleWidth` counts what the slow path counts. -/
theorem visibleWidth_eq (text : List ℕ) : visibleWidth u text = u.columns (stripAnsi (expandTabs text)) := by
  unfold visibleWidth
  split
  · next h =>
    subst h
    exact Unicode.columns_nil.symm
  · split
    · next h =>
      have hmem : ∀ c ∈ text, isPrintableChar c = true := List.all_eq_true.mp h
      have htab : 0x09 ∉ text := fun hc => absurd (hmem _ hc) (by decide)
      have hesc : ESC ∉ text := fun hc => absurd (hmem _ hc) (by decide)
      rw [expandTabs_of_notMem htab, stripAnsi_of_notMem hesc, Unicode.columns_ascii h]
    · rfl

/-- A text without tabs and escapes has the columns of its graphemes. -/
theorem visibleWidth_plain (htab : 0x09 ∉ text) (hesc : ESC ∉ text) : visibleWidth u text = u.columns text := by
  rw [visibleWidth_eq, expandTabs_of_notMem htab, stripAnsi_of_notMem hesc]

end Trek.Tui
