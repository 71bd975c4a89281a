/-
# Escape codes in a text

`extractAnsiCode` finds the escape code that starts at a place of a text, and every function on texts
for the terminal reads a text in the same way: code by code, and character by character in between.
`scan` is that reading. Escape codes that are complete stay what they are whatever stands before or
after them, so what is written as codes and characters is read back (`scan_exact`).
-/
import Trek.Tui.StdinBuffer

namespace Trek.Tui

/-- `BEL`. -/
def BEL : ℕ := 0x07

/-- `/[mGKHJ]/`, the last character of a CSI sequence. -/
def isCsiFinal (c : ℕ) : Bool := c = 0x6d || c = 0x47 || c = 0x4b || c = 0x48 || c = 0x4a

/-- The length of a CSI sequence, without its first two characters. -/
def csiLength : List ℕ → Option ℕ
  | [] => none
  | c :: text => if isCsiFinal c then some 1 else (csiLength text).map (· + 1)

/-- The length of an OSC or APC sequence, without its first two characters: it ends with `BEL` or with
`ESC \`. -/
def stringLength : List ℕ → Option ℕ
  | [] => none
  | c :: text =>
    if c = BEL then some 1
    else if c = ESC ∧ text.head? = some 0x5c then some 2
    else (stringLength text).map (· + 1)

/-- `extractAnsiCode`: the length of the escape code at the start of a text. -/
def extractAnsiCode : List ℕ → Option ℕ
  | c :: next :: text =>
    if c ≠ ESC then none
    else if next = 0x5b then (csiLength text).map (· + 2)
    else if next = 0x5d then (stringLength text).map (· + 2)
    else if next = 0x5f then (stringLength text).map (· + 2)
    else none
  | _ => none

/-- What a text is read as. -/
inductive Item
  | code (sequence : List ℕ)
  | char (c : ℕ)
  deriving DecidableEq

/-- The reading of a text, without as many characters as are left of a code. -/
def scanFrom : ℕ → List ℕ → List Item
  | _, [] => []
  | skip + 1, _ :: text => scanFrom skip text
  | 0, c :: text =>
    match extractAnsiCode (c :: text) with
    | some length => .code ((c :: text).take length) :: scanFrom (length - 1) text
    | none => .char c :: scanFrom 0 text

/-- The loop `while (i < text.length)` around `extractAnsiCode`. -/
def scan (text : List ℕ) : List Item := scanFrom 0 text

namespace Item

/-- The text of an item. -/
def text : Item → List ℕ
  | code sequence => sequence
  | char c => [c]

/-- The character that an item shows. -/
def char? : Item → Option ℕ
  | code _ => none
  | char c => some c

/-- The code of an item. -/
def code? : Item → Option (List ℕ)
  | code sequence => some sequence
  | char _ => none

end Item

/-- The text of items. -/
def render (items : List Item) : List ℕ := items.flatMap Item.text

/-- The text without its escape codes. -/
def stripAnsi (text : List ℕ) : List ℕ := (scan text).filterMap Item.char?

variable {text more : List ℕ} {length : ℕ}

/-! ### One code -/

theorem csiLength_bounds : ∀ {text : List ℕ} {length : ℕ}, csiLength text = some length → 0 < length ∧ length ≤ text.length
  | c :: text, length, h => by
    unfold csiLength at h
    split at h
    · obtain rfl := Option.some.inj h
      simp
    · obtain ⟨n, hn, rfl⟩ := Option.map_eq_some_iff.mp h
      have := csiLength_bounds hn
      rw [List.length_cons]
      omega

theorem stringLength_bounds : ∀ {text : List ℕ} {length : ℕ}, stringLength text = some length →
    0 < length ∧ length ≤ text.length
  | c :: text, length, h => by
    unfold stringLength at h
    split at h
    · obtain rfl := Option.some.inj h
      simp
    · split at h
      · next hst =>
        obtain rfl := Option.some.inj h
        obtain ⟨rest, rfl⟩ : ∃ rest, text = 0x5c :: rest := by
          cases text with
          | nil => exact absurd hst.2 nofun
          | cons d rest => exact ⟨rest, by rw [Option.some.inj hst.2]⟩
        simp
      · obtain ⟨n, hn, rfl⟩ := Option.map_eq_some_iff.mp h
        have := stringLength_bounds hn
        rw [List.length_cons]
        omega

/-- A code starts with an escape, and ends in the text. -/
theorem extractAnsiCode_bounds (h : extractAnsiCode text = some length) :
    text.head? = some ESC ∧ 2 < length ∧ length ≤ text.length := by
  unfold extractAnsiCode at h
  split at h
  · next c next text =>
    split at h
    · cases h
    · next hesc =>
      refine ⟨congrArg some (not_not.mp hesc), ?_⟩
      simp only [List.length_cons]
      split at h
      · obtain ⟨n, hn, rfl⟩ := Option.map_eq_some_iff.mp h
        have := csiLength_bounds hn
        omega
      · split at h
        · obtain ⟨n, hn, rfl⟩ := Option.map_eq_some_iff.mp h
          have := stringLength_bounds hn
          omega
        · split at h
          · obtain ⟨n, hn, rfl⟩ := Option.map_eq_some_iff.mp h
            have := stringLength_bounds hn
            omega
          · cases h
  · cases h

theorem extractAnsiCode_of_ne {c : ℕ} (h : c ≠ ESC) (text : List ℕ) : extractAnsiCode (c :: text) = none := by
  by_contra hne
  obtain ⟨length, hlength⟩ := Option.ne_none_iff_exists'.mp hne
  exact h (Option.some.inj (extractAnsiCode_bounds hlength).1)

theorem csiLength_append (more : List ℕ) : ∀ {text : List ℕ} {length : ℕ}, csiLength text = some length →
    csiLength (text ++ more) = some length
  | c :: text, length, h => by
    unfold csiLength at h
    rw [List.cons_append, csiLength]
    split at h
    · next hc => rw [if_pos hc, h]
    · next hc =>
      obtain ⟨n, hn, rfl⟩ := Option.map_eq_some_iff.mp h
      rw [if_neg hc, csiLength_append more hn, Option.map_some]

theorem stringLength_append (more : List ℕ) : ∀ {text : List ℕ} {length : ℕ}, stringLength text = some length →
    stringLength (text ++ more) = some length
  | c :: text, length, h => by
    unfold stringLength at h
    rw [List.cons_append, stringLength]
    split at h
    · next hc => rw [if_pos hc, h]
    · next hc =>
      rw [if_neg hc]
      split at h
      · next hst =>
        rw [if_pos ⟨hst.1, by rw [List.head?_append, hst.2]; rfl⟩, h]
      · next hst =>
        obtain ⟨n, hn, rfl⟩ := Option.map_eq_some_iff.mp h
        have hne : text ≠ [] := by
          rintro rfl
          cases hn
        rw [if_neg (by rwa [List.head?_append_of_ne_nil text hne]), stringLength_append more hn, Option.map_some]

/-- A code stays a code in a longer text. -/
theorem extractAnsiCode_append (more : List ℕ) (h : extractAnsiCode text = some length) :
    extractAnsiCode (text ++ more) = some length := by
  unfold extractAnsiCode at h
  split at h
  · next c next text =>
    rw [List.cons_append, List.cons_append, extractAnsiCode]
    split at h
    · cases h
    · next hesc =>
      rw [if_neg hesc]
      split at h
      · next hcsi =>
        obtain ⟨n, hn, rfl⟩ := Option.map_eq_some_iff.mp h
        rw [if_pos hcsi, csiLength_append more hn, Option.map_some]
      · next hcsi =>
        rw [if_neg hcsi]
        split at h
        · next hosc =>
          obtain ⟨n, hn, rfl⟩ := Option.map_eq_some_iff.mp h
          rw [if_pos hosc, stringLength_append more hn, Option.map_some]
        · next hosc =>
          rw [if_neg hosc]
          split at h
          · next hapc =>
            obtain ⟨n, hn, rfl⟩ := Option.map_eq_some_iff.mp h
            rw [if_pos hapc, stringLength_append more hn, Option.map_some]
          · cases h
  · cases h

/-- A text is one escape code. -/
def IsCode (sequence : List ℕ) : Prop := extractAnsiCode sequence = some sequence.length

instance (sequence : List ℕ) : Decidable (IsCode sequence) := inferInstanceAs (Decidable (_ = _))

/-! ### The reading of a text -/

theorem scanFrom_drop : ∀ (skip : ℕ) (text : List ℕ), scanFrom skip text = scan (text.drop skip)
  | 0, _ => rfl
  | _ + 1, [] => rfl
  | skip + 1, _ :: text => scanFrom_drop skip text

@[simp] theorem scan_nil : scan [] = [] := rfl

theorem scan_of_code (h : extractAnsiCode text = some length) :
    scan text = .code (text.take length) :: scan (text.drop length) := by
  have hbounds := extractAnsiCode_bounds h
  cases text with
  | nil => cases h
  | cons c text =>
    obtain ⟨n, rfl⟩ : ∃ n, length = n + 1 := ⟨length - 1, by omega⟩
    rw [scan, scanFrom, h]
    dsimp only
    rw [scanFrom_drop, Nat.add_sub_cancel, List.drop_succ_cons]

theorem scan_of_char {c : ℕ} (h : extractAnsiCode (c :: text) = none) : scan (c :: text) = .char c :: scan text := by
  rw [scan, scanFrom, h]
  rfl

theorem render_cons (item : Item) (items : List Item) : render (item :: items) = item.text ++ render items := List.flatMap_cons

/-- Nothing of a text is lost when it is read. -/
theorem render_scanFrom : ∀ (skip : ℕ) (text : List ℕ), render (scanFrom skip text) = text.drop skip
  | 0, [] | _ + 1, [] => rfl
  | skip + 1, _ :: text => render_scanFrom skip text
  | 0, c :: text => by
    rw [scanFrom]
    split
    · next length h =>
      obtain ⟨n, rfl⟩ : ∃ n, length = n + 1 := ⟨length - 1, by have := (extractAnsiCode_bounds h).2.1; omega⟩
      rw [render_cons, render_scanFrom]
      exact List.take_append_drop (n + 1) (c :: text)
    · rw [render_cons, render_scanFrom]
      rfl

namespace Item

/-- A complete code, or a character that is no escape. -/
def Clean : Item → Prop
  | code sequence => IsCode sequence
  | char c => c ≠ ESC

instance : DecidablePred Clean
  | code sequence => inferInstanceAs (Decidable (IsCode sequence))
  | char c => inferInstanceAs (Decidable (c ≠ ESC))

end Item

/-- An item at the start of a text is read as what it is. -/
theorem scan_text_append {item : Item} (h : item.Clean) (more : List ℕ) : scan (item.text ++ more) = item :: scan more := by
  cases item with
  | code sequence =>
    rw [Item.text, scan_of_code (extractAnsiCode_append more h), List.take_left, List.drop_left]
  | char c => exact scan_of_char (extractAnsiCode_of_ne h more)

theorem scan_render_append : ∀ {items : List Item}, (∀ item ∈ items, item.Clean) → ∀ more,
    scan (render items ++ more) = items ++ scan more
  | [], _, _ => rfl
  | item :: items, h, more => by
    obtain ⟨hitem, hitems⟩ := List.forall_mem_cons.mp h
    rw [render_cons, List.append_assoc, scan_text_append hitem, scan_render_append hitems, List.cons_append]

/-- **Items are read back.** -/
theorem scan_render {items : List Item} (h : ∀ item ∈ items, item.Clean) : scan (render items) = items := by
  have happend := scan_render_append h []
  rwa [List.append_nil, scan_nil, List.append_nil] at happend

theorem scan_of_notMem (h : ESC ∉ text) : scan text = text.map Item.char := by
  have hitems : ∀ item ∈ text.map Item.char, item.Clean := by
    intro item hitem
    obtain ⟨c, hc, rfl⟩ := List.mem_map.mp hitem
    rintro rfl
    exact h hc
  have hrender : render (text.map Item.char) = text := by
    rw [render, List.flatMap_map]
    exact List.flatMap_singleton' text
  have hscan := scan_render hitems
  rwa [hrender] at hscan

/-- A text without escapes has nothing to take out. -/
theorem stripAnsi_of_notMem (h : ESC ∉ text) : stripAnsi text = text := by
  rw [stripAnsi, scan_of_notMem h, List.filterMap_map]
  exact List.filterMap_some

/-- **A text is read exactly.** Complete codes and characters that are no escapes are read back, whatever follows; no text
loses anything; and stripping leaves the characters, once and for all. -/
theorem scan_exact {items : List Item} (h : ∀ item ∈ items, item.Clean) (text : List ℕ) :
    scan (render items ++ text) = items ++ scan text ∧ render (scan text) = text ∧
      stripAnsi (render items) = items.filterMap Item.char? ∧
      stripAnsi (stripAnsi (render items)) = stripAnsi (render items) := by
  have hstrip : stripAnsi (render items) = items.filterMap Item.char? := by rw [stripAnsi, scan_render h]
  have hesc : ESC ∉ items.filterMap Item.char? := by
    intro hmem
    obtain ⟨item, hitem, hchar⟩ := List.mem_filterMap.mp hmem
    cases item with
    | code sequence => cases hchar
    | char c => exact h _ hitem (Option.some.inj hchar)
  exact ⟨scan_render_append h text, render_scanFrom 0 text, hstrip, by rw [hstrip, stripAnsi_of_notMem hesc]⟩

theorem scan_exact_bold : scan [ESC, 0x5b, 0x6d, 0x61, ESC] = [Item.code [ESC, 0x5b, 0x6d], .char 0x61] ++ scan [ESC] :=
  (@scan_exact [.code [ESC, 0x5b, 0x6d], .char 0x61] (by decide) [ESC]).1

end Trek.Tui
