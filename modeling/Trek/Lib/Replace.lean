/-
# Replacement of every match

`text.replace(pattern, replacement)` with a global pattern reads the text once, from left to right, and puts the replacement
in the place of every match; what it has inserted it does not read again. The replacement may depend on the match and on the
text around it, and a function that makes it from the match may fail (`replaceEach`). A pattern here matches no empty text.
-/
import Trek.Lib.FirstMatch

namespace Trek

variable {ω : Type*}

/-- The text with its matches replaced, without as many characters as are left of a match. -/
def replaceFrom (pattern : Pattern ω) (insert : Found ω → List Char) : ℕ → List Char → List Char → List Char
  | _, _, [] => []
  | skip + 1, before, c :: text => replaceFrom pattern insert skip (before ++ [c]) text
  | 0, before, c :: text =>
    match pattern (c :: text) with
    | some (what, after) =>
      insert ⟨before, what, after⟩ ++ replaceFrom pattern insert (text.length - after.length) (before ++ [c]) text
    | none => c :: replaceFrom pattern insert 0 (before ++ [c]) text

/-- `replace` with a global pattern. -/
def replaceAll (pattern : Pattern ω) (insert : Found ω → List Char) (text : List Char) : List Char :=
  replaceFrom pattern insert 0 [] text

variable {pattern : Pattern ω} {insert : Found ω → List Char} {before text after : List Char}

theorem replaceFrom_skip : ∀ (skipped : List Char) {before : List Char},
    replaceFrom pattern insert skipped.length before (skipped ++ after) =
      replaceFrom pattern insert 0 (before ++ skipped) after
  | [], _ => by rw [List.append_nil, List.nil_append, List.length_nil]
  | c :: skipped, before => by
    rw [List.length_cons, List.cons_append, replaceFrom, replaceFrom_skip skipped, List.append_assoc, List.singleton_append]

/-- A match is replaced, and the reading goes on after it. -/
theorem replaceFrom_match {what : ω} (hne : text ≠ []) (h : pattern (text ++ after) = some (what, after)) :
    replaceFrom pattern insert 0 before (text ++ after) =
      insert ⟨before, what, after⟩ ++ replaceFrom pattern insert 0 (before ++ text) after := by
  obtain ⟨c, text, rfl⟩ := List.exists_cons_of_ne_nil hne
  rw [List.cons_append] at h ⊢
  rw [replaceFrom, h]
  have hlength : (text ++ after).length - after.length = text.length := by rw [List.length_append, Nat.add_sub_cancel]
  dsimp only
  rw [hlength, replaceFrom_skip, List.append_assoc, List.singleton_append]

/-- A text in which no match starts is kept. -/
theorem replaceFrom_plain : ∀ {text before : List Char}, (∀ x y, text = x ++ y → y ≠ [] → pattern (y ++ after) = none) →
    replaceFrom pattern insert 0 before (text ++ after) = text ++ replaceFrom pattern insert 0 (before ++ text) after
  | [], _, _ => by rw [List.append_nil, List.nil_append, List.nil_append]
  | c :: text, before, h => by
    have hnone : pattern (c :: (text ++ after)) = none := h [] (c :: text) rfl (List.cons_ne_nil c text)
    have hrest : ∀ x y, text = x ++ y → y ≠ [] → pattern (y ++ after) = none :=
      fun x y heq hne => h (c :: x) y (congrArg (c :: ·) heq) hne
    rw [List.cons_append, replaceFrom, hnone]
    dsimp only
    rw [replaceFrom_plain hrest, List.append_assoc, List.singleton_append, List.cons_append]

/-! ### Replacements that may fail -/

section

variable {ε : Type*}

/-- `replaceFrom` with a replacement that depends on the match alone and may fail. -/
def replaceEachFrom (pattern : Pattern ω) (insert : ω → Except ε (List Char)) : ℕ → List Char → Except ε (List Char)
  | _, [] => .ok []
  | skip + 1, _ :: text => replaceEachFrom pattern insert skip text
  | 0, c :: text =>
    match pattern (c :: text) with
    | some (what, after) => do
      let inserted ← insert what
      let rest ← replaceEachFrom pattern insert (text.length - after.length) text
      .ok (inserted ++ rest)
    | none => do
      let rest ← replaceEachFrom pattern insert 0 text
      .ok (c :: rest)

/-- `replace` with a global pattern and a function that may fail. -/
def replaceEach (pattern : Pattern ω) (insert : ω → Except ε (List Char)) (text : List Char) : Except ε (List Char) :=
  replaceEachFrom pattern insert 0 text

variable {insert insert' : ω → Except ε (List Char)}

theorem replaceEachFrom_skip : ∀ (skipped : List Char),
    replaceEachFrom pattern insert skipped.length (skipped ++ after) = replaceEach pattern insert after
  | [] => rfl
  | _ :: skipped => replaceEachFrom_skip skipped

/-- A match is replaced, and the reading goes on after it. -/
theorem replaceEach_match {what : ω} (hne : text ≠ []) (h : pattern (text ++ after) = some (what, after)) :
    replaceEach pattern insert (text ++ after) = (do
      let inserted ← insert what
      let rest ← replaceEach pattern insert after
      .ok (inserted ++ rest)) := by
  obtain ⟨c, text, rfl⟩ := List.exists_cons_of_ne_nil hne
  have hlength : (text ++ after).length - after.length = text.length := by rw [List.length_append, Nat.add_sub_cancel]
  rw [List.cons_append] at h ⊢
  rw [replaceEach, replaceEachFrom, h]
  dsimp only
  rw [hlength, replaceEachFrom_skip]

/-- The replacements of a text are those of its parts, if no match reaches from the one part into the other. -/
theorem replaceEachFrom_append {back : List Char} : ∀ {front : List Char} {skip : ℕ}, skip ≤ front.length →
    (∀ y, y <:+ front → y ≠ [] → pattern (y ++ back) = (pattern y).map fun m => (m.1, m.2 ++ back)) →
    (∀ y what rest, y <:+ front → pattern y = some (what, rest) → rest.length < y.length) →
    replaceEachFrom pattern insert skip (front ++ back) = (do
      let a ← replaceEachFrom pattern insert skip front
      let b ← replaceEach pattern insert back
      .ok (a ++ b))
  | [], skip, hskip, _, _ => by
    obtain rfl : skip = 0 := Nat.le_zero.mp hskip
    show replaceEach pattern insert back = _
    cases h : replaceEach pattern insert back <;> rfl
  | c :: front, skip + 1, hskip, hback, hlt => by
    have ih := replaceEachFrom_append (Nat.le_of_succ_le_succ hskip) (fun y hy => hback y (hy.trans (List.suffix_cons c front)))
      fun y what rest hy => hlt y what rest (hy.trans (List.suffix_cons c front))
    exact ih
  | c :: front, 0, _, hback, hlt => by
    have ih : ∀ {skip : ℕ}, skip ≤ front.length → replaceEachFrom pattern insert skip (front ++ back) = (do
        let a ← replaceEachFrom pattern insert skip front
        let b ← replaceEach pattern insert back
        .ok (a ++ b)) := fun hskip =>
      replaceEachFrom_append hskip (fun y hy => hback y (hy.trans (List.suffix_cons c front)))
        fun y what rest hy => hlt y what rest (hy.trans (List.suffix_cons c front))
    have hhead := hback (c :: front) (List.suffix_refl _) (List.cons_ne_nil c front)
    rw [List.cons_append] at hhead ⊢
    rw [replaceEachFrom, replaceEachFrom, hhead]
    cases hp : pattern (c :: front) with
    | none =>
      dsimp only [Option.map_none]
      rw [ih (Nat.zero_le _)]
      cases replaceEachFrom pattern insert 0 front with
      | error e => rfl
      | ok a => cases replaceEach pattern insert back <;> rfl
    | some m =>
      obtain ⟨what, rest⟩ := m
      have hrest := hlt _ what rest (List.suffix_refl _) hp
      rw [List.length_cons] at hrest
      have hlength : (front ++ back).length - (rest ++ back).length = front.length - rest.length := by
        rw [List.length_append, List.length_append]
        omega
      dsimp only [Option.map_some]
      rw [hlength, ih (Nat.sub_le _ _)]
      cases insert what with
      | error e => rfl
      | ok inserted =>
        cases replaceEachFrom pattern insert (front.length - rest.length) front with
        | error e => rfl
        | ok a =>
          cases replaceEach pattern insert back with
          | error e => rfl
          | ok b => exact congrArg Except.ok (List.append_assoc inserted a b).symm

/-- Only what matches somewhere in the text is asked for. -/
theorem replaceEachFrom_congr : ∀ {text : List Char} {skip : ℕ},
    (∀ y what rest, y <:+ text → pattern y = some (what, rest) → insert what = insert' what) →
    replaceEachFrom pattern insert skip text = replaceEachFrom pattern insert' skip text
  | [], _, _ => by rw [replaceEachFrom, replaceEachFrom]
  | c :: text, skip, h => by
    have ih : ∀ {skip : ℕ}, replaceEachFrom pattern insert skip text = replaceEachFrom pattern insert' skip text :=
      replaceEachFrom_congr fun y what rest hy => h y what rest (hy.trans (List.suffix_cons c text))
    cases skip with
    | succ skip => exact ih
    | zero =>
      rw [replaceEachFrom, replaceEachFrom]
      cases hp : pattern (c :: text) with
      | none => dsimp only; rw [ih]
      | some m =>
        dsimp only
        rw [h _ m.1 m.2 (List.suffix_refl _) hp, ih]

end

/-! ### Words -/

/-- The pattern of a word. -/
def word (word : List Char) : Pattern Unit := fun text =>
  if word.isPrefixOf text then some ((), text.drop word.length) else none

theorem word_append (start after : List Char) : word start (start ++ after) = some ((), after) := by
  have hprefix : start.isPrefixOf (start ++ after) = true := List.isPrefixOf_iff_prefix.mpr (List.prefix_append start after)
  rw [word, if_pos hprefix, List.drop_left]

theorem eq_of_word {start text after : List Char} {u : Unit} (h : word start text = some (u, after)) : text = start ++ after := by
  unfold word at h
  split at h
  · next hprefix =>
    obtain ⟨rest, rfl⟩ := List.isPrefixOf_iff_prefix.mp hprefix
    rw [List.drop_left] at h
    obtain rfl : rest = after := congrArg Prod.snd (Option.some.inj h)
    rfl
  · cases h

end Trek
