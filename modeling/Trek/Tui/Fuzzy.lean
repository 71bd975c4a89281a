/-
# Fuzzy matching

`fuzzyMatch` and `fuzzyFilter` of `fuzzy.ts`. The scan takes every character of the query at the first
place where it can; it gets through the query exactly if this is a subsequence of the text (`scan_iff`).
The scores are numbers of a type `F` with the operations the code uses. Texts are read by their UTF-16
code units, as `text[i]` reads them.
-/
import Mathlib.Data.Int.Cast.Basic
import Mathlib.Data.List.TakeWhile
import Trek.Lib.Text
import Trek.Lib.Utf16

namespace Trek.Tui.Fuzzy

/-! ### Matching -/

/-- `FuzzyMatch`; `matched` is `matches`. -/
structure FuzzyMatch (F : Type*) where
  matched : Bool
  score : F
  deriving DecidableEq

/-- The variables of the scan. -/
structure Scan (F : Type*) where
  queryIndex : ℕ
  score : F
  lastMatchIndex : ℤ
  consecutiveMatches : ℕ

/-- `/[\s\-_./:]/` of a code unit. -/
def isSeparator (code : ℕ) : Bool :=
  isJsSpace (Char.ofNat code) || code ∈ ['-'.toNat, '_'.toNat, '.'.toNat, '/'.toNat, ':'.toNat]

section

variable {F : Type*} [Zero F] [IntCast F] [Add F] [Sub F] [Mul F] (tenth : F)

/-- The body of the loop where the character at `i` is the next one of the query. -/
def Scan.take (textLower : List ℕ) (s : Scan F) (i : ℕ) : Scan F :=
  let isWordBoundary := i = 0 || (textLower[i - 1]?.map isSeparator).getD false
  let (consecutiveMatches, score) :=
    if s.lastMatchIndex = i - 1 then
      (s.consecutiveMatches + 1, s.score - (((s.consecutiveMatches + 1) * 5 : ℤ) : F))
    else
      (0, if 0 ≤ s.lastMatchIndex then s.score + (((i - s.lastMatchIndex - 1) * 2 : ℤ) : F) else s.score)
  let score := if isWordBoundary then score - ((10 : ℤ) : F) else score
  ⟨s.queryIndex + 1, score + ((i : ℤ) : F) * tenth, i, consecutiveMatches⟩

/-- The body of the loop, left as it is once the query is at its end. -/
def Scan.step (normalizedQuery textLower : List ℕ) (s : Scan F) (i : ℕ) : Scan F :=
  if s.queryIndex < normalizedQuery.length ∧ textLower[i]? = normalizedQuery[s.queryIndex]? then s.take tenth textLower i
  else s

/-- The loop. -/
def scan (normalizedQuery textLower : List ℕ) : Scan F :=
  (List.range textLower.length).foldl (Scan.step tenth normalizedQuery textLower) ⟨0, 0, -1, 0⟩

/-- `matchQuery`. -/
def matchQuery (textLower normalizedQuery : List ℕ) : FuzzyMatch F :=
  if normalizedQuery.length = 0 then ⟨true, 0⟩
  else if textLower.length < normalizedQuery.length then ⟨false, 0⟩
  else
    let s : Scan F := scan tenth normalizedQuery textLower
    if s.queryIndex < normalizedQuery.length then ⟨false, 0⟩
    else ⟨true, if normalizedQuery = textLower then s.score - ((100 : ℤ) : F) else s.score⟩

/-- `[a-z]`. -/
def isLetter (code : ℕ) : Bool := 'a'.toNat ≤ code && code ≤ 'z'.toNat

/-- `[0-9]`. -/
def isDigit (code : ℕ) : Bool := '0'.toNat ≤ code && code ≤ '9'.toNat

/-- The two groups of `/^(first+)(second+)$/`. -/
def groups (first second : ℕ → Bool) (text : List ℕ) : Option (List ℕ × List ℕ) :=
  let start := text.takeWhile first
  let rest := text.dropWhile first
  if start ≠ [] ∧ rest ≠ [] ∧ rest.all second then some (start, rest) else none

/-- `swappedQuery`. -/
def swappedQuery (queryLower : List ℕ) : List ℕ :=
  match groups isLetter isDigit queryLower with
  | some (letters, digits) => digits ++ letters
  | none =>
    match groups isDigit isLetter queryLower with
    | some (digits, letters) => letters ++ digits
    | none => []

/-- `text.toLowerCase()` by code units. -/
def lowered (toLowerCase : String → String) (text : String) : List ℕ := utf16 (toLowerCase text).toList

variable (toLowerCase : String → String)

/-- `fuzzyMatch`. -/
def fuzzyMatch (query text : String) : FuzzyMatch F :=
  let queryLower := lowered toLowerCase query
  let textLower := lowered toLowerCase text
  let primaryMatch := matchQuery tenth textLower queryLower
  if primaryMatch.matched then primaryMatch
  else
    let swapped := swappedQuery queryLower
    if swapped = [] then primaryMatch
    else
      let swappedMatch : FuzzyMatch F := matchQuery tenth textLower swapped
      if !swappedMatch.matched then primaryMatch
      else ⟨true, swappedMatch.score + ((5 : ℤ) : F)⟩

/-- `query.trim().split(/\s+/).filter((t) => t.length > 0)`. -/
def tokens (query : String) : List String :=
  (((jsTrim query).toList.splitOnP isJsSpace).filter (· ≠ [])).map String.ofList

/-- The loop over the tokens, with the score so far; `none` once one of them does not match. -/
def totalScore (text : String) (score : F) : List String → Option F
  | [] => some score
  | token :: tokens =>
    let found : FuzzyMatch F := fuzzyMatch tenth toLowerCase token text
    if found.matched then totalScore text (score + found.score) tokens else none

variable [LE F] [DecidableLE F]

/-- `fuzzyFilter`. -/
def fuzzyFilter {α : Type*} (items : List α) (query : String) (getText : α → String) : List α :=
  if jsTrim query = "" ∨ tokens query = [] then items
  else
    let results := items.filterMap fun item => (totalScore tenth toLowerCase (getText item) (0 : F) (tokens query)).map (item, ·)
    (results.mergeSort fun a b => a.2 ≤ b.2).map Prod.fst

end

/-! ### The scan accepts the subsequences -/

section

variable {F : Type*} [IntCast F] [Add F] [Sub F] [Mul F] {query text : List ℕ}

/-- What is left of the query is found in what is left of the text. -/
theorem foldl_step_iff (tenth : F) : ∀ (n i : ℕ), text.length = i + n → ∀ s : Scan F, s.queryIndex ≤ query.length →
    ((List.range' i n).foldl (Scan.step tenth query text) s).queryIndex ≤ query.length ∧
      (((List.range' i n).foldl (Scan.step tenth query text) s).queryIndex = query.length ↔
        List.Sublist (query.drop s.queryIndex) (text.drop i))
  | 0, i, hn, s, hs => by
    have hdone : text.drop i = [] := List.drop_eq_nil_of_le (by omega)
    refine ⟨hs, ?_⟩
    rw [hdone, List.sublist_nil, List.drop_eq_nil_iff]
    exact ⟨fun h => Nat.le_of_eq h.symm, fun h => Nat.le_antisymm hs h⟩
  | n + 1, i, hn, s, hs => by
    have hi : i < text.length := by omega
    rw [List.range'_succ, List.foldl_cons]
    have htext : text.drop i = text[i] :: text.drop (i + 1) := List.drop_eq_getElem_cons hi
    by_cases hlt : s.queryIndex < query.length
    · have hquery : query.drop s.queryIndex = query[s.queryIndex] :: query.drop (s.queryIndex + 1) :=
        List.drop_eq_getElem_cons hlt
      by_cases heq : text[i] = query[s.queryIndex]
      · -- the first place is as good as any later one
        have hstep : Scan.step tenth query text s i = s.take tenth text i := by
          rw [Scan.step, if_pos ⟨hlt, by rw [List.getElem?_eq_getElem hi, List.getElem?_eq_getElem hlt, heq]⟩]
        have htake : (s.take tenth text i).queryIndex = s.queryIndex + 1 := rfl
        have hrest := foldl_step_iff tenth n (i + 1) (by omega) (s.take tenth text i) (by omega)
        rw [hstep, htext, hquery, heq, List.cons_sublist_cons, ← htake]
        exact hrest
      · have hstep : Scan.step tenth query text s i = s := by
          rw [Scan.step, if_neg]
          rintro ⟨-, h⟩
          rw [List.getElem?_eq_getElem hi, List.getElem?_eq_getElem hlt, Option.some.injEq] at h
          exact heq h
        have hrest := foldl_step_iff tenth n (i + 1) (by omega) s hs
        rw [hstep]
        refine ⟨hrest.1, hrest.2.trans ?_⟩
        rw [htext, hquery]
        exact ⟨fun h => h.trans (List.sublist_cons_self ..), fun h => h.of_cons_of_ne (Ne.symm heq)⟩
    · have hstep : Scan.step tenth query text s i = s := if_neg fun h => hlt h.1
      have hend : query.drop s.queryIndex = [] := List.drop_eq_nil_of_le (by omega)
      have hrest := foldl_step_iff tenth n (i + 1) (by omega) s hs
      rw [hstep]
      refine ⟨hrest.1, hrest.2.trans ?_⟩
      rw [hend]
      exact ⟨fun _ => List.nil_sublist _, fun _ => List.nil_sublist _⟩

variable [Zero F]

/-- **The scan gets to the end of the query exactly if the query is a subsequence.** -/
theorem scan_iff (tenth : F) : ¬(scan tenth query text : Scan F).queryIndex < query.length ↔ List.Sublist query text := by
  have h := foldl_step_iff tenth text.length 0 (Nat.zero_add _).symm ⟨0, 0, -1, 0⟩ (Nat.zero_le query.length)
  rw [← List.range_eq_range', List.drop_zero, List.drop_zero] at h
  rw [← h.2, scan]
  omega

theorem matchQuery_iff (tenth : F) : (matchQuery tenth text query : FuzzyMatch F).matched = true ↔ List.Sublist query text := by
  unfold matchQuery
  by_cases hempty : query.length = 0
  · rw [if_pos hempty, List.eq_nil_of_length_eq_zero hempty]
    exact iff_of_true rfl (List.nil_sublist _)
  rw [if_neg hempty]
  by_cases hlong : text.length < query.length
  · rw [if_pos hlong]
    exact iff_of_false Bool.false_ne_true fun h => absurd h.length_le (Nat.not_le.mpr hlong)
  rw [if_neg hlong, ← scan_iff tenth]
  by_cases hleft : (scan tenth query text : Scan F).queryIndex < query.length
  · dsimp only
    rw [if_pos hleft]
    exact iff_of_false Bool.false_ne_true (not_not.mpr hleft)
  · dsimp only
    rw [if_neg hleft]
    exact iff_of_true rfl hleft

/-- The letters and the digits of a query that is swapped. -/
theorem groups_iff {first second : ℕ → Bool} {a b : List ℕ} (hdisjoint : ∀ c, second c = true → first c = false) :
    groups first second query = some (a, b) ↔ query = a ++ b ∧ a ≠ [] ∧ b ≠ [] ∧ a.all first ∧ b.all second := by
  have hparts : query.takeWhile first ++ query.dropWhile first = query := List.takeWhile_append_dropWhile
  unfold groups
  dsimp only
  constructor
  · intro h
    split at h
    · rename_i hne
      obtain ⟨rfl, rfl⟩ := Prod.mk.inj (Option.some.inj h)
      exact ⟨hparts.symm, hne.1, hne.2.1, List.all_eq_true.mpr fun c hc => List.mem_takeWhile_imp hc, hne.2.2⟩
    · cases h
  · rintro ⟨rfl, ha, hb, hfirst, hsecond⟩
    rw [List.all_eq_true] at hfirst
    have hstop : b.takeWhile first = [] := by
      cases b with
      | nil => rfl
      | cons c b =>
        rw [List.all_cons, Bool.and_eq_true] at hsecond
        exact List.takeWhile_cons_of_neg (by rw [hdisjoint c hsecond.1]; exact Bool.false_ne_true)
    have hkeep : b.dropWhile first = b := by
      have h := List.takeWhile_append_dropWhile (p := first) (l := b)
      rwa [hstop, List.nil_append] at h
    have htake : (a ++ b).takeWhile first = a := by rw [List.takeWhile_append_of_pos hfirst, hstop, List.append_nil]
    have hdrop : (a ++ b).dropWhile first = b := by rw [List.dropWhile_append_of_pos hfirst, hkeep]
    rw [htake, hdrop, if_pos ⟨ha, hb, hsecond⟩]

/-- A text is a query with its leading letters and trailing digits, or leading digits and trailing letters, swapped. -/
def IsSwapOf (query swapped : List ℕ) : Prop :=
  ∃ letters digits, letters ≠ [] ∧ digits ≠ [] ∧ letters.all isLetter ∧ digits.all isDigit ∧
    (query = letters ++ digits ∧ swapped = digits ++ letters ∨ query = digits ++ letters ∧ swapped = letters ++ digits)

theorem isLetter_of_isDigit {c : ℕ} (h : isDigit c = true) : isLetter c = false := by
  simp only [isDigit, isLetter, Bool.and_eq_true, decide_eq_true_eq, Bool.and_eq_false_iff, decide_eq_false_iff_not] at h ⊢
  exact Or.inl (Nat.not_le.mpr (Nat.lt_of_le_of_lt h.2 (by decide)))

theorem isDigit_of_isLetter {c : ℕ} (h : isLetter c = true) : isDigit c = false := by
  by_contra hdigit
  rw [isLetter_of_isDigit (Bool.eq_true_of_not_eq_false hdigit)] at h
  cases h

theorem swappedQuery_iff {swapped : List ℕ} : swappedQuery query = swapped ∧ swapped ≠ [] ↔ IsSwapOf query swapped := by
  have hletters : ∀ {a b : List ℕ}, groups isLetter isDigit query = some (a, b) ↔
      query = a ++ b ∧ a ≠ [] ∧ b ≠ [] ∧ a.all isLetter ∧ b.all isDigit := groups_iff fun _ => isLetter_of_isDigit
  have hdigits : ∀ {a b : List ℕ}, groups isDigit isLetter query = some (a, b) ↔
      query = a ++ b ∧ a ≠ [] ∧ b ≠ [] ∧ a.all isDigit ∧ b.all isLetter := groups_iff fun _ => isDigit_of_isLetter
  unfold swappedQuery
  constructor
  · rintro ⟨rfl, hne⟩
    split at hne
    · rename_i letters digits h
      obtain ⟨hquery, hl, hd, hall, hall'⟩ := hletters.mp h
      exact ⟨letters, digits, hl, hd, hall, hall', Or.inl ⟨hquery, rfl⟩⟩
    · split at hne
      · rename_i digits letters h
        obtain ⟨hquery, hd, hl, hall, hall'⟩ := hdigits.mp h
        refine ⟨letters, digits, hl, hd, hall', hall, Or.inr ⟨hquery, ?_⟩⟩
        simp_all
      · exact absurd rfl hne
  · rintro ⟨letters, digits, hl, hd, hall, hall', ⟨hquery, rfl⟩ | ⟨hquery, rfl⟩⟩
    · rw [hletters.mpr ⟨hquery, hl, hd, hall, hall'⟩]
      exact ⟨rfl, by simp [hl]⟩
    · have hnone : groups isLetter isDigit query = none := by
        rw [Option.eq_none_iff_forall_ne_some]
        rintro ⟨a, b⟩ h
        obtain ⟨hsplit, ha, -, halla, -⟩ := hletters.mp h
        obtain ⟨c, a, rfl⟩ := List.exists_cons_of_ne_nil ha
        obtain ⟨d, digits, rfl⟩ := List.exists_cons_of_ne_nil hd
        rw [hquery, List.cons_append, List.cons_append, List.cons.injEq] at hsplit
        rw [List.all_cons, Bool.and_eq_true] at halla hall'
        have hdigit := hall'.1
        rw [hsplit.1, isDigit_of_isLetter halla.1] at hdigit
        cases hdigit
      rw [hnone, hdigits.mpr ⟨hquery, hd, hl, hall', hall⟩]
      exact ⟨rfl, by simp [hl]⟩

/-- What a query matches. -/
def Matches (toLowerCase : String → String) (query text : String) : Prop :=
  List.Sublist (lowered toLowerCase query) (lowered toLowerCase text) ∨
    ∃ swapped, IsSwapOf (lowered toLowerCase query) swapped ∧ List.Sublist swapped (lowered toLowerCase text)

theorem fuzzyMatch_iff (tenth : F) {toLowerCase : String → String} {query text : String} :
    (fuzzyMatch tenth toLowerCase query text : FuzzyMatch F).matched = true ↔ Matches toLowerCase query text := by
  unfold fuzzyMatch Matches
  rw [← matchQuery_iff tenth]
  dsimp only
  split_ifs with hprimary hempty hswapped
  · exact iff_of_true hprimary (Or.inl hprimary)
  · refine iff_of_false hprimary (not_or.mpr ⟨hprimary, ?_⟩)
    rintro ⟨swapped, hswap, -⟩
    obtain ⟨rfl, hne⟩ := swappedQuery_iff.mpr hswap
    exact hne hempty
  · refine iff_of_false hprimary (not_or.mpr ⟨hprimary, ?_⟩)
    rintro ⟨swapped, hswap, hsub⟩
    obtain ⟨rfl, -⟩ := swappedQuery_iff.mpr hswap
    rw [(matchQuery_iff tenth).mpr hsub] at hswapped
    cases hswapped
  · refine iff_of_true rfl (Or.inr ⟨_, swappedQuery_iff.mp ⟨rfl, hempty⟩, ?_⟩)
    rw [← matchQuery_iff tenth]
    simpa using hswapped

end

/-! ### Tokens -/

section

variable {α : Type*} {p : α → Bool} {l x : List α}

/-- A part of a list that is free of separators, with a separator or an end on both sides. -/
def IsPart (p : α → Bool) (l x : List α) : Prop :=
  (∀ c ∈ x, p c = false) ∧ ∃ before after, l = before ++ (x ++ after) ∧
    (∀ c ∈ before.getLast?, p c = true) ∧ ∀ c ∈ after.head?, p c = true

theorem mem_splitOnP_of_isPart (h : IsPart p l x) : x ∈ l.splitOnP p := by
  obtain ⟨hfree, before, after, rfl, hbefore, hafter⟩ := h
  have hx : x ∈ (x ++ after).splitOnP p := by
    cases after with
    | nil => rw [List.append_nil, List.splitOnP_eq_singleton hfree]; exact List.mem_singleton_self x
    | cons c after =>
      rw [List.splitOnP_append_cons x after (hafter c rfl), List.splitOnP_eq_singleton hfree]
      exact List.mem_append_left _ (List.mem_singleton_self x)
  rcases List.eq_nil_or_concat before with rfl | ⟨before, c, rfl⟩
  · exact hx
  · have hc : p c = true := hbefore c (by rw [List.concat_eq_append, List.getLast?_concat]; rfl)
    rw [List.concat_eq_append, List.append_assoc, List.singleton_append, List.splitOnP_append_cons before (x ++ after) hc]
    exact List.mem_append_right _ hx

theorem isPart_of_mem_splitOnP : ∀ (n : ℕ) {l : List α}, l.length ≤ n → x ∈ l.splitOnP p → IsPart p l x
  | n, l, hn, hx => by
    by_cases hfree : ∀ c ∈ l, p c = false
    · rw [List.splitOnP_eq_singleton hfree, List.mem_singleton] at hx
      subst hx
      exact ⟨hfree, [], [], (List.append_nil x).symm, by simp, by simp⟩
    · -- the list is what stands before its first separator, and what stands after it
      have hparts : l.takeWhile (fun c => !p c) ++ l.dropWhile (fun c => !p c) = l := List.takeWhile_append_dropWhile
      have hstart : ∀ c ∈ l.takeWhile fun c => !p c, p c = false := fun c hc => by
        simpa using List.mem_takeWhile_imp hc
      cases hrest : l.dropWhile fun c => !p c with
      | nil =>
        rw [hrest, List.append_nil] at hparts
        rw [hparts] at hstart
        exact absurd hstart hfree
      | cons sep rest =>
        have hsep : p sep = true := by
          have h := List.head_dropWhile_not (fun c => !p c) (l := l) (by rw [hrest]; exact List.cons_ne_nil _ _)
          simpa [hrest] using h
        rw [hrest] at hparts
        generalize l.takeWhile (fun c => !p c) = start at hparts hstart
        subst hparts
        rw [List.splitOnP_append_cons start rest hsep, List.splitOnP_eq_singleton hstart, List.singleton_append,
          List.mem_cons] at hx
        rcases hx with rfl | hx
        · exact ⟨hstart, [], sep :: rest, rfl, by simp, by simpa using hsep⟩
        · match n, hn with
          | 0, hn => simp at hn
          | n + 1, hn =>
            have hlen : rest.length ≤ n := by
              rw [List.length_append, List.length_cons] at hn
              omega
            obtain ⟨hpart, before, after, rfl, hbefore, hafter⟩ := isPart_of_mem_splitOnP n hlen hx
            refine ⟨hpart, start ++ sep :: before, after, by simp, ?_, hafter⟩
            cases before with
            | nil => simpa using hsep
            | cons b before =>
              rw [List.getLast?_append_of_ne_nil _ (List.cons_ne_nil _ _), List.getLast?_cons_cons]
              exact hbefore

theorem mem_splitOnP_iff : x ∈ l.splitOnP p ↔ IsPart p l x :=
  ⟨isPart_of_mem_splitOnP l.length (Nat.le_refl _), mem_splitOnP_of_isPart⟩

/-- Separators at the ends make no part that is not empty. -/
theorem isPart_append_iff {front back : List α} (hfront : ∀ c ∈ front, p c = true) (hback : ∀ c ∈ back, p c = true)
    (hx : x ≠ []) : IsPart p (front ++ (l ++ back)) x ↔ IsPart p l x := by
  have hblank : ∀ {blank : List α}, (∀ c ∈ blank, p c = true) → x ∉ blank.splitOnP p := by
    intro blank hblank hmem
    obtain ⟨hfree, before, after, rfl, -, -⟩ := mem_splitOnP_iff.mp hmem
    obtain ⟨c, x, rfl⟩ := List.exists_cons_of_ne_nil hx
    have h := hblank c (by simp)
    rw [hfree c List.mem_cons_self] at h
    cases h
  have hend : x ∈ (l ++ back).splitOnP p ↔ x ∈ l.splitOnP p := by
    cases back with
    | nil => rw [List.append_nil]
    | cons c back =>
      rw [List.splitOnP_append_cons l back (hback c List.mem_cons_self), List.mem_append]
      exact or_iff_left (hblank fun c hc => hback c (List.mem_cons_of_mem _ hc))
  rw [← mem_splitOnP_iff, ← mem_splitOnP_iff, ← hend]
  rcases List.eq_nil_or_concat front with rfl | ⟨front, c, rfl⟩
  · rfl
  · rw [List.concat_eq_append] at hfront ⊢
    rw [List.append_assoc, List.singleton_append,
      List.splitOnP_append_cons front (l ++ back) (hfront c (by simp)), List.mem_append]
    exact or_iff_right (hblank fun c hc => hfront c (List.mem_append_left _ hc))

end

/-- A text is what `trim` leaves of it, between white space. -/
theorem exists_jsTrim (text : String) : ∃ front back, text.toList = front ++ ((jsTrim text).toList ++ back) ∧
    (∀ c ∈ front, isJsSpace c = true) ∧ ∀ c ∈ back, isJsSpace c = true := by
  let rest := text.toList.dropWhile isJsSpace
  refine ⟨text.toList.takeWhile isJsSpace, (rest.reverse.takeWhile isJsSpace).reverse, ?_,
    fun c hc => List.mem_takeWhile_imp hc, fun c hc => List.mem_takeWhile_imp (List.mem_reverse.mp hc)⟩
  rw [jsTrim, String.toList_ofList, ← List.reverse_append, List.takeWhile_append_dropWhile, List.reverse_reverse,
    List.takeWhile_append_dropWhile]

/-- A token of a query: a part of it between white space. -/
def IsToken (query token : String) : Prop := token ≠ "" ∧ IsPart isJsSpace query.toList token.toList

theorem mem_tokens {query token : String} : token ∈ tokens query ↔ IsToken query token := by
  obtain ⟨front, back, hquery, hfront, hback⟩ := exists_jsTrim query
  have hempty : token ≠ "" ↔ token.toList ≠ [] := by rw [ne_eq, ne_eq, String.toList_eq_nil_iff]
  have hmem : token ∈ tokens query ↔ token.toList ≠ [] ∧ token.toList ∈ (jsTrim query).toList.splitOnP isJsSpace := by
    rw [tokens, List.mem_map]
    constructor
    · rintro ⟨part, hpart, rfl⟩
      rw [List.mem_filter, decide_eq_true_eq] at hpart
      rw [String.toList_ofList]
      exact hpart.symm
    · rintro ⟨hne, hpart⟩
      exact ⟨token.toList, List.mem_filter.mpr ⟨hpart, by simpa using hne⟩, String.ofList_toList⟩
  rw [hmem, IsToken, hempty, mem_splitOnP_iff, hquery]
  exact and_congr_right fun hne => (isPart_append_iff hfront hback hne).symm

/-! ### The filter -/

section

variable {F : Type*} [Zero F] [IntCast F] [Add F] [Sub F] [Mul F] {tenth : F} {toLowerCase : String → String}

theorem totalScore_isSome {text : String} : ∀ (tokens : List String) (score : F),
    (totalScore tenth toLowerCase text score tokens).isSome = true ↔ ∀ token ∈ tokens, Matches toLowerCase token text
  | [], score => by simp [totalScore]
  | token :: tokens, score => by
    rw [List.forall_mem_cons, ← fuzzyMatch_iff tenth, totalScore]
    split
    · rename_i hmatch
      rw [totalScore_isSome tokens]
      exact (and_iff_right hmatch).symm
    · rename_i hmatch
      exact iff_of_false (by simp) fun h => hmatch h.1

variable [LE F] [DecidableLE F]

theorem map_fst_filterMap {α β : Type*} {f : α → Option β} : ∀ items : List α,
    (items.filterMap fun item => (f item).map (item, ·)).map Prod.fst = items.filter fun item => (f item).isSome
  | [] => rfl
  | item :: items => by
    rw [List.filterMap_cons, List.filter_cons]
    cases hf : f item with
    | none => exact map_fst_filterMap items
    | some b => exact congrArg (item :: ·) (map_fst_filterMap items)

/-- The filter puts those items that match all tokens into another order. -/
theorem fuzzyFilter_perm {α : Type*} (items : List α) (query : String) (getText : α → String) :
    List.Perm (fuzzyFilter tenth toLowerCase items query getText)
      (items.filter fun item => (totalScore tenth toLowerCase (getText item) (0 : F) (tokens query)).isSome) := by
  have hall : tokens query = [] → (items.filter fun item =>
      (totalScore tenth toLowerCase (getText item) (0 : F) (tokens query)).isSome) = items := by
    intro htokens
    rw [htokens]
    exact List.filter_eq_self.mpr fun _ _ => rfl
  unfold fuzzyFilter
  split
  · rename_i h
    have htokens : tokens query = [] := h.elim (fun hblank => by rw [tokens, hblank]; rfl) id
    rw [hall htokens]
  · rw [← map_fst_filterMap]
    exact (List.mergeSort_perm ..).map Prod.fst

/-- **A query matches the texts it is a subsequence of, and the filter keeps what all tokens match.** -/
theorem fuzzy_subsequence (tenth : F) (toLowerCase : String → String) :
    (∀ query text, (fuzzyMatch tenth toLowerCase query text).matched = true ↔ Matches toLowerCase query text) ∧
    ∀ {α : Type*} (items : List α) (query : String) (getText : α → String), ∃ keep : α → Bool,
      List.Perm (fuzzyFilter tenth toLowerCase items query getText) (items.filter keep) ∧
      ∀ item, keep item = true ↔ ∀ token, IsToken query token → Matches toLowerCase token (getText item) := by
  refine ⟨fun _ _ => fuzzyMatch_iff tenth, fun items query getText => ⟨_, fuzzyFilter_perm items query getText, fun item => ?_⟩⟩
  rw [totalScore_isSome]
  exact forall_congr' fun token => imp_congr mem_tokens Iff.rfl

end

end Trek.Tui.Fuzzy
