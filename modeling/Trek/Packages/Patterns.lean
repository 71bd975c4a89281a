/-
# What a list of patterns says of a file

`applyPatterns` and `isEnabledByOverrides` read a list in one way: `isEnabledByPatterns` is the state both give a path.
The config selector drops the entries of a list that name a resource and adds one with a mark. A path this entry names
gets the chosen state, unless a `-` that is left names it too, and any other path the state the entries left give it
(`isEnabledByPatterns_mark`).
-/
import Trek.Packages.Resolve

namespace Trek.Packages

open OrdMap

/-- The state a list of patterns gives a path. -/
def Host.isEnabledByPatterns (host : Host) (filePath : Path) (patterns : List Pattern) (baseDir : Path) : Bool :=
  let includes := patterns.filter fun p => !isOverridePattern p
  let included := includes.isEmpty || host.matchesAnyPattern filePath includes baseDir
  ((included && !host.matchesAnyPattern filePath (marked '!' patterns) baseDir) ||
      host.matchesAnyExactPattern filePath (marked '+' patterns) baseDir) &&
    !host.matchesAnyExactPattern filePath (marked '-' patterns) baseDir

/-- The entry of a resource that is enabled or disabled. -/
def markOf (enabled : Bool) : Char := if enabled then '+' else '-'

section

variable {host : Host} {path baseDir : Path} {patterns : List Pattern}

/-- Elements of a list that are added where they are missing. -/
theorem mem_foldl_addBack {α : Type*} [BEq α] [LawfulBEq α] (q : α → Bool) {x : α} : ∀ (l result : List α),
    x ∈ l.foldl (fun result y => if !result.contains y && q y then result ++ [y] else result) result ↔
      x ∈ result ∨ (x ∈ l ∧ q x = true)
  | [], result => by simp
  | y :: l, result => by
    rw [List.foldl_cons, mem_foldl_addBack q l]
    by_cases hy : (!result.contains y && q y) = true
    · simp only [if_pos hy, List.mem_append, List.mem_cons, List.not_mem_nil, or_false]
      simp only [Bool.and_eq_true] at hy
      constructor
      · rintro ((hr | rfl) | ⟨hl, hq⟩)
        · exact .inl hr
        · exact .inr ⟨.inl rfl, hy.2⟩
        · exact .inr ⟨.inr hl, hq⟩
      · rintro (hr | ⟨rfl | hl, hq⟩)
        · exact .inl (.inl hr)
        · exact .inl (.inr rfl)
        · exact .inr ⟨hl, hq⟩
    · simp only [if_neg hy, List.mem_cons]
      constructor
      · rintro (hr | ⟨hl, hq⟩)
        · exact .inl hr
        · exact .inr ⟨.inr hl, hq⟩
      · rintro (hr | ⟨rfl | hl, hq⟩)
        · exact .inl hr
        · -- it was not added, so it was there
          left
          simpa [hq] using hy
        · exact .inr ⟨hl, hq⟩

theorem mem_applyPatterns {allPaths : List Path} :
    path ∈ host.applyPatterns allPaths patterns baseDir ↔
      path ∈ allPaths ∧ host.isEnabledByPatterns path patterns baseDir = true := by
  have hincluded : ∀ includes : List Pattern, path ∈ (if includes.isEmpty then allPaths
      else allPaths.filter fun filePath => host.matchesAnyPattern filePath includes baseDir) ↔
      path ∈ allPaths ∧ (includes.isEmpty || host.matchesAnyPattern path includes baseDir) = true := by
    intro includes
    split
    · next h => simp [h]
    · next h => simp [List.mem_filter, h]
  unfold Host.applyPatterns Host.isEnabledByPatterns
  dsimp only
  rw [mem_distinct, List.mem_filter, mem_foldl_addBack, List.mem_filter, hincluded]
  simp only [Bool.and_eq_true, Bool.or_eq_true]
  tauto

theorem contains_applyPatterns {allPaths : List Path} (h : path ∈ allPaths) :
    (host.applyPatterns allPaths patterns baseDir).contains path = host.isEnabledByPatterns path patterns baseDir := by
  rw [Bool.eq_iff_iff, List.contains_iff_mem, mem_applyPatterns]
  simp [h]

/-- The overrides of a list give the state of a list that includes every path. -/
theorem isEnabledByOverrides_eq : host.isEnabledByOverrides path patterns baseDir =
    host.isEnabledByPatterns path (patterns.filter isOverridePattern) baseDir := by
  have hincludes : (patterns.filter isOverridePattern).filter (fun p => !isOverridePattern p) = [] := by
    simp [List.filter_filter]
  unfold Host.isEnabledByOverrides Host.isEnabledByPatterns
  dsimp only
  rw [hincludes]
  cases host.matchesAnyPattern path (marked '!' (patterns.filter isOverridePattern)) baseDir <;>
    cases host.matchesAnyExactPattern path (marked '+' (patterns.filter isOverridePattern)) baseDir <;>
    cases host.matchesAnyExactPattern path (marked '-' (patterns.filter isOverridePattern)) baseDir <;> rfl

/-! ### An entry with a mark -/

@[simp] theorem isOverridePattern_mark (enabled : Bool) (pattern : Pattern) :
    isOverridePattern (markOf enabled :: pattern) = true := by
  cases enabled <;> simp [isOverridePattern, markOf]

@[simp] theorem isPattern_mark (enabled : Bool) (pattern : Pattern) : isPattern (markOf enabled :: pattern) = true := by
  simp [isPattern]

theorem marked_append (mark : Char) (a b : List Pattern) : marked mark (a ++ b) = marked mark a ++ marked mark b := by
  simp [marked]

theorem marked_mark (mark : Char) (enabled : Bool) (pattern : Pattern) :
    marked mark [markOf enabled :: pattern] = if markOf enabled = mark then [pattern] else [] := by
  by_cases h : markOf enabled = mark <;> simp [marked, h]

theorem matchesAnyExactPattern_append (a b : List Pattern) : host.matchesAnyExactPattern path (a ++ b) baseDir =
    (host.matchesAnyExactPattern path a baseDir || host.matchesAnyExactPattern path b baseDir) := by
  simp [Host.matchesAnyExactPattern]

@[simp] theorem matchesAnyExactPattern_nil : host.matchesAnyExactPattern path [] baseDir = false := rfl

theorem isEnabledByPatterns_mark (rest : List Pattern) (pattern : Pattern) (enabled : Bool) :
    host.isEnabledByPatterns path (rest ++ [markOf enabled :: pattern]) baseDir =
      if host.matchesAnyExactPattern path [pattern] baseDir then
        enabled && !host.matchesAnyExactPattern path (marked '-' rest) baseDir
      else host.isEnabledByPatterns path rest baseDir := by
  have hincludes : (rest ++ [markOf enabled :: pattern]).filter (fun p => !isOverridePattern p) =
      rest.filter fun p => !isOverridePattern p := by
    simp
  unfold Host.isEnabledByPatterns
  dsimp only
  rw [hincludes]
  simp only [marked_append, marked_mark, matchesAnyExactPattern_append]
  cases enabled <;> cases hexact : host.matchesAnyExactPattern path [pattern] baseDir <;> simp [markOf, hexact]

end

end Trek.Packages
