/-
# Added and removed paths

The lists of `paths.json` keep what is left of the calls of `addIndexedPath` and `removeIndexedPath`. A call deletes from
the other list what its path covers, so the longest path of the lists that covers a file is the path of the last call that
covers it, or in the same list (`Agrees`), and the lists say of a file what that call says (`pathIsExcluded_lastCall`).
-/
import Trek.Lib.Join
import Trek.Memory.Current
import Mathlib.Data.List.Dedup

namespace Trek.Memory

/-- A call that takes effect. -/
structure IndexCall where
  path : String
  removed : Bool
  deriving DecidableEq

/-- What the lists are to say of a file: the last call whose path covers it. -/
def lastCall (file : String) (calls : List IndexCall) : Option IndexCall :=
  calls.foldl (fun last call => if coversPath call.path file then some call else last) none

namespace MemoryManager

/-- The effect of a step on the lists: a path is added if it exists and has files to index. -/
def callOf (env : Env) (m : MemoryManager) : MemoryStep → Option IndexCall
  | .addIndexedPath input =>
    match resolveProjectPath env input with
    | .ok path =>
      if (m.index.root.get? path).isNone || (filesAt env m.index.root path).isEmpty then none
      else some ⟨relName path, false⟩
    | .error _ => none
  | .removeIndexedPath input =>
    match resolveProjectPath env input with
    | .ok path => some ⟨relName path, true⟩
    | .error _ => none
  | _ => none

/-- The calls of a run that take effect. -/
def callsOf (env : Env) : MemoryManager → List MemoryStep → List IndexCall
  | _, [] => []
  | m, s :: steps => (m.callOf env s).toList ++ ((m.step env s).map (callsOf env · steps)).getD []

end MemoryManager

/-! ### Paths that cover a file -/

theorem coversPath_iff {root file : String} :
    coversPath root file = true ↔ file = root ∨ root.toList ++ ['/'] <+: file.toList := by
  simp [coversPath, List.isPrefixOf_iff_prefix]

theorem coversPath_self (path : String) : coversPath path path = true := by simp [coversPath]

theorem coversPath_trans {p q f : String} (hpq : coversPath p q = true) (hqf : coversPath q f = true) :
    coversPath p f = true := by
  rw [coversPath_iff] at hpq hqf ⊢
  rcases hqf with rfl | hqf
  · exact hpq
  · rcases hpq with rfl | hpq
    · exact .inr hqf
    · exact .inr (hpq.trans ((List.prefix_append _ _).trans hqf))

/-- Of two paths that cover a file, one covers the other. -/
theorem coversPath_total {p q f : String} (hp : coversPath p f = true) (hq : coversPath q f = true) :
    coversPath p q = true ∨ coversPath q p = true := by
  have hp' := hp
  have hq' := hq
  rw [coversPath_iff] at hp' hq'
  rcases hp' with rfl | hp'
  · exact .inr hq
  rcases hq' with rfl | hq'
  · exact .inl hp
  rcases Nat.lt_trichotomy p.toList.length q.toList.length with hlen | hlen | hlen
  · left
    rw [coversPath_iff]
    right
    apply List.prefix_of_prefix_length_le hp' ((List.prefix_append _ _).trans hq')
    rw [List.length_append, List.length_singleton]
    omega
  · left
    have hsame : p.toList = q.toList := List.IsPrefix.eq_of_length
      (List.prefix_of_prefix_length_le ((List.prefix_append _ _).trans hp') ((List.prefix_append _ _).trans hq')
      (Nat.le_of_eq hlen)) hlen
    rw [String.toList_injective hsame]
    exact coversPath_self q
  · right
    rw [coversPath_iff]
    right
    apply List.prefix_of_prefix_length_le hq' ((List.prefix_append _ _).trans hp')
    rw [List.length_append, List.length_singleton]
    omega

theorem jsLength_lt_of_covers {p q : String} (h : coversPath p q = true) (hne : q ≠ p) : jsLength p < jsLength q := by
  rw [coversPath_iff] at h
  obtain ⟨rest, hq⟩ := h.resolve_left hne
  unfold jsLength
  rw [← hq]
  simp only [List.map_append, List.sum_append, List.map_cons, List.map_nil, List.sum_cons, List.sum_nil]
  have hslash : (if '/'.toNat < 0x10000 then 1 else 2) = 1 := by decide
  rw [hslash]
  omega

theorem jsLength_le_of_covers {p q : String} (h : coversPath p q = true) : jsLength p ≤ jsLength q := by
  by_cases hne : q = p
  · exact hne ▸ Nat.le_refl _
  · exact Nat.le_of_lt (jsLength_lt_of_covers h hne)

/-! ### The longest path decides -/

section

variable {rel : String}

/-- The loop over the included paths finds a longest one. -/
theorem foldl_included : ∀ (paths : List String) (best : Option (String × Bool)),
    (∀ b, best = some b → b.2 = false) →
    (∀ b, paths.foldl (fun best p => if coversPath p rel && best.all (fun b => jsLength b.1 < jsLength p)
        then some (p, false) else best) best = some b →
      b.2 = false ∧ (best = some b ∨ b.1 ∈ paths ∧ coversPath b.1 rel = true)) ∧
    (∀ q, (q ∈ paths ∧ coversPath q rel = true ∨ ∃ b, best = some b ∧ q = b.1) →
      ∃ b, paths.foldl (fun best p => if coversPath p rel && best.all (fun b => jsLength b.1 < jsLength p)
        then some (p, false) else best) best = some b ∧ jsLength q ≤ jsLength b.1)
  | [], best, hbest => by
    refine ⟨fun b hb => ⟨hbest b hb, .inl hb⟩, fun q hq => ?_⟩
    rcases hq with ⟨hq, -⟩ | ⟨b, hb, rfl⟩
    · exact absurd hq List.not_mem_nil
    · exact ⟨b, hb, Nat.le_refl _⟩
  | p :: paths, best, hbest => by
    rw [List.foldl_cons]
    by_cases hp : (coversPath p rel && best.all fun b => jsLength b.1 < jsLength p) = true
    · rw [if_pos hp]
      obtain ⟨hcovers, hlonger⟩ := Bool.and_eq_true_iff.mp hp
      obtain ⟨hmem, hmax⟩ := foldl_included paths (some (p, false)) (fun b hb => by rw [← Option.some.inj hb])
      refine ⟨fun b hb => ?_, fun q hq => ?_⟩
      · obtain ⟨hb2, he | hin⟩ := hmem b hb
        · rw [← Option.some.inj he]
          exact ⟨rfl, .inr ⟨List.mem_cons_self, hcovers⟩⟩
        · exact ⟨hb2, .inr ⟨List.mem_cons_of_mem _ hin.1, hin.2⟩⟩
      · rcases hq with ⟨hq, hqc⟩ | ⟨b₀, hb₀, rfl⟩
        · rcases List.mem_cons.mp hq with rfl | hq
          · exact hmax q (.inr ⟨_, rfl, rfl⟩)
          · exact hmax q (.inl ⟨hq, hqc⟩)
        · obtain ⟨b, hb, hle⟩ := hmax p (.inr ⟨_, rfl, rfl⟩)
          rw [hb₀, Option.all_some, decide_eq_true_eq] at hlonger
          exact ⟨b, hb, Nat.le_trans (Nat.le_of_lt hlonger) hle⟩
    · rw [if_neg hp]
      obtain ⟨hmem, hmax⟩ := foldl_included paths best hbest
      refine ⟨fun b hb => ?_, fun q hq => ?_⟩
      · obtain ⟨hb2, he | hin⟩ := hmem b hb
        · exact ⟨hb2, .inl he⟩
        · exact ⟨hb2, .inr ⟨List.mem_cons_of_mem _ hin.1, hin.2⟩⟩
      · rcases hq with ⟨hq, hqc⟩ | hq
        · rcases List.mem_cons.mp hq with rfl | hq
          · -- it is not longer than the one there is
            rw [hqc, Bool.true_and] at hp
            cases hb : best with
            | none => simp [hb] at hp
            | some b₀ =>
              rw [hb, Option.all_some, decide_eq_true_eq, Nat.not_lt] at hp
              obtain ⟨b, hb', hle⟩ := hmax b₀.1 (.inr ⟨b₀, hb, rfl⟩)
              rw [hb] at hb'
              exact ⟨b, hb', Nat.le_trans hp hle⟩
          · exact hmax q (.inl ⟨hq, hqc⟩)
        · exact hmax q (.inr hq)

/-- The loop over the excluded paths: one that is not shorter than the included path. -/
theorem foldl_excluded : ∀ (paths : List String) (best : Option (String × Bool)),
    (paths.foldl (fun best p => if coversPath p rel && best.all (fun b => jsLength b.1 ≤ jsLength p)
        then some (p, true) else best) best).any (·.2) = true ↔
      best.any (·.2) = true ∨ ∃ p ∈ paths, coversPath p rel = true ∧ ∀ b, best = some b → jsLength b.1 ≤ jsLength p
  | [], best => by simp
  | p :: paths, best => by
    rw [List.foldl_cons, foldl_excluded paths]
    by_cases hp : (coversPath p rel && best.all fun b => jsLength b.1 ≤ jsLength p) = true
    · rw [if_pos hp]
      obtain ⟨hcovers, hlonger⟩ := Bool.and_eq_true_iff.mp hp
      refine iff_of_true (.inl rfl) (.inr ⟨p, List.mem_cons_self, hcovers, fun b hb => ?_⟩)
      simpa [hb] using hlonger
    · rw [if_neg hp]
      constructor
      · rintro (h | ⟨q, hq, hqc, hqb⟩)
        · exact .inl h
        · exact .inr ⟨q, List.mem_cons_of_mem _ hq, hqc, hqb⟩
      · rintro (h | ⟨q, hq, hqc, hqb⟩)
        · exact .inl h
        · rcases List.mem_cons.mp hq with rfl | hq
          · exfalso
            apply hp
            rw [hqc, Bool.true_and]
            cases hb : best with
            | none => rfl
            | some b => simpa using hqb b hb
          · exact .inr ⟨q, hq, hqc, hqb⟩

end

theorem exists_of_any {α : Type*} {P : α → Bool} : ∀ {o : Option α}, o.any P = true → ∃ b, o = some b ∧ P b = true
  | some b, h => ⟨b, rfl, h⟩

theorem pathIsExcluded_iff {file : RelPath} {lists : IndexPathLists} : pathIsExcluded file lists = true ↔
    ∃ p ∈ lists.excludePaths, coversPath p (relName file) = true ∧
      ∀ q ∈ lists.includePaths, coversPath q (relName file) = true → jsLength q ≤ jsLength p := by
  obtain ⟨hmem, hmax⟩ := @foldl_included (relName file) lists.includePaths none (by simp)
  unfold pathIsExcluded
  dsimp only
  rw [foldl_excluded]
  constructor
  · rintro (h | ⟨p, hp, hpc, hlonger⟩)
    · obtain ⟨b, hb, hb2⟩ := exists_of_any h
      rw [(hmem b hb).1] at hb2
      exact absurd hb2 (by decide)
    · refine ⟨p, hp, hpc, fun q hq hqc => ?_⟩
      obtain ⟨b, hb, hle⟩ := hmax q (.inl ⟨hq, hqc⟩)
      exact Nat.le_trans hle (hlonger b hb)
  · rintro ⟨p, hp, hpc, hlonger⟩
    refine .inr ⟨p, hp, hpc, fun b hb => ?_⟩
    obtain ⟨-, he | ⟨hb, hbc⟩⟩ := hmem b hb
    · simp at he
    · exact hlonger b.1 hb hbc

/-! ### The lists after a call -/

/-- A path that the lists keep as it is. -/
def Normal (path : String) : Prop := normalizeListed path = path ∧ path ≠ ""

theorem mem_uniquePaths {paths : List String} (h : ∀ p ∈ paths, Normal p) {p : String} : p ∈ uniquePaths paths ↔ p ∈ paths := by
  have hmap : paths.map normalizeListed = paths := by
    have hself : ∀ p ∈ paths, normalizeListed p = id p := fun p hp => (h p hp).1
    rw [List.map_congr_left hself, List.map_id]
  unfold uniquePaths
  rw [List.mem_dedup, hmap, List.mem_filter]
  exact ⟨fun hp => hp.1, fun hp => ⟨hp, by simpa using (h p hp).2⟩⟩

namespace MemoryManager

theorem mem_uncovered {root p : String} {paths : List String} :
    p ∈ uncovered root paths ↔ p ∈ paths ∧ coversPath root p = false := by
  unfold uncovered
  rw [List.mem_filter]
  constructor
  · rintro ⟨hp, hcovers⟩
    simp only [Bool.and_eq_true, Bool.not_eq_true'] at hcovers
    exact ⟨hp, hcovers.2⟩
  · rintro ⟨hp, hcovers⟩
    refine ⟨hp, ?_⟩
    have hne : p ≠ root := by
      rintro rfl
      rw [coversPath_self] at hcovers
      exact absurd hcovers (by decide)
    simp [hcovers, hne]

theorem mem_withPath {root p : String} {paths : List String} : p ∈ withPath root paths ↔ p ∈ paths ∨ p = root := by
  unfold withPath
  split
  · next h =>
    constructor
    · exact .inl
    · rintro (hp | rfl)
      · exact hp
      · exact h
  · simp

end MemoryManager

/-- The lists after a call. -/
def IndexPathLists.after (lists : IndexPathLists) (call : IndexCall) : IndexPathLists :=
  if call.removed then
    ⟨uniquePaths (MemoryManager.uncovered call.path lists.includePaths),
      uniquePaths (MemoryManager.withPath call.path lists.excludePaths)⟩
  else
    ⟨uniquePaths (MemoryManager.withPath call.path lists.includePaths),
      uniquePaths (MemoryManager.uncovered call.path lists.excludePaths)⟩

/-- The list that a call adds to, and the other one. -/
def IndexPathLists.listOf (lists : IndexPathLists) (removed : Bool) : List String :=
  if removed then lists.excludePaths else lists.includePaths

/-- The lists keep only paths as they are. -/
def IndexPathLists.Normal (lists : IndexPathLists) : Prop := ∀ removed, ∀ p ∈ lists.listOf removed, Memory.Normal p

theorem mem_after {lists : IndexPathLists} (h : lists.Normal) {call : IndexCall} (hcall : Normal call.path) {p : String} :
    (p ∈ (lists.after call).listOf call.removed ↔ p ∈ lists.listOf call.removed ∨ p = call.path) ∧
      (p ∈ (lists.after call).listOf (!call.removed) ↔
        p ∈ lists.listOf (!call.removed) ∧ coversPath call.path p = false) := by
  have hinclude := h false
  have hexclude := h true
  have hwith : ∀ {paths : List String}, (∀ p ∈ paths, Normal p) →
      (p ∈ uniquePaths (MemoryManager.withPath call.path paths) ↔ p ∈ paths ∨ p = call.path) := by
    intro paths hpaths
    rw [mem_uniquePaths, MemoryManager.mem_withPath]
    intro q hq
    rcases MemoryManager.mem_withPath.mp hq with hq | rfl
    · exact hpaths q hq
    · exact hcall
  have hwithout : ∀ {paths : List String}, (∀ p ∈ paths, Normal p) →
      (p ∈ uniquePaths (MemoryManager.uncovered call.path paths) ↔ p ∈ paths ∧ coversPath call.path p = false) := by
    intro paths hpaths
    rw [mem_uniquePaths, MemoryManager.mem_uncovered]
    exact fun q hq => hpaths q (MemoryManager.mem_uncovered.mp hq).1
  cases hremoved : call.removed with
  | true => simpa [IndexPathLists.after, IndexPathLists.listOf, hremoved] using ⟨hwith hexclude, hwithout hinclude⟩
  | false => simpa [IndexPathLists.after, IndexPathLists.listOf, hremoved] using ⟨hwith hinclude, hwithout hexclude⟩

/-- The lists agree with the last call that covers a file: its path is in its list, and it covers no path of the other list
that covers the file. Without such a call no path of the lists covers the file. -/
def IndexPathLists.Agrees (lists : IndexPathLists) (file : String) : Option IndexCall → Prop
  | none => ∀ removed, ∀ p ∈ lists.listOf removed, coversPath p file = false
  | some call => coversPath call.path file = true ∧ call.path ∈ lists.listOf call.removed ∧
      ∀ p ∈ lists.listOf (!call.removed), coversPath p file = true → coversPath call.path p = false

theorem agrees_after {lists : IndexPathLists} (h : lists.Normal) {call : IndexCall} (hcall : Normal call.path) {file : String}
    {last : Option IndexCall} (hlast : lists.Agrees file last) :
    (lists.after call).Agrees file (if coversPath call.path file then some call else last) := by
  have hmem : ∀ {p}, p ∈ (lists.after call).listOf call.removed ↔ p ∈ lists.listOf call.removed ∨ p = call.path :=
    (mem_after h hcall).1
  have hother : ∀ {p}, p ∈ (lists.after call).listOf (!call.removed) ↔
      p ∈ lists.listOf (!call.removed) ∧ coversPath call.path p = false := (mem_after h hcall).2
  by_cases hcovers : coversPath call.path file = true
  · rw [if_pos hcovers]
    exact ⟨hcovers, hmem.mpr (.inr rfl), fun p hp _ => (hother.mp hp).2⟩
  · rw [if_neg hcovers]
    -- the call neither adds a path that covers the file nor deletes one that does
    have hkeep : ∀ removed, ∀ p, coversPath p file = true →
        (p ∈ (lists.after call).listOf removed ↔ p ∈ lists.listOf removed) := by
      intro removed p hp
      have hne : p ≠ call.path := by
        rintro rfl
        exact hcovers hp
      have huncovered : coversPath call.path p = false := by
        rw [Bool.eq_false_iff]
        exact fun hc => hcovers (coversPath_trans hc hp)
      by_cases hlist : removed = call.removed
      · rw [hlist, hmem, or_iff_left hne]
      · have hnot : removed = !call.removed := by
          cases removed <;> cases hr : call.removed <;> simp_all
        rw [hnot, hother, and_iff_left huncovered]
    cases last with
    | none =>
      intro removed p hp
      rw [Bool.eq_false_iff]
      intro hc
      exact absurd (hlast removed p ((hkeep removed p hc).mp hp)) (by simp [hc])
    | some c =>
      obtain ⟨hc, hin, hlonger⟩ := hlast
      exact ⟨hc, (hkeep _ _ hc).mpr hin, fun p hp hpf => hlonger p ((hkeep _ _ hpf).mp hp) hpf⟩

/-- Lists that agree with a call say of the file what the call says. -/
theorem pathIsExcluded_of_agrees {lists : IndexPathLists} {file : RelPath} {call : IndexCall}
    (h : lists.Agrees (relName file) (some call)) : pathIsExcluded file lists = call.removed := by
  obtain ⟨hcovers, hin, hlonger⟩ := h
  cases hremoved : call.removed with
  | true =>
    rw [hremoved] at hin hlonger
    rw [pathIsExcluded_iff]
    refine ⟨call.path, hin, hcovers, fun q hq hqc => ?_⟩
    have hnot := hlonger q hq hqc
    rcases coversPath_total hqc hcovers with hqp | hpq
    · exact jsLength_le_of_covers hqp
    · rw [hpq] at hnot
      exact absurd hnot (by decide)
  | false =>
    rw [hremoved] at hin hlonger
    rw [Bool.eq_false_iff]
    intro hexcluded
    obtain ⟨p, hp, hpc, hle⟩ := pathIsExcluded_iff.mp hexcluded
    have hnot := hlonger p hp hpc
    rcases coversPath_total hpc hcovers with hpq | hqp
    · have hne : call.path ≠ p := by
        rintro rfl
        rw [coversPath_self] at hnot
        exact absurd hnot (by decide)
      exact absurd (hle call.path hin hcovers) (Nat.not_le.mpr (jsLength_lt_of_covers hpq hne))
    · rw [hqp] at hnot
      exact absurd hnot (by decide)

/-! ### The paths of the calls -/

/-- A name of a path: neither empty nor a dot, and without a slash. -/
def IsName (name : String) : Prop := isDot name = false ∧ IsPlain name

theorem isName_of_mem {env : Env} {input : String} {path : RelPath} (h : resolveProjectPath env input = .ok path) :
    path ≠ [] ∧ ∀ name ∈ path, IsName name := by
  unfold resolveProjectPath at h
  dsimp only at h
  split at h
  · cases h
  split at h
  · cases h
  next hrel =>
    split at h
    · cases h
    obtain rfl := Except.ok.inj h
    simp only [Bool.or_eq_true, not_or, Bool.not_eq_true] at hrel
    refine ⟨by simpa using hrel.2, fun name hname => ?_⟩
    obtain ⟨k, names, heq, hnames⟩ := normalize_eq_take_append (components (jsTrim input))
      (if isAbsolute (jsTrim input) then [] else env.cwd)
    have hmem : name ∈ names := by
      unfold resolve at hname
      rw [heq, List.drop_append] at hname
      rcases List.mem_append.mp hname with hdone | hdown
      · -- what is left of the working directory is no longer than it
        have hempty : List.drop env.cwd.length ((if isAbsolute (jsTrim input) then [] else env.cwd).take k) = [] := by
          apply List.drop_eq_nil_of_le
          split
          · simp
          · exact List.length_take_le' _ _
        rw [hempty] at hdone
        exact absurd hdone List.not_mem_nil
      · exact List.mem_of_mem_drop hdown
    obtain ⟨hcomponent, hdot⟩ := hnames name hmem
    obtain ⟨part, hpart, rfl⟩ := List.mem_map.mp hcomponent
    refine ⟨hdot, ?_⟩
    unfold IsPlain
    rw [String.toList_ofList]
    exact notMem_of_mem_splitOn hpart

theorem getLast?_relName : ∀ {path : RelPath}, path ≠ [] → (∀ name ∈ path, IsName name) →
    ∃ c, (relName path).toList.getLast? = some c ∧ c ≠ '/'
  | [], h, _ => absurd rfl h
  | [name], _, h => by
    obtain ⟨hdot, hplain⟩ := h name List.mem_cons_self
    have hne : name.toList ≠ [] := by
      intro he
      rw [← String.ofList_toList (s := name), he] at hdot
      exact absurd hdot (by decide)
    refine ⟨name.toList.getLast hne, ?_, fun he => hplain (he ▸ List.getLast_mem hne)⟩
    simp [relName, List.getLast?_eq_some_getLast hne]
  | name :: next :: path, _, h => by
    obtain ⟨c, hc, hne⟩ := getLast?_relName (List.cons_ne_nil next path) fun n hn =>
      h n (List.mem_cons_of_mem _ hn)
    refine ⟨c, ?_, hne⟩
    unfold relName at hc ⊢
    rw [String.toList_intercalate] at hc ⊢
    rw [List.map_cons, List.map_cons, List.intercalate_cons_cons]
    rw [List.map_cons] at hc
    rw [List.getLast?_append, hc]
    rfl

theorem not_dotSlash_relName {path : RelPath} (hpath : path ≠ []) (h : ∀ name ∈ path, IsName name) :
    ¬['.', '/'] <+: (relName path).toList := by
  obtain ⟨name, rest, rfl⟩ := List.exists_cons_of_ne_nil hpath
  obtain ⟨hdot, hplain⟩ := h name List.mem_cons_self
  obtain ⟨after, hafter⟩ : ∃ after, (relName (name :: rest)).toList = name.toList ++ after ∧
      (name.toList = ['.'] → False) := by
    refine ⟨(relName (name :: rest)).toList.drop name.toList.length, ?_, fun he => ?_⟩
    · cases rest with
      | nil => simp [relName]
      | cons next rest => simp [relName, String.toList_intercalate]
    · rw [← String.ofList_toList (s := name), he] at hdot
      exact absurd hdot (by decide)
  rw [hafter.1]
  rintro ⟨rest', hrest⟩
  cases hname : name.toList with
  | nil =>
    rw [← String.ofList_toList (s := name), hname] at hdot
    exact absurd hdot (by decide)
  | cons c cs =>
    rw [hname] at hrest
    cases cs with
    | nil =>
      obtain ⟨rfl, -⟩ := List.cons.inj hrest
      exact hafter.2 hname
    | cons d ds =>
      -- the slash would be in the name
      obtain ⟨-, hrest⟩ := List.cons.inj hrest
      obtain ⟨rfl, -⟩ := List.cons.inj hrest
      apply hplain
      rw [hname]
      exact List.mem_cons_of_mem _ List.mem_cons_self

/-- The lists keep the path of a call as it is, if it has no backslash. -/
theorem normal_relName {env : Env} {input : String} {path : RelPath} (h : resolveProjectPath env input = .ok path)
    (hback : '\\' ∉ (relName path).toList) : Normal (relName path) := by
  obtain ⟨hpath, hnames⟩ := isName_of_mem h
  obtain ⟨c, hc, hslash⟩ := getLast?_relName hpath hnames
  have hmap : (relName path).toList.map (fun c => if c = '\\' then '/' else c) = (relName path).toList := by
    have hself : ∀ c ∈ (relName path).toList, (if c = '\\' then '/' else c) = id c := by
      intro c hc
      exact if_neg fun he : c = '\\' => hback (he ▸ hc)
    rw [List.map_congr_left hself, List.map_id]
  have hdot : ['.', '/'].isPrefixOf (relName path).toList = false := by
    rw [Bool.eq_false_iff, ne_eq, List.isPrefixOf_iff_prefix]
    exact not_dotSlash_relName hpath hnames
  constructor
  · unfold normalizeListed
    simp only [hmap, hdot, Bool.false_eq_true, ↓reduceIte, hc, Option.some.injEq, hslash]
    exact String.ofList_toList
  · intro hempty
    rw [hempty] at hc
    exact absurd hc (by simp)

/-! ### A run -/

namespace MemoryManager

/-- A step changes the lists by its call, if it has one. -/
theorem step_lists {env : Env} {m m' : MemoryManager} {s : MemoryStep} (h : m.step env s = some m') :
    m'.index.lists = ((m.callOf env s).map m.index.lists.after).getD m.index.lists := by
  cases s with
  | change root =>
    obtain rfl := Option.some.inj h
    rfl
  | addIndexedPath input =>
    obtain rfl := Option.some.inj h
    cases hpath : resolveProjectPath env input with
    | error e => simp only [addIndexedPath, callOf, hpath, Option.map_none, Option.getD_none]
    | ok path =>
      simp only [addIndexedPath, callOf, hpath]
      split <;> rfl
  | removeIndexedPath input =>
    obtain rfl := Option.some.inj h
    cases hpath : resolveProjectPath env input with
    | error e => simp only [removeIndexedPath, callOf, hpath, Option.map_none, Option.getD_none]
    | ok path =>
      simp only [removeIndexedPath, callOf, hpath]
      rfl
  | indexFile path =>
    obtain rfl := Option.some.inj h
    rfl
  | indexProject =>
    obtain rfl := Option.some.inj h
    unfold indexProject
    split <;> rfl
  | remember row =>
    obtain rfl := Option.some.inj h
    rfl
  | work =>
    change m.work env = some m' at h
    unfold work at h
    split at h
    · cases h
    all_goals obtain rfl := Option.some.inj h
    · rfl
    · exact (Index.indexOne_frame env m.index _ _).2
    · rfl
    · exact deleteCovered_lists _ _
where
  /-- `deleteCovered` reads the lists. -/
  deleteCovered_lists (x : Index) (lists : IndexPathLists) : (x.deleteCovered lists).lists = x.lists := by
    have hfold : ∀ (keys : List RelPath) (x : Index), (keys.foldl (Index.dropFile lists) x).lists = x.lists := by
      intro keys
      induction keys with
      | nil => exact fun _ => rfl
      | cons k keys ih => exact fun x => (ih _).trans (Index.dropFile_frame lists x k).2
    exact hfold _ x

/-- The path of a call is one that the lists keep as it is. -/
theorem normal_of_callOf {env : Env} {m : MemoryManager} {s : MemoryStep} {call : IndexCall}
    (h : m.callOf env s = some call) (hback : '\\' ∉ call.path.toList) : Normal call.path := by
  cases s with
  | addIndexedPath input =>
    unfold callOf at h
    cases hpath : resolveProjectPath env input with
    | error e => simp [hpath] at h
    | ok path =>
      simp only [hpath] at h
      split at h
      · cases h
      · obtain rfl := Option.some.inj h
        exact normal_relName hpath hback
  | removeIndexedPath input =>
    unfold callOf at h
    cases hpath : resolveProjectPath env input with
    | error e => simp [hpath] at h
    | ok path =>
      simp only [hpath] at h
      obtain rfl := Option.some.inj h
      exact normal_relName hpath hback
  | change | indexFile | indexProject | remember | work => cases h

theorem normal_after {lists : IndexPathLists} (h : lists.Normal) {call : IndexCall} (hcall : Normal call.path) :
    (lists.after call).Normal := by
  intro removed p hp
  by_cases hlist : removed = call.removed
  · rw [hlist, (mem_after h hcall).1] at hp
    rcases hp with hp | rfl
    · exact h _ p hp
    · exact hcall
  · have hnot : removed = !call.removed := by
      cases removed <;> cases hr : call.removed <;> simp_all
    rw [hnot, (mem_after h hcall).2] at hp
    exact h _ p hp.1

/-- Along a run the lists agree with the last call that covers a file. -/
theorem agrees_run {env : Env} (file : String) : ∀ (steps : List MemoryStep) {m m' : MemoryManager} {last : Option IndexCall},
    m.run env steps = some m' → (∀ call ∈ m.callsOf env steps, '\\' ∉ call.path.toList) →
    m.index.lists.Normal → m.index.lists.Agrees file last →
    m'.index.lists.Agrees file
      ((m.callsOf env steps).foldl (fun last call => if coversPath call.path file then some call else last) last)
  | [], m, m', last, h, _, _, hagrees => by
    obtain rfl := Option.some.inj h
    exact hagrees
  | s :: steps, m, m', last, h, hback, hnormal, hagrees => by
    obtain ⟨t, ht, hrest⟩ := Machine.run_cons_eq_some.mp h
    have hcalls : m.callsOf env (s :: steps) = (m.callOf env s).toList ++ t.callsOf env steps := by simp [callsOf, ht]
    have hlists := step_lists ht
    rw [hcalls] at hback ⊢
    rw [List.foldl_append]
    have hback' : ∀ call ∈ t.callsOf env steps, '\\' ∉ call.path.toList := fun call hc =>
      hback call (List.mem_append_right _ hc)
    cases hcall : m.callOf env s with
    | none =>
      rw [hcall] at hlists
      have hsame : t.index.lists = m.index.lists := hlists
      exact agrees_run file steps hrest hback' (hsame ▸ hnormal) (hsame ▸ hagrees)
    | some call =>
      rw [hcall] at hlists hback
      have hafter : t.index.lists = m.index.lists.after call := hlists
      have hpath := normal_of_callOf hcall (hback call (List.mem_append_left _ (by simp)))
      exact agrees_run file steps hrest hback' (hafter ▸ normal_after hnormal hpath)
        (hafter ▸ agrees_after hnormal hpath hagrees)

/-- After a run that starts with empty lists, a file that a call covers is excluded exactly if the last such call was a
removal. -/
theorem pathIsExcluded_lastCall {env : Env} {root : Dir} {steps : List MemoryStep} {m : MemoryManager}
    (hrun : (new root).run env steps = some m)
    (hback : ∀ call ∈ (new root).callsOf env steps, '\\' ∉ call.path.toList) {file : RelPath} {call : IndexCall}
    (hlast : lastCall (relName file) ((new root).callsOf env steps) = some call) :
    pathIsExcluded file m.index.lists = call.removed := by
  have hnew : (new root).index.lists.Normal ∧ (new root).index.lists.Agrees (relName file) none := by
    constructor <;>
      · intro removed p hp
        cases removed <;> exact absurd hp List.not_mem_nil
  have hagrees := agrees_run (relName file) steps hrun hback hnew.1 hnew.2
  unfold lastCall at hlast
  rw [hlast] at hagrees
  exact pathIsExcluded_of_agrees hagrees

/-- A directory is removed and a file in it is added: the file is indexed. -/
theorem pathIsExcluded_lastCall_nested : ∃ m : MemoryManager,
    (new (.dir "src" (.file "a.ts" ⟨[120], 1⟩ .nil) .nil)).run Env.plain
      [.removeIndexedPath "src", .addIndexedPath "./src/a.ts"] = some m ∧
      pathIsExcluded ["src", "a.ts"] m.index.lists = false := by
  have hrun : ((new (.dir "src" (.file "a.ts" ⟨[120], 1⟩ .nil) .nil)).run Env.plain
      [.removeIndexedPath "src", .addIndexedPath "./src/a.ts"]).isSome = true := by decide
  have hcalls : (new (.dir "src" (.file "a.ts" ⟨[120], 1⟩ .nil) .nil)).callsOf Env.plain
      [.removeIndexedPath "src", .addIndexedPath "./src/a.ts"] = [⟨"src", true⟩, ⟨"src/a.ts", false⟩] := by
    decide +kernel
  have hlast : lastCall (relName ["src", "a.ts"]) [⟨"src", true⟩, ⟨"src/a.ts", false⟩] = some ⟨"src/a.ts", false⟩ := by
    decide
  obtain ⟨m, hm⟩ := Option.isSome_iff_exists.mp hrun
  refine ⟨m, hm, pathIsExcluded_lastCall hm ?_ (hcalls ▸ hlast)⟩
  rw [hcalls]
  decide

end MemoryManager

end Trek.Memory
