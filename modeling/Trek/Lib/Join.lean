/-
# Names below a directory

`path.join` of a directory and a name. A name without a slash names an entry of the
directory (`join_plain`); a name with a slash in it and something before its first slash
leads below an entry, so that the file it names has a directory of its own
(`join_slash`).
-/
import Trek.Lib.FileSystem
import Trek.Lib.Lines

namespace Trek

/-- `path.join(dir, name)`. -/
def join (dir : Path) (name : String) : Path := normalize dir (components name)

/-- A name without a slash. -/
def IsPlain (name : String) : Prop := '/' ∉ name.toList

instance (name : String) : Decidable (IsPlain name) := inferInstanceAs (Decidable (_ ∉ _))

theorem components_plain {name : String} (h : IsPlain name) : components name = [name] := by
  rw [components, List.splitOn_eq_singleton h, List.map_singleton, String.ofList_toList]

theorem normalize_cons (done : Path) (s : String) (rest : List String) :
    normalize done (s :: rest) =
      if isDot s then normalize done rest
      else if s = ".." then normalize done.dropLast rest
      else normalize (done ++ [s]) rest := rfl

theorem normalize_append : ∀ (l l' : List String) (done : Path), normalize done (l ++ l') = normalize (normalize done l) l'
  | [], _, _ => rfl
  | s :: l, l', done => by
    rw [List.cons_append, normalize_cons, normalize_cons]
    split
    · exact normalize_append l l' done
    · split
      · exact normalize_append l l' _
      · exact normalize_append l l' _

/-- A component that leads down. -/
theorem normalize_singleton {s : String} (done : Path) (hdot : isDot s = false) (hup : s ≠ "..") :
    normalize done [s] = done ++ [s] := by
  simp [normalize, hdot, hup]

theorem normalize_down : ∀ (l : List String) (done : Path), ".." ∉ l → normalize done l = done ++ l.filter (!isDot ·)
  | [], done, _ => (List.append_nil done).symm
  | s :: l, done, h => by
    have hl := fun hm => h (List.mem_cons_of_mem s hm)
    have hs : s ≠ ".." := fun he => h (he ▸ List.mem_cons_self)
    unfold normalize
    by_cases hdot : isDot s = true
    · rw [if_pos hdot, normalize_down l done hl, List.filter_cons_of_neg (by simp [hdot])]
    · rw [if_neg hdot, if_neg hs, normalize_down l _ hl, List.filter_cons_of_pos (by simp [hdot]), List.append_assoc]
      rfl

/-- A name that is longer than two characters and has no slash is an entry of the directory. -/
theorem join_plain {name : String} (dir : Path) (h : IsPlain name) (hlen : 2 < name.toList.length) :
    join dir name = dir ++ [name] := by
  rw [join, components_plain h]
  refine normalize_singleton dir ?_ ?_
  · simp only [isDot, Bool.or_eq_false_iff, decide_eq_false_iff_not]
    constructor
    · rintro rfl
      exact absurd hlen (by decide)
    · rintro rfl
      exact absurd hlen (by decide)
  · rintro rfl
    exact absurd hlen (by decide)

/-! ### Names with a slash -/

/-- The last slash of a list of characters. -/
theorem exists_lastSlash : ∀ {l : List Char}, '/' ∈ l → ∃ a b, l = a ++ '/' :: b ∧ '/' ∉ b
  | c :: l, h => by
    by_cases hl : '/' ∈ l
    · obtain ⟨a, b, rfl, hb⟩ := exists_lastSlash hl
      exact ⟨c :: a, b, rfl, hb⟩
    · obtain rfl : '/' = c := (List.mem_cons.mp h).resolve_right hl
      exact ⟨[], l, rfl, hl⟩

/-- What a path leads to: a directory on the way, and components that lead down. -/
theorem normalize_eq_take_append : ∀ (l : List String) (done : Path),
    ∃ k names, normalize done l = done.take k ++ names ∧ ∀ n ∈ names, n ∈ l ∧ isDot n = false
  | [], done => ⟨done.length, [], by simp [normalize], fun n hn => absurd hn List.not_mem_nil⟩
  | s :: l, done => by
    rw [normalize_cons]
    by_cases hdot : isDot s = true
    · rw [if_pos hdot]
      obtain ⟨k, names, heq, hnames⟩ := normalize_eq_take_append l done
      exact ⟨k, names, heq, fun n hn => ⟨List.mem_cons_of_mem _ (hnames n hn).1, (hnames n hn).2⟩⟩
    · rw [if_neg hdot]
      split
      · obtain ⟨k, names, heq, hnames⟩ := normalize_eq_take_append l done.dropLast
        refine ⟨min k (done.length - 1), names, ?_, fun n hn => ⟨List.mem_cons_of_mem _ (hnames n hn).1, (hnames n hn).2⟩⟩
        rw [heq, List.dropLast_eq_take, List.take_take]
      · obtain ⟨k, names, heq, hnames⟩ := normalize_eq_take_append l (done ++ [s])
        have hs : s ∈ s :: l ∧ isDot s = false := ⟨List.mem_cons_self, by simpa using hdot⟩
        rcases Nat.lt_or_ge done.length k with hk | hk
        · refine ⟨done.length, s :: names, ?_, fun n hn => ?_⟩
          · rw [heq, List.take_of_length_le (by simp; omega), List.take_length, List.append_assoc]
            rfl
          · rcases List.mem_cons.mp hn with rfl | hn
            · exact hs
            · exact ⟨List.mem_cons_of_mem _ (hnames n hn).1, (hnames n hn).2⟩
        · refine ⟨k, names, ?_, fun n hn => ⟨List.mem_cons_of_mem _ (hnames n hn).1, (hnames n hn).2⟩⟩
          rw [heq, List.take_append_of_le_length hk]

/-- Characters before the first component. -/
theorem splitOn_append_left : ∀ {pfx : List Char} (l : List Char), '/' ∉ pfx →
    ∃ first rest, l.splitOn '/' = first :: rest ∧ (pfx ++ l).splitOn '/' = (pfx ++ first) :: rest
  | [], l, _ => by
    obtain ⟨first, rest, h⟩ := List.exists_cons_of_ne_nil (List.splitOn_ne_nil '/' l)
    exact ⟨first, rest, h, h⟩
  | c :: pfx, l, h => by
    obtain ⟨first, rest, hl, hp⟩ := splitOn_append_left l (fun hm => h (List.mem_cons_of_mem c hm))
    refine ⟨first, rest, hl, ?_⟩
    have hc : (c == '/') = false := by
      rw [beq_eq_false_iff_ne]
      rintro rfl
      exact h List.mem_cons_self
    rw [List.cons_append, List.splitOn_cons_eq_if_modifyHead, hc, hp]
    rfl

/-- A name with a slash, between characters that have none: the file is below an entry of the
directory that begins with the first of them. -/
theorem join_slash {name : String} (pfx sfx : String) (dir : Path) (hslash : ¬ IsPlain name) (hup : ".." ∉ components name)
    (hpfx : IsPlain pfx) (hlen : 2 < pfx.toList.length) (hsfx : IsPlain sfx) (hlen' : 2 < sfx.toList.length) :
    ∃ entry below last, join dir (pfx ++ name ++ sfx) = dir ++ entry :: below ++ [last] := by
  obtain ⟨a, b, hname, hb⟩ := exists_lastSlash (not_not.mp hslash)
  obtain ⟨first, rest, ha, hpa⟩ := splitOn_append_left a hpfx
  have hcomps : components (pfx ++ name ++ sfx) =
      String.ofList (pfx.toList ++ first) :: rest.map String.ofList ++ [String.ofList (b ++ sfx.toList)] := by
    rw [components, String.toList_append, String.toList_append, hname]
    rw [show pfx.toList ++ (a ++ '/' :: b) ++ sfx.toList = (pfx.toList ++ a) ++ '/' :: (b ++ sfx.toList) by simp]
    rw [List.splitOn_append_cons_self, hpa, List.splitOn_eq_singleton]
    · simp
    · rw [List.mem_append]
      exact fun hm => hm.elim hb hsfx
  have hcomps' : components name = String.ofList first :: rest.map String.ofList ++ [String.ofList b] := by
    rw [components, hname, List.splitOn_append_cons_self, ha, List.splitOn_eq_singleton hb]
    simp
  have hlong : ∀ l : List Char, 2 < l.length → isDot (String.ofList l) = false ∧ String.ofList l ≠ ".." := by
    intro l hl
    refine ⟨?_, fun he => ?_⟩
    · simp only [isDot, Bool.or_eq_false_iff, decide_eq_false_iff_not]
      constructor
      · intro he
        rw [← String.toList_ofList (l := l), he] at hl
        exact absurd hl (by decide)
      · intro he
        rw [← String.toList_ofList (l := l), he] at hl
        exact absurd hl (by decide)
    · rw [← String.toList_ofList (l := l), he] at hl
      exact absurd hl (by decide)
  obtain ⟨hdot, hne⟩ := hlong (pfx.toList ++ first) (by rw [List.length_append]; omega)
  obtain ⟨hdot', hne'⟩ := hlong (b ++ sfx.toList) (by rw [List.length_append]; omega)
  have hrest : ".." ∉ rest.map String.ofList := by
    intro hm
    refine hup (hcomps' ▸ ?_)
    exact List.mem_append_left _ (List.mem_cons_of_mem _ hm)
  refine ⟨String.ofList (pfx.toList ++ first), (rest.map String.ofList).filter (!isDot ·),
    String.ofList (b ++ sfx.toList), ?_⟩
  rw [join, hcomps, normalize_append, normalize_singleton _ hdot' hne', normalize_down]
  · rw [List.filter_cons_of_pos (by rw [hdot]; rfl)]
  · intro hm
    rcases List.mem_cons.mp hm with he | hm
    · exact hne he.symm
    · exact hrest hm

end Trek
