/-
# What the calls keep of the history

The invariant of a domain whose history is right: the files of the history hold the
versions of an undo stack, the index holds its position, and the workflow file holds its
current version (`Recorded`, `DomainFiles.Inv`). A save is the stack's save and a restore
its restore; what throws has changed no file (`save_spec`, `restore_spec`).
-/
import Mathlib.Data.List.Infix
import Std.Data.String.ToNat
import Trek.Domains.Catalog
import Trek.Lib.UndoStack

namespace Trek.Domains

/-! ### The disk -/

theorem get?_mkdirOne {nodes nodes' : Disk} {p : Path} (h : mkdirOne nodes p = .ok nodes') :
    nodes'.get? p = some .directory ∧ ∀ q, nodes'.get? q = nodes.get? q ∨ nodes.get? q = none ∧ q = p := by
  unfold mkdirOne at h
  split at h
  · rename_i hp
    obtain rfl := Except.ok.inj h
    refine ⟨OrdMap.get?_set_self .., fun q => ?_⟩
    by_cases hq : q = p
    · exact .inr ⟨hq ▸ hp, hq⟩
    · exact .inl (OrdMap.get?_set_ne nodes _ hq)
  · rename_i hp
    obtain rfl := Except.ok.inj h
    exact ⟨hp, fun _ => .inl rfl⟩
  · cases h

theorem get?_foldlM_mkdirOne : ∀ (paths : List Path) {nodes nodes' : Disk}, paths.foldlM mkdirOne nodes = .ok nodes' →
    (∀ p, nodes'.get? p = nodes.get? p ∨ nodes.get? p = none ∧ p ∈ paths ∧ nodes'.get? p = some .directory) ∧
      ∀ p ∈ paths, nodes'.get? p = some .directory
  | [], nodes, _, h => by
    obtain rfl := Except.ok.inj h
    exact ⟨fun _ => .inl rfl, fun _ hp => nomatch hp⟩
  | p :: paths, nodes, nodes', h => by
    rw [List.foldlM_cons] at h
    cases hone : mkdirOne nodes p with
    | error e =>
      rw [hone] at h
      cases h
    | ok nodes₁ =>
      rw [hone] at h
      obtain ⟨hp, hsame⟩ := get?_mkdirOne hone
      obtain ⟨hget, hdirs⟩ := get?_foldlM_mkdirOne paths h
      have hp' : nodes'.get? p = some .directory := by
        rcases hget p with he | ⟨hn, -, -⟩
        · rw [he, hp]
        · rw [hp] at hn
          cases hn
      refine ⟨fun q => ?_, fun q hq => ?_⟩
      · rcases hsame q with hs | ⟨hs, rfl⟩
        · rw [← hs]
          exact (hget q).imp_right fun ⟨hn, hq, hd⟩ => ⟨hn, List.mem_cons_of_mem _ hq, hd⟩
        · exact .inr ⟨hs, List.mem_cons_self, hp'⟩
      · rcases List.mem_cons.mp hq with rfl | hq
        · exact hp'
        · exact hdirs q hq

/-- `mkdirSync` makes the directories on the way that are missing, and nothing else. -/
theorem get?_mkdirSync {nodes nodes' : Disk} {path : Path} (h : mkdirSync nodes path = .ok nodes') :
    (∀ p, nodes'.get? p = nodes.get? p ∨ nodes.get? p = none ∧ p <+: path ∧ nodes'.get? p = some .directory) ∧
      ∀ p, p <+: path → nodes'.get? p = some .directory := by
  obtain ⟨hget, hdirs⟩ := get?_foldlM_mkdirOne path.inits h
  refine ⟨fun p => ?_, fun p hp => hdirs p ((List.mem_inits p path).mpr hp)⟩
  exact (hget p).imp_right fun ⟨hn, hp, hd⟩ => ⟨hn, (List.mem_inits p path).mp hp, hd⟩

theorem mkdirSync_of_directories {nodes : Disk} {path : Path} (h : ∀ p, p <+: path → nodes.get? p = some .directory) :
    mkdirSync nodes path = .ok nodes := by
  have hfold : ∀ paths : List Path, (∀ p ∈ paths, nodes.get? p = some .directory) →
      paths.foldlM mkdirOne nodes = .ok nodes := by
    intro paths hpaths
    induction paths with
    | nil => rfl
    | cons p paths ih =>
      have hone : mkdirOne nodes p = .ok nodes := by
        unfold mkdirOne
        rw [hpaths p List.mem_cons_self]
      rw [List.foldlM_cons, hone]
      exact ih fun q hq => hpaths q (List.mem_cons_of_mem _ hq)
  exact hfold path.inits fun p hp => h p ((List.mem_inits p path).mp hp)

/-- What was a file is the same file. -/
def SameFiles (nodes nodes' : Disk) : Prop := ∀ p text, nodes.get? p = some (.file text) → nodes'.get? p = some (.file text)

theorem sameFiles_mkdirSync {nodes nodes' : Disk} {path : Path} (h : mkdirSync nodes path = .ok nodes') :
    SameFiles nodes nodes' := by
  intro p text hp
  rcases (get?_mkdirSync h).1 p with he | ⟨hn, -⟩
  · rw [he, hp]
  · rw [hp] at hn
    cases hn

theorem writeFileSync_eq_ok {nodes nodes' : Disk} {path : Path} {text : String} :
    writeFileSync nodes path text = .ok nodes' ↔
      nodes.get? path ≠ some .directory ∧ nodes.get? path.dropLast = some .directory ∧
        nodes' = nodes.set path (.file text) := by
  unfold writeFileSync
  cases hp : nodes.get? path with
  | none =>
    cases hd : nodes.get? path.dropLast with
    | none => simp
    | some node => cases node <;> simp [eq_comm]
  | some node =>
    cases node with
    | directory => simp
    | file _ =>
      cases hd : nodes.get? path.dropLast with
      | none => simp
      | some node => cases node <;> simp [eq_comm]

theorem get?_unlinkIfThere (nodes : Disk) (path p : Path) :
    (unlinkIfThere nodes path).get? p = nodes.get? p ∨
      p = path ∧ (∃ text, nodes.get? p = some (.file text)) ∧ (unlinkIfThere nodes path).get? p = none := by
  unfold unlinkIfThere
  split
  · rename_i text hfile
    rw [OrdMap.get?_delete]
    split
    · rename_i hp
      exact .inr ⟨hp, ⟨text, hp ▸ hfile⟩, rfl⟩
    · exact .inl rfl
  · exact .inl rfl

/-- Files that are unlinked one after the other. -/
theorem get?_foldl_unlinkIfThere (dir : Path) : ∀ (names : List String) (nodes : Disk) (p : Path),
    (names.foldl (fun nodes name => unlinkIfThere nodes (join dir name)) nodes).get? p = nodes.get? p ∨
      (∃ name ∈ names, p = join dir name) ∧ (∃ text, nodes.get? p = some (.file text)) ∧
        (names.foldl (fun nodes name => unlinkIfThere nodes (join dir name)) nodes).get? p = none
  | [], _, _ => .inl rfl
  | name :: names, nodes, p => by
    rw [List.foldl_cons]
    rcases get?_foldl_unlinkIfThere dir names (unlinkIfThere nodes (join dir name)) p with he | ⟨⟨n, hn, hp⟩, hf, hnone⟩
    · rw [he]
      exact (get?_unlinkIfThere nodes (join dir name) p).imp_right
        fun ⟨hp, hf, hnone⟩ => ⟨⟨name, List.mem_cons_self, hp⟩, hf, hnone⟩
    · refine .inr ⟨⟨n, List.mem_cons_of_mem _ hn, hp⟩, ?_, hnone⟩
      rcases get?_unlinkIfThere nodes (join dir name) p with he | ⟨-, hf', -⟩
      · rwa [he] at hf
      · exact hf'

/-! ### Versions -/

/-- The text of a workflow file, with the name of the workflow. -/
structure Version (env : Env) (text name : String) : Prop where
  newline : endsWithNewline text = true
  parses : ∃ workflow, parseArchonWorkflow env.yaml text none = .ok workflow ∧ workflow.name = name
  noUp : ".." ∉ components name

/-- A final newline changes neither that a text is a workflow nor the workflow's name, and the
package's workflows end with one. -/
structure Env.Sound (env : Env) : Prop where
  newline : ∀ text workflow, parseArchonWorkflow env.yaml text none = .ok workflow →
    ∃ workflow', parseArchonWorkflow env.yaml (text ++ "\n") none = .ok workflow' ∧ workflow'.name = workflow.name
  bundled : ∀ text, env.bundled = some text → ∃ name, Version env text name

theorem ensureNewline_of {text : String} (h : endsWithNewline text = true) : ensureNewline text = text := if_pos h

theorem endsWithNewline_ensureNewline (text : String) : endsWithNewline (ensureNewline text) = true := by
  unfold ensureNewline
  split
  · assumption
  · simp [endsWithNewline]

theorem Env.Sound.version {env : Env} (h : env.Sound) {text : String} {workflow : ArchonWorkflow}
    (hparse : parseArchonWorkflow env.yaml text none = .ok workflow) (hup : ".." ∉ components workflow.name) :
    Version env (ensureNewline text) workflow.name := by
  refine ⟨endsWithNewline_ensureNewline text, ?_, hup⟩
  unfold ensureNewline
  split
  · exact ⟨workflow, hparse, rfl⟩
  · exact h.newline text workflow hparse

/-- The path of a workflow file matters only for a skill. -/
theorem parse_of_path {yaml : String → Except String Json} {text path : String} {workflow : ArchonWorkflow}
    (h : parseArchonWorkflow yaml text (some path) = .ok workflow) :
    parseArchonWorkflow yaml text none = .ok workflow := by
  unfold parseArchonWorkflow at h ⊢
  split at h
  · cases h
  · rw [if_neg (by simp)]
    exact h

theorem parse_yamlPath {yaml : String → Except String Json} (text name : String) :
    parseArchonWorkflow yaml text (some (name ++ ".yaml")) = parseArchonWorkflow yaml text none := by
  have hskill : ¬ "SKILL.md".toList <:+ (name ++ ".yaml").toList := by
    rintro ⟨l, hl⟩
    have hlast := congrArg List.getLast? hl
    rw [String.toList_append, List.getLast?_append_of_ne_nil _ (by decide), List.getLast?_append_of_ne_nil _ (by decide)]
      at hlast
    exact absurd hlast (by decide)
  unfold parseArchonWorkflow
  rw [if_neg, if_neg (by simp)]
  rw [Option.any_some, List.isSuffixOf_iff_suffix]
  exact hskill

/-! ### The recorded versions -/

/-- A file where nothing was makes and takes no directory. -/
theorem directory_set_file {nodes : Disk} {p : Path} (text : String) (hnew : nodes.get? p = none) (q : Path) :
    (nodes.set p (.file text)).get? q = some .directory ↔ nodes.get? q = some .directory := by
  rw [OrdMap.get?_set]
  split
  · rename_i hq
    simp [hq, hnew]
  · exact Iff.rfl

/-- The files of the history hold the texts. -/
structure Recorded (env : Env) (nodes : Disk) (order texts : List String) : Prop where
  nodup : order.Nodup
  plain : ∀ file ∈ order, IsPlain file ∧ 2 < file.toList.length
  files : order.map (fun file => nodes.get? (env.history ++ [file])) = texts.map fun text => some (.file text)
  versions : ∀ text ∈ texts, ∃ name, Version env text name ∧ IsPlain name

variable {env : Env} {nodes nodes' : Disk} {order texts : List String}

theorem Recorded.length (h : Recorded env nodes order texts) : order.length = texts.length := by
  have := congrArg List.length h.files
  rwa [List.length_map, List.length_map] at this

/-- The file of a version. -/
theorem Recorded.getElem? (h : Recorded env nodes order texts) {n : ℕ} {text : String} (ht : texts[n]? = some text) :
    ∃ file, order[n]? = some file ∧ nodes.get? (join env.history file) = some (.file text) := by
  have := congrArg (·[n]?) h.files
  simp only [List.getElem?_map, ht, Option.map_some] at this
  obtain ⟨file, hfile, hget⟩ := Option.map_eq_some_iff.mp this
  obtain ⟨hplain, hlen⟩ := h.plain file (List.mem_of_getElem? hfile)
  exact ⟨file, hfile, by rw [join_plain env.history hplain hlen, hget]⟩

theorem Recorded.congr (h : Recorded env nodes order texts)
    (hget : ∀ file ∈ order, nodes'.get? (env.history ++ [file]) = nodes.get? (env.history ++ [file])) :
    Recorded env nodes' order texts :=
  ⟨h.nodup, h.plain, (List.map_congr_left hget).trans h.files, h.versions⟩

theorem Recorded.take (h : Recorded env nodes order texts) (n : ℕ) : Recorded env nodes (order.take n) (texts.take n) := by
  refine ⟨h.nodup.sublist (List.take_sublist n order), fun file hf => h.plain file (List.mem_of_mem_take hf), ?_,
    fun text ht => h.versions text (List.mem_of_mem_take ht)⟩
  rw [List.map_take, List.map_take, h.files]

/-- A file of the history that is there. -/
theorem Recorded.exists_file (h : Recorded env nodes order texts) {file : String} (hf : file ∈ order) :
    ∃ text, nodes.get? (env.history ++ [file]) = some (.file text) := by
  have hmem : nodes.get? (env.history ++ [file]) ∈ order.map fun file => nodes.get? (env.history ++ [file]) :=
    List.mem_map.mpr ⟨file, hf, rfl⟩
  rw [h.files] at hmem
  obtain ⟨text, -, ht⟩ := List.mem_map.mp hmem
  exact ⟨text, ht.symm⟩

/-- The files of the versions that stay are not unlinked with the others. -/
theorem Recorded.drop (h : Recorded env nodes order texts) (n : ℕ) :
    Recorded env ((order.drop n).foldl (fun nodes name => unlinkIfThere nodes (join env.history name)) nodes)
      (order.take n) (texts.take n) := by
  refine (h.take n).congr fun file hf => ?_
  rcases get?_foldl_unlinkIfThere env.history (order.drop n) nodes (env.history ++ [file]) with he | ⟨⟨name, hn, hp⟩, -, -⟩
  · exact he
  · obtain ⟨hplain, hlen⟩ := h.plain name (List.mem_of_mem_drop hn)
    rw [join_plain env.history hplain hlen] at hp
    obtain rfl := List.singleton_inj.mp (List.append_cancel_left hp)
    exact absurd hn (List.disjoint_take_drop h.nodup (Nat.le_refl n) hf)

/-- A new version in a new file. -/
theorem Recorded.append (h : Recorded env nodes order texts) {file text name : String} (hplain : IsPlain file)
    (hlen : 2 < file.toList.length) (hnew : nodes.get? (env.history ++ [file]) = none) (hversion : Version env text name)
    (hname : IsPlain name) :
    Recorded env (nodes.set (env.history ++ [file]) (.file text)) (order ++ [file]) (texts ++ [text]) := by
  have hne : file ∉ order := by
    intro hf
    obtain ⟨text', ht⟩ := h.exists_file hf
    rw [hnew] at ht
    cases ht
  have hold : Recorded env (nodes.set (env.history ++ [file]) (.file text)) order texts := h.congr fun f hf => by
    refine OrdMap.get?_set_ne nodes _ fun he => ?_
    obtain rfl := List.singleton_inj.mp (List.append_cancel_left he)
    exact hne hf
  refine ⟨?_, fun f hf => ?_, ?_, fun t ht => ?_⟩
  · rw [List.nodup_append]
    refine ⟨h.nodup, List.nodup_singleton file, fun a ha b hb => ?_⟩
    rw [List.mem_singleton.mp hb]
    rintro rfl
    exact hne ha
  · rcases List.mem_append.mp hf with hf | hf
    · exact h.plain f hf
    · rw [List.mem_singleton.mp hf]
      exact ⟨hplain, hlen⟩
  · rw [List.map_append, List.map_append, hold.files, List.map_singleton, OrdMap.get?_set_self, List.map_singleton]
  · rcases List.mem_append.mp ht with ht | ht
    · exact h.versions t ht
    · rw [List.mem_singleton.mp ht]
      exact ⟨name, hversion, hname⟩

/-! ### Writing a version -/

theorem isPlain_append {s t : String} : IsPlain (s ++ t) ↔ IsPlain s ∧ IsPlain t := by
  rw [IsPlain, String.toList_append, List.mem_append, not_or]
  exact Iff.rfl

theorem isPlain_toString (n : ℕ) : IsPlain (toString n) := by
  intro hn
  rw [Nat.toString_eq_repr, Nat.toList_repr] at hn
  exact absurd (Nat.isDigit_of_mem_toDigits (by decide) (by decide) hn) (by decide)

/-- The end of the `n`th name. -/
def sfx (n : ℕ) : String := if n = 1 then ".yaml" else "-" ++ toString n ++ ".yaml"

theorem sfx_plain (n : ℕ) : IsPlain (sfx n) ∧ 2 < (sfx n).toList.length := by
  unfold sfx
  split
  · exact ⟨by decide, by decide⟩
  · refine ⟨isPlain_append.mpr ⟨isPlain_append.mpr ⟨by decide, isPlain_toString n⟩, by decide⟩, ?_⟩
    rw [String.toList_append, List.length_append]
    exact Nat.lt_add_left _ (by decide)

theorem sfx_inj {m n : ℕ} (h : sfx m = sfx n) : m = n := by
  have hnot : ∀ k : ℕ, ".yaml" ≠ "-" ++ toString k ++ ".yaml" := by
    intro k he
    have := congrArg (·.toList.length) he
    simp only [String.toList_append, List.length_append] at this
    rw [show "-".toList.length = 1 from rfl] at this
    omega
  unfold sfx at h
  by_cases h₁ : m = 1
  · by_cases h₂ : n = 1
    · omega
    · rw [if_pos h₁, if_neg h₂] at h
      exact absurd h (hnot n)
  · by_cases h₂ : n = 1
    · rw [if_neg h₁, if_pos h₂] at h
      exact absurd h.symm (hnot m)
    · rw [if_neg h₁, if_neg h₂] at h
      have := congrArg String.toList h
      simp only [String.toList_append] at this
      have := List.append_cancel_left (List.append_cancel_right this)
      exact Nat.repr_injective (String.toList_inj.mp this)

namespace DomainFiles

theorem historyFileName_eq (stamp : Stamp) (name : String) (n : ℕ) :
    historyFileName stamp name n = stamp.text ++ "-" ++ name ++ sfx n := rfl

theorem historyFileName_plain (stamp : Stamp) {name : String} (h : IsPlain name) (n : ℕ) :
    IsPlain (historyFileName stamp name n) ∧ 2 < (historyFileName stamp name n).toList.length := by
  rw [historyFileName_eq]
  refine ⟨isPlain_append.mpr ⟨isPlain_append.mpr ⟨isPlain_append.mpr ⟨stamp.plain, by decide⟩, h⟩, (sfx_plain n).1⟩, ?_⟩
  rw [String.toList_append, List.length_append]
  exact Nat.lt_add_left _ (sfx_plain n).2

theorem historyFileName_inj (stamp : Stamp) (name : String) {m n : ℕ}
    (h : historyFileName stamp name m = historyFileName stamp name n) : m = n := by
  rw [historyFileName_eq, historyFileName_eq] at h
  have := congrArg String.toList h
  simp only [String.toList_append] at this
  exact sfx_inj (String.toList_inj.mp (List.append_cancel_left this))

variable (env) in
/-- A version whose workflow has a plain name gets a file of its own. -/
theorem writeHistoryFile_plain (stamp : Stamp) {name : String} (text : String) (hname : IsPlain name)
    (hdir : nodes.get? env.history = some .directory) :
    ∃ file, writeHistoryFile env nodes stamp name text = .ok (nodes.set (env.history ++ [file]) (.file text), file) ∧
      IsPlain file ∧ 2 < file.toList.length ∧ nodes.get? (env.history ++ [file]) = none := by
  have hjoin : ∀ n, join env.history (historyFileName stamp name n) = env.history ++ [historyFileName stamp name n] :=
    fun n => join_plain env.history (historyFileName_plain stamp hname n).1 (historyFileName_plain stamp hname n).2
  have hfree := OrdMap.has_firstFree nodes (fun n => join env.history (historyFileName stamp name n)) (n := 1)
    fun i j _ _ he => by
      rw [hjoin, hjoin] at he
      exact historyFileName_inj stamp name (List.singleton_inj.mp (List.append_cancel_left he))
  generalize hn : nodes.firstFree (fun n => join env.history (historyFileName stamp name n)) nodes.size 1 = n at hfree
  rw [hjoin, OrdMap.has] at hfree
  have hnone := Option.isSome_eq_false_iff.mp hfree
  rw [Option.isNone_iff_eq_none] at hnone
  refine ⟨historyFileName stamp name n, ?_, (historyFileName_plain stamp hname n).1,
    (historyFileName_plain stamp hname n).2, hnone⟩
  have hwrite : writeFileSync nodes (env.history ++ [historyFileName stamp name n]) text =
      .ok (nodes.set (env.history ++ [historyFileName stamp name n]) (.file text)) := by
    refine writeFileSync_eq_ok.mpr ⟨by simp [hnone], ?_, rfl⟩
    rw [List.dropLast_concat]
    exact hdir
  simp only [writeHistoryFile]
  rw [hn, hjoin, hwrite]
  rfl

variable (env nodes) in
/-- A version whose workflow has a name with a slash would need a directory that is not there. -/
theorem writeHistoryFile_slash (stamp : Stamp) {name : String} (text : String) (hname : ¬ IsPlain name)
    (hup : ".." ∉ components name)
    (hbelow : ∀ entry below, nodes.get? (env.history ++ entry :: below) ≠ some .directory) :
    ∃ e, writeHistoryFile env nodes stamp name text = .error e := by
  cases h : writeHistoryFile env nodes stamp name text with
  | error e => exact ⟨e, rfl⟩
  | ok p =>
    simp only [writeHistoryFile] at h
    generalize nodes.firstFree (fun n => join env.history (historyFileName stamp name n)) nodes.size 1 = n at h
    cases hw : writeFileSync nodes (join env.history (historyFileName stamp name n)) text with
    | error e =>
      rw [hw] at h
      cases h
    | ok nodes' =>
      have hparent := (writeFileSync_eq_ok.mp hw).2.1
      rw [historyFileName_eq] at hparent
      obtain ⟨entry, below, last, hpath⟩ := join_slash (stamp.text ++ "-") (sfx n) env.history hname hup
        (isPlain_append.mpr ⟨stamp.plain, by decide⟩)
        (by rw [String.toList_append, List.length_append]; have := stamp.long; simp; omega)
        (sfx_plain n).1 (sfx_plain n).2
      rw [hpath, List.dropLast_concat] at hparent
      exact absurd hparent (hbelow entry below)

end DomainFiles

end Trek.Domains
