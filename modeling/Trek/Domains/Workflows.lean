/-
# The history of a domain's workflow is an undo stack

The invariant of a domain whose history is right: the files of the history hold the
versions of an undo stack, the index its position, and the workflow file its current
version (`HistoryInv`). A save that replaces a workflow is the stack's save, a restore is
its restore, and what throws leaves workflow and history as they were.

`addDomain` writes the workflow without the history. Where there is one, the version that
it replaces is the one at the position of the index, and the one that it writes is in no
file of the history, so that a restore skips it (`run_not_undoes`). Where there is none
the invariant holds (`run_undoes`).
-/
import Trek.Domains.History
import Trek.Lib.Machine

namespace Trek.Domains

variable {env : Env}

namespace DomainFiles

variable {s s' : DomainFiles}

/-! ### The invariant -/

/-- The text of the workflow that the manifest names. -/
def workflow (env : Env) (s : DomainFiles) : Option String :=
  s.manifest.bind fun w => (readFileSync s.nodes (join env.dir w)).toOption

/-- The index of the history, and what its files hold. -/
def recorded (env : Env) (s : DomainFiles) : Option (HistoryIndex × List (Option DiskNode)) :=
  s.index.map fun index => (index, index.order.map fun file => s.nodes.get? (join env.history file))

/-- The history is an undo stack, of which the workflow is the current version. -/
structure HistoryInv (env : Env) (s : DomainFiles) (index : HistoryIndex) (stack : UndoStack String) : Prop where
  directories : ∀ p, p <+: env.history → s.nodes.get? p = some .directory
  recorded : Recorded env s.nodes index.order stack.versions
  position : index.position = stack.position
  current : s.workflow env = some stack.current

/-- The invariant. -/
structure Inv (env : Env) (s : DomainFiles) : Prop where
  /-- The only directories are the domain's and that of its history. -/
  below : ∀ p, s.nodes.get? p = some .directory → env.dir <+: p → p = env.dir ∨ p = env.history
  workflow : ∀ w, s.manifest = some w → ∃ text name, s.nodes.get? (join env.dir w) = some (.file text) ∧
    Version env text name ∧ w = name ++ ".yaml"
  bare : s.manifest = none → s.index = none
  history : ∀ index, s.index = some index → ∃ stack, HistoryInv env s index stack

theorem Inv.exists_manifest (h : s.Inv env) {index : HistoryIndex} (hi : s.index = some index) :
    ∃ w, s.manifest = some w := by
  by_contra hnone
  rw [h.bare (Option.eq_none_iff_forall_ne_some.mpr fun w hw => hnone ⟨w, hw⟩)] at hi
  cases hi

/-- Nothing that was on disk has changed, and neither has the index. -/
structure Unchanged (s s' : DomainFiles) : Prop where
  manifest : s'.manifest = s.manifest
  index : s'.index = s.index
  files : SameFiles s.nodes s'.nodes

theorem unchanged_self (s : DomainFiles) : Unchanged s s := ⟨rfl, rfl, fun _ _ h => h⟩

theorem workflow_eq {w text : String} (hw : s.manifest = some w)
    (hfile : s.nodes.get? (join env.dir w) = some (.file text)) : s.workflow env = some text := by
  rw [workflow, hw, Option.bind_some, readFileSync, hfile]
  rfl

/-- What a version says of the name of its workflow. -/
theorem version_name {text name name' : String} (h : Version env text name) (h' : Version env text name') :
    name = name' := by
  obtain ⟨wf, hp, rfl⟩ := h.parses
  obtain ⟨wf', hp', rfl⟩ := h'.parses
  rw [hp] at hp'
  rw [Except.ok.inj hp']

theorem HistoryInv.plain {index : HistoryIndex} {stack : UndoStack String} (h : HistoryInv env s index stack)
    {name : String} (hv : Version env stack.current name) : IsPlain name := by
  obtain ⟨name', hv', hplain⟩ := h.recorded.versions stack.current (List.mem_append_right _ List.mem_cons_self)
  rwa [version_name hv hv']

theorem HistoryInv.readHistory {index : HistoryIndex} {stack : UndoStack String} (h : HistoryInv env s index stack)
    (hi : s.index = some index) : s.readHistory = some index := by
  rw [DomainFiles.readHistory, hi, Option.filter_some, if_pos]
  rw [decide_eq_true_eq, h.position, h.recorded.length]
  exact stack.length_versions

theorem readHistory_none (hi : s.index = none) : s.readHistory = none := by
  rw [readHistory, hi]
  rfl

/-- The domain that has a manifest. -/
theorem Inv.current_of_manifest (h : s.Inv env) {w : String} (hw : s.manifest = some w) :
    ∃ text name, s.workflow env = some text ∧ s.nodes.get? (join env.dir w) = some (.file text) ∧
      Version env text name ∧ w = name ++ ".yaml" ∧ s.current env = .ok (some ⟨name, text⟩) := by
  obtain ⟨text, name, hfile, hversion, rfl⟩ := h.workflow w hw
  obtain ⟨wf, hparse, rfl⟩ := hversion.parses
  refine ⟨text, wf.name, workflow_eq hw hfile, hfile, hversion, rfl, ?_⟩
  rw [current, hw]
  simp only [readFileSync, hfile]
  change (parseArchonWorkflow env.yaml text (some (wf.name ++ ".yaml")) >>= _) = _
  rw [parse_yamlPath, hparse]
  rfl

/-- The domain's workflow is a version, the package's too. -/
theorem Inv.version_of_current (h : s.Inv env) (hs : env.Sound) {c : Current} (hc : s.current env = .ok (some c)) :
    Version env c.yaml c.workflowName := by
  cases hw : s.manifest with
  | some w =>
    obtain ⟨text, name, -, -, hversion, -, hcurrent⟩ := h.current_of_manifest hw
    rw [hcurrent] at hc
    obtain rfl := Option.some.inj (Except.ok.inj hc)
    exact hversion
  | none =>
    rw [current, hw] at hc
    cases hb : env.bundled with
    | none =>
      rw [hb] at hc
      cases hc
    | some text =>
      rw [hb] at hc
      obtain ⟨name, hversion⟩ := hs.bundled text hb
      obtain ⟨wf, hparse, rfl⟩ := hversion.parses
      simp only [hparse] at hc
      obtain rfl := Option.some.inj (Except.ok.inj hc)
      exact hversion

/-! ### Directories -/

/-- A directory that is on the way to another is the first, the other, or above. -/
theorem eq_of_between {dir p : Path} {x : String} (h₁ : dir <+: p) (h₂ : p <+: dir ++ [x]) : p = dir ∨ p = dir ++ [x] := by
  obtain ⟨t, rfl⟩ := h₁
  have ht := (List.prefix_append_right_inj dir).mp h₂
  rcases t with _ | ⟨y, t⟩
  · exact .inl (List.append_nil dir)
  · obtain ⟨rfl, ht'⟩ := List.cons_prefix_cons.mp ht
    obtain rfl := List.prefix_nil.mp ht'
    exact .inr rfl

/-- The directories that the calls make. -/
theorem Inv.mkdir (h : s.Inv env) {path : Path} {nodes : Disk} (hm : mkdirSync s.nodes path = .ok nodes)
    (hpath : path <+: env.history) : ({ s with nodes } : DomainFiles).Inv env := by
  obtain ⟨hget, -⟩ := get?_mkdirSync hm
  have hfiles := sameFiles_mkdirSync hm
  refine ⟨fun p hp hdir => ?_, fun w hw => ?_, h.bare, fun index hi => ?_⟩
  · rcases hget p with he | ⟨-, hpre, -⟩
    · exact h.below p (he ▸ hp) hdir
    · exact eq_of_between hdir (hpre.trans hpath)
  · obtain ⟨text, name, hfile, hversion⟩ := h.workflow w hw
    exact ⟨text, name, hfiles _ _ hfile, hversion⟩
  · obtain ⟨stack, hstack⟩ := h.history index hi
    obtain ⟨w, hw⟩ := h.exists_manifest hi
    obtain ⟨text, -, hworkflow, hfile, -⟩ := h.current_of_manifest hw
    refine ⟨stack, fun p hp => ?_, hstack.recorded.congr fun file hf => ?_, hstack.position, ?_⟩
    · rcases hget p with he | ⟨-, -, hd⟩
      · exact he.trans (hstack.directories p hp)
      · exact hd
    · obtain ⟨text', ht'⟩ := hstack.recorded.exists_file hf
      rw [ht']
      exact hfiles _ _ ht'
    · rw [← hstack.current, hworkflow]
      exact workflow_eq (s := { s with nodes }) hw (hfiles _ _ hfile)

theorem unchanged_mkdir {path : Path} {nodes : Disk} (hm : mkdirSync s.nodes path = .ok nodes) :
    Unchanged s { s with nodes } := ⟨rfl, rfl, sameFiles_mkdirSync hm⟩

/-! ### Replacing the workflow -/

theorem yaml_ne_history (name : String) : name ++ ".yaml" ≠ "history" := by
  intro he
  have := congrArg (·.toList.getLast?) he
  simp only [String.toList_append] at this
  rw [List.getLast?_append_of_ne_nil _ (by decide)] at this
  exact absurd this (by decide)

theorem join_yaml {name : String} (h : IsPlain name) : join env.dir (name ++ ".yaml") = env.dir ++ [name ++ ".yaml"] := by
  refine join_plain env.dir (isPlain_append.mpr ⟨h, by decide⟩) ?_
  rw [String.toList_append, List.length_append]
  exact Nat.lt_add_left _ (by decide)

theorem dir_ne_history (x file : String) : env.history ++ [file] ≠ env.dir ++ [x] := by
  intro he
  have := congrArg List.length he
  simp [Env.history] at this

/-- A workflow with a plain name takes the place of one with a plain name; the history stays. -/
theorem replaceWorkflow_spec {name : String} (text : String) (hname : IsPlain name)
    (hdir : s.nodes.get? env.dir = some .directory)
    (hbelow : ∀ p, s.nodes.get? p = some .directory → env.dir <+: p → p = env.dir ∨ p = env.history)
    (hprev : ∀ w, s.manifest = some w → ∃ prev, w = prev ++ ".yaml" ∧ IsPlain prev) :
    ∃ s', replaceWorkflow env s name text = .ok s' ∧ s'.manifest = some (name ++ ".yaml") ∧ s'.index = s.index ∧
      s'.nodes.get? (join env.dir (name ++ ".yaml")) = some (.file text) ∧
      (∀ p, s'.nodes.get? p = some .directory ↔ s.nodes.get? p = some .directory) ∧
      ∀ file, s'.nodes.get? (env.history ++ [file]) = s.nodes.get? (env.history ++ [file]) := by
  have hnot : s.nodes.get? (env.dir ++ [name ++ ".yaml"]) ≠ some .directory := by
    intro hd
    rcases hbelow _ hd (List.prefix_append _ _) with he | he
    · have := congrArg List.length he
      simp at this
    · exact yaml_ne_history name (List.singleton_inj.mp (List.append_cancel_left he))
  have hwrite : writeFileSync s.nodes (env.dir ++ [name ++ ".yaml"]) text =
      .ok (s.nodes.set (env.dir ++ [name ++ ".yaml"]) (.file text)) := by
    refine writeFileSync_eq_ok.mpr ⟨hnot, ?_, rfl⟩
    rw [List.dropLast_concat]
    exact hdir
  generalize hset : s.nodes.set (env.dir ++ [name ++ ".yaml"]) (.file text) = nodes at hwrite
  have hself : nodes.get? (env.dir ++ [name ++ ".yaml"]) = some (.file text) := hset ▸ OrdMap.get?_set_self ..
  have hother : ∀ p, p ≠ env.dir ++ [name ++ ".yaml"] → nodes.get? p = s.nodes.get? p :=
    fun p hp => hset ▸ OrdMap.get?_set_ne _ _ hp
  have hdirs : ∀ p, nodes.get? p = some .directory ↔ s.nodes.get? p = some .directory := by
    intro p
    by_cases hp : p = env.dir ++ [name ++ ".yaml"]
    · subst hp
      rw [hself]
      exact ⟨fun h => (nomatch h), fun h => absurd h hnot⟩
    · rw [hother p hp]
  rw [replaceWorkflow, join_yaml hname, hwrite]
  refine ⟨_, rfl, rfl, rfl, ?_⟩
  -- the workflow before it is another entry of the directory
  have hunlink : ∀ prev, IsPlain prev → prev ++ ".yaml" ≠ name ++ ".yaml" →
      (unlinkIfThere nodes (join env.dir (prev ++ ".yaml"))).get? (env.dir ++ [name ++ ".yaml"]) = some (.file text) ∧
      (∀ p, (unlinkIfThere nodes (join env.dir (prev ++ ".yaml"))).get? p = some .directory ↔
        s.nodes.get? p = some .directory) ∧
      ∀ file, (unlinkIfThere nodes (join env.dir (prev ++ ".yaml"))).get? (env.history ++ [file]) =
        nodes.get? (env.history ++ [file]) := by
    intro prev hprev hne
    rw [join_yaml hprev]
    refine ⟨?_, fun p => ?_, fun file => ?_⟩
    · rcases get?_unlinkIfThere nodes (env.dir ++ [prev ++ ".yaml"]) (env.dir ++ [name ++ ".yaml"]) with he | ⟨hp, -⟩
      · rw [he, hself]
      · exact absurd (List.singleton_inj.mp (List.append_cancel_left hp)).symm hne
    · rw [← hdirs]
      rcases get?_unlinkIfThere nodes (env.dir ++ [prev ++ ".yaml"]) p with he | ⟨-, ⟨text', ht'⟩, hnone⟩
      · rw [he]
      · rw [hnone, ht']
        exact ⟨fun h => (nomatch h), fun h => (nomatch h)⟩
    · rcases get?_unlinkIfThere nodes (env.dir ++ [prev ++ ".yaml"]) (env.history ++ [file]) with he | ⟨hp, -⟩
      · exact he
      · exact absurd hp (dir_ne_history _ _)
  have hhistory : ∀ file, nodes.get? (env.history ++ [file]) = s.nodes.get? (env.history ++ [file]) :=
    fun file => hother _ (dir_ne_history _ _)
  cases hw : s.manifest with
  | none => exact ⟨hself, hdirs, hhistory⟩
  | some w =>
    dsimp only
    split
    · rename_i hne
      obtain ⟨prev, rfl, hprev⟩ := hprev w hw
      obtain ⟨h₁, h₂, h₃⟩ := hunlink prev hprev hne
      exact ⟨h₁, h₂, fun file => (h₃ file).trans (hhistory file)⟩
    · exact ⟨hself, hdirs, hhistory⟩

/-- The invariant after the workflow was replaced by the current version of the history. -/
theorem inv_of_replaced (index : HistoryIndex) (stack : UndoStack String) {name : String}
    (hbelow : ∀ p, s.nodes.get? p = some .directory → env.dir <+: p → p = env.dir ∨ p = env.history)
    (hdirs : ∀ p, p <+: env.history → s.nodes.get? p = some .directory)
    (hrecorded : Recorded env s.nodes index.order stack.versions) (hposition : index.position = stack.position)
    (hversion : Version env stack.current name) (hmanifest : s.manifest = some (name ++ ".yaml"))
    (hfile : s.nodes.get? (join env.dir (name ++ ".yaml")) = some (.file stack.current)) (hindex : s.index = some index) :
    s.Inv env ∧ HistoryInv env s index stack := by
  have hhistory : HistoryInv env s index stack := ⟨hdirs, hrecorded, hposition, workflow_eq hmanifest hfile⟩
  refine ⟨⟨hbelow, fun w hw => ?_, fun hnone => ?_, fun index' hi => ?_⟩, hhistory⟩
  · obtain rfl := Option.some.inj (hmanifest.symm.trans hw)
    exact ⟨stack.current, name, hfile, hversion, rfl⟩
  · rw [hmanifest] at hnone
    cases hnone
  · obtain rfl := Option.some.inj (hindex.symm.trans hi)
    exact ⟨stack, hhistory⟩

/-! ### Restoring -/

/-- A restore with a version before the current one is the stack's restore. -/
theorem restore_ok (h : s.Inv env) {index : HistoryIndex} {stack : UndoStack String} (hi : s.index = some index)
    (hstack : HistoryInv env s index stack) (hpos : 0 < index.position) :
    ∃ s' name stack', s.restoreDomainWorkflow env = (s', .ok name) ∧ stack.restore? = some stack' ∧ s'.Inv env ∧
      s'.index = some ⟨index.order, index.position - 1⟩ ∧
      HistoryInv env s' ⟨index.order, index.position - 1⟩ stack' := by
  obtain ⟨stack', hrestore⟩ := UndoStack.exists_restore? (hstack.position ▸ hpos)
  have hversions := UndoStack.versions_restore? hrestore
  have hposition : index.position - 1 = stack'.position := by
    have := UndoStack.position_restore? hrestore
    have := hstack.position
    omega
  -- the version before the current one is in its file
  have htext : stack.versions[index.position - 1]? = some stack'.current := by
    rw [← hversions, hposition, stack'.getElem?_position]
  obtain ⟨file, hfile, hread⟩ := hstack.recorded.getElem? htext
  obtain ⟨name, hversion, hname⟩ := hstack.recorded.versions _ (List.mem_of_getElem? htext)
  obtain ⟨wf, hparse, rfl⟩ := hversion.parses
  -- the domain has a workflow, with a plain name
  obtain ⟨w, hw⟩ := h.exists_manifest hi
  obtain ⟨text, prev, hworkflow, -, hprev, rfl, hcurrent⟩ := h.current_of_manifest hw
  obtain rfl := Option.some.inj (hworkflow.symm.trans hstack.current)
  have hmkdir : mkdirSync s.nodes env.dir = .ok s.nodes :=
    mkdirSync_of_directories fun p hp => hstack.directories p (hp.trans (List.prefix_append _ _))
  obtain ⟨s', hs', hmanifest, -, hself, hdirs, hhistory⟩ := replaceWorkflow_spec stack'.current hname
    (hstack.directories _ (List.prefix_append _ _)) h.below fun w' hw' => by
      obtain rfl := Option.some.inj (hw.symm.trans hw')
      exact ⟨prev, rfl, hstack.plain hprev⟩
  have hinv := inv_of_replaced (s := { s' with index := some ⟨index.order, index.position - 1⟩ })
    ⟨index.order, index.position - 1⟩ stack' (fun p hp => h.below p ((hdirs p).mp hp))
    (fun p hp => (hdirs p).mpr (hstack.directories p hp))
    ((hversions ▸ hstack.recorded : Recorded env s.nodes index.order stack'.versions).congr fun file _ => hhistory file)
    hposition hversion hmanifest hself rfl
  refine ⟨_, wf.name, stack', ?_, hrestore, hinv.1, rfl, hinv.2⟩
  have hne : index.position ≠ 0 := Nat.ne_of_gt hpos
  have hfileSync : readFileSync s.nodes (join env.history file) = .ok stack'.current := by
    rw [readFileSync, hread]
  have hcopy : ({ s with nodes := s.nodes } : DomainFiles) = s := rfl
  simp only [restoreDomainWorkflow, hcurrent, hstack.readHistory hi, if_neg hne, hfile, Option.getD_some, hfileSync,
    hparse, hmkdir, ensureNewline_of hversion.newline, hs']

/-- Without one it throws and changes nothing. -/
theorem restore_error (h : s.Inv env) (hpos : ∀ index, s.index = some index → index.position = 0) :
    ∃ e, s.restoreDomainWorkflow env = (s, .error e) := by
  unfold restoreDomainWorkflow
  cases s.current env with
  | error e => exact ⟨e, rfl⟩
  | ok current =>
    cases current with
    | none => exact ⟨_, rfl⟩
    | some c =>
      cases hi : s.index with
      | none =>
        simp only [readHistory_none hi]
        exact ⟨_, rfl⟩
      | some index =>
        obtain ⟨stack, hstack⟩ := h.history index hi
        simp only [hstack.readHistory hi, if_pos (hpos index hi)]
        exact ⟨_, rfl⟩

/-! ### Saving -/

theorem isPlain_of_isId {name : String} (h : isId name = true) : IsPlain name := by
  unfold isId at h
  intro hslash
  cases hl : name.toList with
  | nil =>
    rw [hl] at hslash
    cases hslash
  | cons c cs =>
    rw [hl] at h hslash
    simp only [Bool.and_eq_true, List.all_eq_true] at h
    rcases List.mem_cons.mp hslash with rfl | hm
    · exact absurd h.1.1 (by decide)
    · exact absurd (h.2 _ hm) (by decide)

/-- What the checks of a save have found. -/
theorem saveChecks_ok {yamlText : String} {wf : ArchonWorkflow} {current : Option Current}
    (h : s.saveChecks env yamlText = .ok (wf, current)) :
    parseArchonWorkflow env.yaml yamlText none = .ok wf ∧ isId wf.name = true ∧ s.current env = .ok current := by
  unfold saveChecks at h
  split at h
  · cases h
  · cases hparse : parseArchonWorkflow env.yaml yamlText none with
    | error e =>
      rw [hparse] at h
      cases h
    | ok wf' =>
      rw [hparse] at h
      simp only [bind, Except.bind] at h
      split at h
      · cases h
      · rename_i hid
        split at h
        · cases h
        · cases hc : s.current env with
          | error e =>
            rw [hc] at h
            cases h
          | ok current' =>
            rw [hc] at h
            obtain ⟨rfl, rfl⟩ := Prod.mk.inj (Except.ok.inj h)
            exact ⟨rfl, by simpa using hid, rfl⟩

/-- The domain is the same when directories were made. -/
theorem Inv.current_mkdir (h : s.Inv env) {path : Path} {nodes : Disk} (hm : mkdirSync s.nodes path = .ok nodes) :
    ({ s with nodes } : DomainFiles).current env = s.current env := by
  cases hw : s.manifest with
  | none => simp only [current, hw]
  | some w =>
    obtain ⟨text, name, hfile, -⟩ := h.workflow w hw
    simp only [current, hw, readFileSync, hfile, sameFiles_mkdirSync hm _ _ hfile]

theorem recorded_nil (env : Env) (nodes : Disk) : Recorded env nodes [] [] :=
  ⟨List.nodup_nil, fun _ h => (nomatch h), rfl, fun _ h => (nomatch h)⟩

/-- The history before a save, seeded if it was empty: its current version is the workflow. -/
theorem seedHistory_spec (h : s.Inv env) (hs : env.Sound) {current : Option Current} (hc : s.current env = .ok current)
    (hdirs : ∀ p, p <+: env.history → s.nodes.get? p = some .directory) (stamp : Stamp) :
    (∃ e, seedHistory env s.nodes s.readHistory current stamp = .error e) ∨
      ∃ nodes index, seedHistory env s.nodes s.readHistory current stamp = .ok (nodes, index) ∧
        (∀ p, nodes.get? p = some .directory ↔ s.nodes.get? p = some .directory) ∧
        (current = none ∧ index.order = [] ∨ ∃ (c : Current) (stack : UndoStack String), current = some c ∧
          IsPlain c.workflowName ∧
          Recorded env nodes index.order stack.versions ∧ index.position = stack.position ∧ stack.current = c.yaml) := by
  cases hi : s.index with
  | some index =>
    obtain ⟨stack, hstack⟩ := h.history index hi
    cases hw : s.manifest with
    | none =>
      rw [h.bare hw] at hi
      cases hi
    | some w =>
      obtain ⟨text, name, hworkflow, -, hversion, -, hcurrent⟩ := h.current_of_manifest hw
      obtain rfl := Option.some.inj (hworkflow.symm.trans hstack.current)
      obtain rfl := Except.ok.inj (hcurrent.symm.trans hc)
      have hne : index.order ≠ [] := by
        intro he
        have := stack.length_versions
        rw [← hstack.recorded.length, he] at this
        exact absurd this (Nat.not_lt_zero _)
      obtain ⟨file, files, horder⟩ := List.exists_cons_of_ne_nil hne
      refine .inr ⟨s.nodes, index, ?_, fun _ => Iff.rfl, .inr ⟨_, stack, rfl, hstack.plain hversion, hstack.recorded,
        hstack.position, rfl⟩⟩
      rw [hstack.readHistory hi]
      simp only [seedHistory, Option.getD_some, horder]
  | none =>
    rw [readHistory_none hi]
    cases current with
    | none => exact .inr ⟨s.nodes, ⟨[], 0⟩, rfl, fun _ => Iff.rfl, .inl ⟨rfl, rfl⟩⟩
    | some c =>
      have hversion := h.version_of_current hs hc
      by_cases hplain : IsPlain c.workflowName
      · obtain ⟨file, hwrite, hfile, hlen, hnew⟩ := writeHistoryFile_plain env stamp (ensureNewline c.yaml) hplain
          (hdirs _ (List.prefix_refl _))
        rw [ensureNewline_of hversion.newline] at hwrite
        refine .inr ⟨_, ⟨[file], 0⟩, ?_, directory_set_file _ hnew, .inr ⟨c, ⟨[], c.yaml, []⟩, rfl, hplain,
          (recorded_nil env s.nodes).append hfile hlen hnew hversion hplain, rfl, rfl⟩⟩
        simp only [seedHistory, Option.getD_none, ensureNewline_of hversion.newline, hwrite]
        rfl
      · obtain ⟨e, he⟩ := writeHistoryFile_slash env s.nodes stamp (ensureNewline c.yaml) hplain
          hversion.noUp fun entry below hd => by
            rcases h.below _ hd ((List.prefix_append _ _).trans (List.prefix_append _ _)) with he | he
            · have := congrArg List.length he
              simp [Env.history] at this
            · have := congrArg List.length he
              simp at this
        refine .inl ⟨e, ?_⟩
        simp only [seedHistory, Option.getD_none, he]
        rfl

/-- The new version after the ones that stay. -/
theorem dropRedo_spec {nodes : Disk} {index : HistoryIndex} {stack : UndoStack String} (text : String)
    (hrecorded : Recorded env nodes index.order stack.versions) (hposition : index.position = stack.position) :
    (dropRedo env nodes index).1 = index.position + 1 ∧
      Recorded env (dropRedo env nodes index).2 (index.order.take (index.position + 1))
        (stack.versions.take (index.position + 1)) ∧
      (stack.save text).versions = stack.versions.take (index.position + 1) ++ [text] := by
  have hne : index.order.length ≠ 0 := by
    have := stack.length_versions
    rw [← hrecorded.length] at this
    omega
  refine ⟨if_neg hne, ?_, hposition ▸ stack.versions_save text⟩
  simp only [dropRedo, if_neg hne]
  exact hrecorded.drop _

/-- The end of a save, when the versions that stay are known. -/
theorem save_tail {nodes : Disk} {index : HistoryIndex} {texts : List String} {kept : ℕ} {text : String}
    {wf : ArchonWorkflow} (stack : UndoStack String) (stamp : Stamp) (saved : SavedWorkflow) (hname : IsPlain wf.name)
    (hversion : Version env text wf.name) (hdirs : ∀ p, p <+: env.history → nodes.get? p = some .directory)
    (hbelow : ∀ p, nodes.get? p = some .directory → env.dir <+: p → p = env.dir ∨ p = env.history)
    (hprev : ∀ w, s.manifest = some w → ∃ prev, w = prev ++ ".yaml" ∧ IsPlain prev)
    (hkept : Recorded env nodes (index.order.take kept) texts) (hstack : stack.versions = texts ++ [text])
    (hposition : stack.position = texts.length) (hcurrent : stack.current = text) :
    ∃ s' index', (match writeHistoryFile env nodes stamp wf.name text with
      | .error e => ({ s with nodes }, .error e)
      | .ok (nodes, file) =>
        match replaceWorkflow env { s with nodes } wf.name text with
        | .error e => ({ s with nodes }, .error e)
        | .ok s =>
          let order := index.order.take kept ++ [file]
          ({ s with index := some ⟨order, order.length - 1⟩ }, .ok saved) :
        DomainFiles × Except String SavedWorkflow) = (s', .ok saved) ∧
      s'.Inv env ∧ s'.index = some index' ∧ HistoryInv env s' index' stack := by
  obtain ⟨file, hwrite, hfile, hlen, hnew⟩ := writeHistoryFile_plain env stamp text hname
    (hdirs _ (List.prefix_refl _))
  have hrecorded := hkept.append hfile hlen hnew hversion hname
  have hsame : ∀ p, (nodes.set (env.history ++ [file]) (.file text)).get? p = some .directory ↔
      nodes.get? p = some .directory := directory_set_file text hnew
  generalize nodes.set (env.history ++ [file]) (.file text) = nodes₁ at hwrite hrecorded hsame
  obtain ⟨s', hs', hmanifest, -, hself, hdirs', hhistory⟩ := replaceWorkflow_spec (s := { s with nodes := nodes₁ }) text
    hname ((hsame _).mpr (hdirs _ (List.prefix_append _ _))) (fun p hp => hbelow p ((hsame p).mp hp)) hprev
  have hlength : (index.order.take kept ++ [file]).length - 1 = stack.position := by
    rw [List.length_append, hkept.length, hposition]
    rfl
  have hinv := inv_of_replaced (s := { s' with
      index := some ⟨index.order.take kept ++ [file], (index.order.take kept ++ [file]).length - 1⟩ })
    ⟨index.order.take kept ++ [file], (index.order.take kept ++ [file]).length - 1⟩ stack
    (fun p hp => hbelow p ((hsame p).mp ((hdirs' p).mp hp)))
    (fun p hp => (hdirs' p).mpr ((hsame p).mpr (hdirs p hp)))
    (hstack ▸ hrecorded.congr fun file _ => hhistory file) hlength (hcurrent ▸ hversion) hmanifest (hcurrent ▸ hself) rfl
  refine ⟨_, _, ?_, hinv.1, rfl, hinv.2⟩
  simp only [hwrite, hs']

/-- A save throws and changes no file, or finds the workflow as it is, or is the stack's save. -/
theorem save_spec (hs : env.Sound) (h : s.Inv env) (yamlText : String) (seedStamp stamp : Stamp) :
    (∃ e s', s.saveDomainWorkflow env yamlText seedStamp stamp = (s', .error e) ∧ s'.Inv env ∧ Unchanged s s') ∨
    (∃ saved c, s.saveDomainWorkflow env yamlText seedStamp stamp = (s, .ok saved) ∧ s.current env = .ok (some c) ∧
      jsTrim c.yaml = jsTrim (ensureNewline yamlText)) ∨
    ∃ saved current s' index stack, s.saveDomainWorkflow env yamlText seedStamp stamp = (s', .ok saved) ∧
      s.current env = .ok current ∧ s'.Inv env ∧ s'.index = some index ∧ HistoryInv env s' index stack ∧
      ∀ c, current = some c → ∃ before : UndoStack String, stack = before.save (ensureNewline yamlText) ∧
        before.current = c.yaml := by
  unfold saveDomainWorkflow
  cases hchecks : s.saveChecks env yamlText with
  | error e => exact .inl ⟨e, s, rfl, h, unchanged_self s⟩
  | ok p =>
    obtain ⟨wf, current⟩ := p
    obtain ⟨hparse, hid, hcurrent⟩ := saveChecks_ok hchecks
    have hname := isPlain_of_isId hid
    have hversion : Version env (ensureNewline yamlText) wf.name := hs.version hparse fun hup => by
      rw [components_plain hname, List.mem_singleton] at hup
      rw [← hup] at hid
      exact absurd hid (by decide)
    dsimp only
    split
    · rename_i hsame
      obtain ⟨c, rfl, ht⟩ := (Option.any_eq_true _ _).mp hsame
      exact .inr (.inl ⟨_, c, rfl, hcurrent, of_decide_eq_true ht⟩)
    · cases hm : mkdirSync s.nodes env.history with
      | error e => exact .inl ⟨e, s, rfl, h, unchanged_self s⟩
      | ok nodes =>
        have h₁ := h.mkdir hm (List.prefix_refl _)
        have hdirs := (get?_mkdirSync hm).2
        have hc₁ := (h.current_mkdir hm).trans hcurrent
        dsimp only
        rcases seedHistory_spec h₁ hs hc₁ hdirs seedStamp with ⟨e, he⟩ | ⟨nodes₂, index, hseed, hsame₂, hcase⟩
        · refine .inl ⟨e, { s with nodes }, ?_, h₁, unchanged_mkdir hm⟩
          rw [show seedHistory env nodes s.readHistory current seedStamp = .error e from he]
        · rw [show seedHistory env nodes s.readHistory current seedStamp = .ok (nodes₂, index) from hseed]
          refine .inr (.inr ?_)
          -- unlinking versions makes and takes no directory
          have hsame₃ : ∀ p, (dropRedo env nodes₂ index).2.get? p = some .directory ↔ nodes.get? p = some .directory := by
            intro p
            rw [← hsame₂ p]
            rcases get?_foldl_unlinkIfThere env.history (index.order.drop (dropRedo env nodes₂ index).1) nodes₂ p with
              he | ⟨-, ⟨text, ht⟩, hnone⟩
            · exact iff_of_eq (congrArg (· = some DiskNode.directory) he)
            · rw [ht]
              refine ⟨fun hd => ?_, fun hd => (nomatch hd)⟩
              rw [show (dropRedo env nodes₂ index).2.get? p = none from hnone] at hd
              cases hd
          have hprev : ∀ w, s.manifest = some w → ∃ prev, w = prev ++ ".yaml" ∧ IsPlain prev := by
            intro w hw
            obtain ⟨text, name, -, -, -, rfl, hc⟩ := h.current_of_manifest hw
            obtain rfl := Except.ok.inj (hc.symm.trans hcurrent)
            rcases hcase with ⟨hnone, -⟩ | ⟨c, -, hc, hplain, -⟩
            · cases hnone
            · obtain rfl := Option.some.inj hc
              exact ⟨name, rfl, hplain⟩
          rcases hcase with ⟨rfl, horder⟩ | ⟨c, stack, rfl, -, hrecorded, hposition, hyaml⟩
          · have hkept : Recorded env (dropRedo env nodes₂ index).2 (index.order.take (dropRedo env nodes₂ index).1) [] := by
              rw [horder, List.take_nil]
              exact recorded_nil env _
            obtain ⟨s', index', hrun, hinv, hindex, hhistory⟩ := save_tail (s := s) ⟨[], ensureNewline yamlText, []⟩
              stamp ⟨wf.name, true, false⟩ hname hversion (fun p hp => (hsame₃ p).mpr (hdirs p hp))
              (fun p hp => h₁.below p ((hsame₃ p).mp hp)) hprev hkept rfl rfl rfl
            exact ⟨_, none, s', index', _, hrun, hcurrent, hinv, hindex, hhistory, fun c hc => (nomatch hc)⟩
          · obtain ⟨hkept, hstay, hversions⟩ := dropRedo_spec (ensureNewline yamlText) hrecorded hposition
            rw [← hkept] at hstay hversions
            obtain ⟨s', index', hrun, hinv, hindex, hhistory⟩ := save_tail (s := s)
              (stack.save (ensureNewline yamlText)) stamp ⟨wf.name, false, true⟩ hname hversion
              (fun p hp => (hsame₃ p).mpr (hdirs p hp)) (fun p hp => h₁.below p ((hsame₃ p).mp hp)) hprev hstay
              hversions (by
                rw [UndoStack.position_save, List.length_take, hkept, hposition]
                have := stack.length_versions
                omega) rfl
            refine ⟨_, some c, s', index', _, hrun, hcurrent, hinv, hindex, hhistory, fun c' hc => ?_⟩
            obtain rfl := Option.some.inj hc
            exact ⟨stack, rfl, hyaml⟩

/-! ### Adding -/

/-- A domain is added where it has no history, or as it is already; and the name of the workflow
does not lead up. -/
def AddsNew (env : Env) (s : DomainFiles) : Call → Prop
  | .add workflowFile content => ∀ yaml wf, addChecks env workflowFile content = .ok (yaml, wf) →
    ".." ∉ components wf.name ∧ (s.index = none ∨ s.workflow env = some (ensureNewline yaml))
  | _ => True

/-- An `addDomain` that throws changes no file. -/
theorem add_error {workflowFile : String} {content : Option String} {e : String}
    (h : s.addDomain env workflowFile content = (s', .error e)) :
    s' = s ∨ ∃ nodes, mkdirSync s.nodes env.dir = .ok nodes ∧ s' = { s with nodes } := by
  unfold addDomain at h
  split at h
  · exact .inl (Prod.mk.inj h).1.symm
  · split at h
    · exact .inl (Prod.mk.inj h).1.symm
    · rename_i nodes hm
      dsimp only at h
      split at h
      · exact .inr ⟨nodes, hm, (Prod.mk.inj h).1.symm⟩
      · cases (Prod.mk.inj h).2

theorem Inv.congr (h : s.Inv env) (hmanifest : s'.manifest = s.manifest) (hindex : s'.index = s.index)
    (hget : ∀ p, s'.nodes.get? p = s.nodes.get? p) : s'.Inv env := by
  have hworkflow : s'.workflow env = s.workflow env := by simp only [DomainFiles.workflow, readFileSync, hmanifest, hget]
  refine ⟨fun p hp => h.below p (hget p ▸ hp), fun w hw => ?_, fun hn => ?_, fun index hi => ?_⟩
  · rw [hget]
    exact h.workflow w (hmanifest ▸ hw)
  · rw [hindex]
    exact h.bare (hmanifest ▸ hn)
  · obtain ⟨stack, hstack⟩ := h.history index (hindex ▸ hi)
    exact ⟨stack, fun p hp => (hget p).trans (hstack.directories p hp), hstack.recorded.congr fun _ _ => hget _,
      hstack.position, hworkflow.trans hstack.current⟩

/-- What the checks of `addDomain` have found. -/
theorem addChecks_ok {workflowFile : String} {content : Option String} {yaml : String} {wf : ArchonWorkflow}
    (h : addChecks env workflowFile content = .ok (yaml, wf)) : parseArchonWorkflow env.yaml yaml none = .ok wf := by
  unfold addChecks at h
  split at h
  · cases h
  · split at h
    · cases h
    · split at h
      · cases h
      · rename_i text
        cases hparse : parseArchonWorkflow env.yaml text (some workflowFile) with
        | error e =>
          rw [hparse] at h
          cases h
        | ok wf' =>
          rw [hparse] at h
          obtain ⟨rfl, rfl⟩ := Prod.mk.inj (Except.ok.inj h)
          exact parse_of_path hparse

/-- Adding keeps the invariant where there is no history, or where it changes nothing. -/
theorem Inv.addDomain (hs : env.Sound) (h : s.Inv env) {workflowFile : String} {content : Option String}
    (hnew : s.AddsNew env (.add workflowFile content)) : (s.addDomain env workflowFile content).1.Inv env := by
  unfold DomainFiles.addDomain
  cases hchecks : addChecks env workflowFile content with
  | error e => exact h
  | ok p =>
    obtain ⟨yaml, wf⟩ := p
    obtain ⟨hup, hcase⟩ := hnew yaml wf hchecks
    have hversion := hs.version (addChecks_ok hchecks) hup
    cases hm : mkdirSync s.nodes env.dir with
    | error e => exact h
    | ok nodes =>
      have h₁ := h.mkdir hm (List.prefix_append _ _)
      dsimp only
      cases hw : writeFileSync nodes (join env.dir (wf.name ++ ".yaml")) (ensureNewline yaml) with
      | error e => exact h₁
      | ok nodes₁ =>
        obtain ⟨hnot, -, rfl⟩ := writeFileSync_eq_ok.mp hw
        dsimp only
        rcases hcase with hnone | hsame
        · refine ⟨fun p hp hdir => ?_, fun w hw => ?_, fun hn => (nomatch hn), fun index hi => ?_⟩
          · rw [OrdMap.get?_set] at hp
            split at hp
            · cases hp
            · exact h₁.below p hp hdir
          · obtain rfl := Option.some.inj hw
            exact ⟨_, wf.name, OrdMap.get?_set_self .., hversion, rfl⟩
          · rw [hnone] at hi
            cases hi
        · -- the same workflow again
          cases hmanifest : s.manifest with
          | none =>
            rw [DomainFiles.workflow, hmanifest] at hsame
            cases hsame
          | some w =>
            obtain ⟨text, name, hworkflow, hfile, hversion', rfl, -⟩ := h₁.current_of_manifest hmanifest
            obtain ⟨text', -, hworkflow', hfile', -⟩ := h.current_of_manifest hmanifest
            obtain rfl : text' = ensureNewline yaml := Option.some.inj (hworkflow'.symm.trans hsame)
            obtain rfl : ensureNewline yaml = text := by
              have := (sameFiles_mkdirSync hm _ _ hfile').symm.trans hfile
              exact DiskNode.file.inj (Option.some.inj this)
            obtain rfl := version_name hversion' hversion
            refine h₁.congr hmanifest.symm rfl fun p => ?_
            rw [OrdMap.get?_set]
            split
            · rename_i hp
              rw [hp, hfile]
            · rfl

/-! ### Every run -/

/-- What a call that throws has left is the workflow and the history. -/
theorem Unchanged.same (hu : Unchanged s s') (h : s.Inv env) :
    s'.workflow env = s.workflow env ∧ s'.recorded env = s.recorded env := by
  constructor
  · cases hw : s.manifest with
    | none => simp only [workflow, hu.manifest, hw, Option.bind_none]
    | some w =>
      obtain ⟨text, -, hworkflow, hfile, -⟩ := h.current_of_manifest hw
      rw [hworkflow]
      exact workflow_eq (hu.manifest.trans hw) (hu.files _ _ hfile)
  · rw [recorded, recorded, hu.index]
    cases hi : s.index with
    | none => rfl
    | some index =>
      obtain ⟨stack, hstack⟩ := h.history index hi
      refine congrArg some (Prod.ext rfl (List.map_congr_left fun file hf => ?_))
      obtain ⟨hplain, hlen⟩ := hstack.recorded.plain file hf
      obtain ⟨text, ht⟩ := hstack.recorded.exists_file hf
      rw [join_plain env.history hplain hlen, ht]
      exact hu.files _ _ ht

/-- The history is an undo stack. -/
structure Undoes (env : Env) (s : DomainFiles) : Prop where
  /-- The version at the position of the index is the workflow. -/
  current : ∀ index, s.index = some index → ∃ file text, index.order[index.position]? = some file ∧
    s.nodes.get? (join env.history file) = some (.file text) ∧ s.workflow env = some text
  /-- A save that replaces another workflow is taken back by a restore right after it. -/
  undo : ∀ yamlText seedStamp stamp saved c s₁, s.current env = .ok (some c) →
    jsTrim c.yaml ≠ jsTrim (ensureNewline yamlText) →
    s.saveDomainWorkflow env yamlText seedStamp stamp = (s₁, .ok saved) →
    ∃ s₂ name c', s₁.restoreDomainWorkflow env = (s₂, .ok name) ∧ s₂.current env = .ok (some c') ∧ c'.yaml = c.yaml
  /-- A call that throws changes neither the workflow nor the history. -/
  throws : ∀ c, (s.call env c).2 = false →
    (s.call env c).1.workflow env = s.workflow env ∧ (s.call env c).1.recorded env = s.recorded env

theorem Inv.undoes (hs : env.Sound) (h : s.Inv env) : s.Undoes env := by
  refine ⟨fun index hi => ?_, fun yamlText seedStamp stamp saved c s₁ hc hne hsave => ?_, fun c hthrow => ?_⟩
  · obtain ⟨stack, hstack⟩ := h.history index hi
    obtain ⟨file, hfile, hget⟩ := hstack.recorded.getElem? stack.getElem?_position
    exact ⟨file, stack.current, hstack.position ▸ hfile, hget, hstack.current⟩
  · rcases save_spec hs h yamlText seedStamp stamp with ⟨e, s', he, -⟩ | ⟨saved', c', he, hc', hsame⟩ |
        ⟨saved', current, s', index, stack, he, hc', hinv, hi, hstack, hbefore⟩
    · cases (Prod.mk.inj (he.symm.trans hsave)).2
    · obtain rfl := Option.some.inj (Except.ok.inj (hc'.symm.trans hc))
      exact absurd hsame hne
    · obtain rfl := Except.ok.inj (hc'.symm.trans hc)
      obtain ⟨rfl, -⟩ := Prod.mk.inj (he.symm.trans hsave)
      obtain ⟨before, rfl, hyaml⟩ := hbefore c rfl
      have hpos : 0 < index.position := by
        rw [hstack.position, UndoStack.position_save]
        exact Nat.succ_pos _
      obtain ⟨s₂, name, stack', hrestore, hback, hinv₂, hi₂, hstack₂⟩ := restore_ok hinv hi hstack hpos
      rw [UndoStack.restore?_save] at hback
      obtain rfl := Option.some.inj hback
      obtain ⟨w, hw⟩ := hinv₂.exists_manifest hi₂
      obtain ⟨text, name', hworkflow, -, -, -, hcurrent⟩ := hinv₂.current_of_manifest hw
      refine ⟨s₂, name, _, hrestore, hcurrent, ?_⟩
      rw [← hyaml]
      exact Option.some.inj (hworkflow.symm.trans hstack₂.current)
  · cases c with
    | add workflowFile content =>
      cases hadd : s.addDomain env workflowFile content with
      | mk s' result =>
        simp only [call, hadd] at hthrow ⊢
        cases result with
        | ok _ => cases hthrow
        | error e =>
          rcases add_error hadd with rfl | ⟨nodes, hm, rfl⟩
          · exact ⟨rfl, rfl⟩
          · exact (unchanged_mkdir hm).same h
    | save yamlText seedStamp stamp =>
      rcases save_spec hs h yamlText seedStamp stamp with ⟨e, s', he, -, hu⟩ | ⟨saved, c, he, -⟩ |
          ⟨saved, current, s', index, stack, he, -⟩
      · simp only [call, he]
        exact hu.same h
      · simp only [call, he] at hthrow
        cases hthrow
      · simp only [call, he] at hthrow
        cases hthrow
    | restore =>
      by_cases hpos : ∀ index, s.index = some index → index.position = 0
      · obtain ⟨e, he⟩ := restore_error h hpos
        simp only [call, he, and_self]
      · obtain ⟨index, hi⟩ := not_forall.mp hpos
        obtain ⟨hi, hne⟩ := Classical.not_imp.mp hi
        obtain ⟨stack, hstack⟩ := h.history index hi
        obtain ⟨s', name, stack', he, -⟩ := restore_ok h hi hstack (Nat.pos_of_ne_zero hne)
        simp only [call, he] at hthrow
        cases hthrow

/-- A call as a step. -/
def step (env : Env) (s : DomainFiles) (c : Call) : Option DomainFiles := some (s.call env c).1

theorem Inv.step (hs : env.Sound) (h : s.Inv env) {c : Call} (hnew : s.AddsNew env c) (hstep : s.step env c = some s') :
    s'.Inv env := by
  obtain rfl := Option.some.inj hstep
  cases c with
  | add workflowFile content => exact h.addDomain hs hnew
  | save yamlText seedStamp stamp =>
    rcases save_spec hs h yamlText seedStamp stamp with ⟨e, s', he, hinv, -⟩ | ⟨saved, c, he, -⟩ |
        ⟨saved, current, s', index, stack, he, -, hinv, -⟩
    · simpa only [call, he] using hinv
    · simpa only [call, he] using h
    · simpa only [call, he] using hinv
  | restore =>
    by_cases hpos : ∀ index, s.index = some index → index.position = 0
    · obtain ⟨e, he⟩ := restore_error h hpos
      simpa only [call, he] using h
    · obtain ⟨index, hi⟩ := not_forall.mp hpos
      obtain ⟨hi, hne⟩ := Classical.not_imp.mp hi
      obtain ⟨stack, hstack⟩ := h.history index hi
      obtain ⟨s', name, stack', he, -, hinv, -⟩ := restore_ok h hi hstack (Nat.pos_of_ne_zero hne)
      simpa only [call, he] using hinv

/-- A project without the domain: what else is on disk stays. -/
def start (env : Env) (disk : Disk) : DomainFiles where
  nodes := ⟨disk.pairs.filter fun p => !env.dir.isPrefixOf p.1, disk.nodup.sublist ((List.filter_sublist).map _)⟩
  manifest := none
  index := none

theorem inv_start (env : Env) (disk : Disk) : (start env disk).Inv env := by
  refine ⟨fun p hp hdir => ?_, fun w hw => (nomatch hw), fun _ => rfl, fun index hi => (nomatch hi)⟩
  have hmem := List.mem_filter.mp (OrdMap.get?_eq_some.mp hp)
  rw [List.isPrefixOf_iff_prefix.mpr hdir] at hmem
  cases hmem.2

def run (env : Env) : DomainFiles → List Call → Option DomainFiles := Machine.run (step env)

/-- **In every run of the calls on one domain, bundled or not, in which it is added only where it has
no history or as it is already, by a workflow whose name does not lead up: the history is an undo
stack.** -/
theorem run_undoes (env : Env) (hs : env.Sound) (disk : Disk) (calls : List Call) (s : DomainFiles)
    (hrun : run env (start env disk) calls = some s)
    (hadd : Machine.Throughout (step env) (AddsNew env) (start env disk) calls) : s.Undoes env := by
  have h : s.Inv env := Machine.inv_throughout (fun _ _ _ h hnew hstep => Inv.step hs h hnew hstep) calls
    (inv_start env disk) hadd hrun
  exact h.undoes hs

/-! ### Three workflows -/

/-- A workflow with one prompt. -/
def sample (name : String) : String := "name: " ++ name ++ "\ndescription: d\nnodes: [{id: n, prompt: p}]"

/-- What the YAML parser makes of it. -/
def sampleJson (name : String) : Json :=
  .obj [("name", .str name), ("description", .str "d"), ("nodes", .arr [.obj [("id", .str "n"), ("prompt", .str "p")]])]

/-- A text without its final newlines. -/
def chomp (text : String) : List Char := (text.toList.reverse.dropWhile (· = '\n')).reverse

/-- A project with the domain `q`; the parser knows three workflows. -/
def Env.sample : Env where
  cwd := ["w"]
  id := "q"
  yaml text :=
    match ["one", "two", "three"].find? fun name => chomp text = (DomainFiles.sample name).toList with
    | some name => .ok (sampleJson name)
    | none => .error "not a workflow"
  bundled := none

theorem sound_sample : Env.sample.Sound := by
  refine ⟨fun text wf h => ⟨wf, ?_, rfl⟩, fun _ h => (nomatch h)⟩
  have hchomp : chomp (text ++ "\n") = chomp text := by
    simp [chomp]
  have hyaml : Env.sample.yaml (text ++ "\n") = Env.sample.yaml text := by
    simp only [Env.sample, hchomp]
  unfold parseArchonWorkflow at h ⊢
  rwa [hyaml]

def aStamp : Stamp := ⟨"20260101T000000Z", by decide, by decide⟩

def firstCalls : List Call := [.add "one.yaml" (some (sample "one")), .save (sample "two") aStamp aStamp]

/-- A domain is added, and its workflow replaced by a save. -/
theorem run_undoes_firstCalls : ∃ s, run Env.sample (start Env.sample .empty) firstCalls = some s ∧ s.Undoes Env.sample := by
  refine ⟨_, rfl, run_undoes Env.sample sound_sample .empty firstCalls _ rfl
    (Machine.throughout_cons (fun yaml wf h => ⟨?_, .inl rfl⟩) rfl (Machine.throughout_cons trivial rfl trivial))⟩
  have hone : addChecks Env.sample "one.yaml" (some (sample "one")) =
      .ok (sample "one", ⟨"one", "d", [⟨"n", .prompt, "p", [], none, none⟩]⟩) := by
    decide +kernel
  obtain ⟨-, rfl⟩ := Prod.mk.inj (Except.ok.inj (hone.symm.trans h))
  decide

/-- The domain is added again with a third workflow, which the history does not get: the version at
the position of the index is the second. -/
theorem run_not_undoes : ∃ (calls : List Call) (s : DomainFiles),
    run Env.sample (start Env.sample .empty) calls = some s ∧ ¬ s.Undoes Env.sample := by
  have hrun : (run Env.sample (start Env.sample .empty) (firstCalls ++ [Call.add "three.yaml" (some (sample "three"))])).map
      (fun s => s.index.map fun index => ((index.order[index.position]?).bind fun file =>
        s.nodes.get? (join Env.sample.history file), s.workflow Env.sample)) =
      some (some (some (.file (sample "two" ++ "\n")), some (sample "three" ++ "\n"))) := by
    decide +kernel
  obtain ⟨s, hs, hindex⟩ := Option.map_eq_some_iff.mp hrun
  obtain ⟨index, hi, htexts⟩ := Option.map_eq_some_iff.mp hindex
  refine ⟨_, s, hs, fun h => ?_⟩
  obtain ⟨file, text, hfile, hget, hworkflow⟩ := h.current index hi
  rw [hfile, Option.bind_some, hget, hworkflow] at htexts
  obtain ⟨htwo, hthree⟩ := Prod.mk.inj htexts
  rw [DiskNode.file.inj (Option.some.inj htwo)] at hthree
  exact absurd hthree (by decide)

end DomainFiles

end Trek.Domains
