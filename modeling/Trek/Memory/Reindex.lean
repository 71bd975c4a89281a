/-
# Runs of the project memory

In a run the jobs go one after the other while files and lists change in between. Their
invariant holds throughout; and what the queue makes of the index when nothing else
happens is known task by task, so that a last `indexProject` can be compared with the
project as it is.
-/
import Trek.Memory.Current

namespace Trek.Memory

namespace MemoryManager

variable {env : Env} {versions : RelPath → ℕ → ℕ → List UInt8}

/-! ### Every run -/

/-- A row that is no file's. -/
theorem indexed_remember {x : Index} (h : x.Indexed env versions) (row : IndexedChunk) :
    ({ x with rows := (Index.putAll env none [row] x.rows).1 } : Index).Indexed env versions := by
  obtain ⟨new, hrows, -, -, hfile, hnodup⟩ := Index.putAll_spec env none [row] x.rows h.nodup
  rw [hrows]
  have hnone : ∀ path, new.filter (·.file = some path) = [] := by
    intro path
    refine List.filter_eq_nil_iff.mpr fun r hr hro => ?_
    rw [decide_eq_true_eq, hfile r hr] at hro
    cases hro
  have hrows : ∀ path, (x.rows ++ new).filter (·.file = some path) = x.rowsOf path := by
    intro path
    rw [List.filter_append, hnone, List.append_nil]
    rfl
  refine ⟨hnodup, fun path prev hprev => ?_, fun path prev hprev => ?_, fun r hr path hro => ?_⟩
  · rw [Index.rowsOf, hrows]
    exact h.ids path prev hprev
  · rw [Index.rowsOf, hrows]
    exact h.content path prev hprev
  · rcases List.mem_append.mp hr with hr | hr
    · exact h.listed r hr path hro
    · rw [hfile r hr] at hro
      cases hro

/-- The invariant of the jobs, and the project's files. -/
structure Sound (env : Env) (versions : RelPath → ℕ → ℕ → List UInt8) (m : MemoryManager) : Prop where
  indexed : m.index.Indexed env versions
  root : Index.Stamped versions m.index.root

theorem Sound.step {m m' : MemoryManager} {input : MemoryStep} (h : m.Sound env versions)
    (hchange : ∀ root, input = .change root → Index.Stamped versions root) (hs : m.step env input = some m') :
    m'.Sound env versions := by
  have hlists : ∀ lists queue, (⟨m.index.saveIndexPaths lists, queue⟩ : MemoryManager).Sound env versions :=
    fun _ _ => ⟨⟨h.indexed.nodup, h.indexed.ids, h.indexed.content, h.indexed.listed⟩, h.root⟩
  cases input with
  | change root =>
    obtain rfl := Option.some.inj hs
    exact ⟨⟨h.indexed.nodup, h.indexed.ids, h.indexed.content, h.indexed.listed⟩, hchange root rfl⟩
  | addIndexedPath input =>
    obtain rfl := Option.some.inj hs
    unfold addIndexedPath
    split
    · exact h
    · simp only
      split
      · exact h
      · exact hlists _ _
  | removeIndexedPath input =>
    obtain rfl := Option.some.inj hs
    unfold removeIndexedPath
    split
    · exact h
    · exact hlists _ _
  | indexFile path =>
    obtain rfl := Option.some.inj hs
    exact ⟨h.indexed, h.root⟩
  | indexProject =>
    obtain rfl := Option.some.inj hs
    unfold indexProject
    split
    · exact ⟨h.indexed, h.root⟩
    · exact h
  | remember row =>
    obtain rfl := Option.some.inj hs
    exact ⟨indexed_remember h.indexed row, h.root⟩
  | work =>
    obtain ⟨x, queue⟩ := m
    cases queue with
    | nil => cases hs
    | cons task queue =>
      cases task with
      | indexProject =>
        obtain rfl := Option.some.inj hs
        exact ⟨h.indexed, h.root⟩
      | indexAt extra =>
        obtain rfl := Option.some.inj hs
        exact ⟨h.indexed, h.root⟩
      | indexOne path force =>
        obtain rfl := Option.some.inj hs
        refine ⟨h.indexed.indexOne h.root path force, ?_⟩
        rw [(Index.indexOne_frame env x path force).1]
        exact h.root
      | deleteCovered lists =>
        obtain rfl := Option.some.inj hs
        obtain ⟨hr, -, hindexed, -⟩ := Index.foldl_dropFile (lists.getD x.lists) x.manifest.keys x h.indexed
        exact ⟨hindexed, hr.symm ▸ h.root⟩

theorem Sound.run : ∀ (steps : List MemoryStep) {m m' : MemoryManager}, m.Sound env versions →
    (∀ root, .change root ∈ steps → Index.Stamped versions root) → m.run env steps = some m' → m'.Sound env versions
  | [], _, _, h, _, hs => by
    obtain rfl := Option.some.inj hs
    exact h
  | input :: steps, _, _, h, hchange, hs => by
    obtain ⟨m₁, h₁, hs⟩ := Machine.run_cons_eq_some.mp hs
    refine Sound.run steps (h.step (fun root he => hchange root ?_) h₁)
      (fun root hroot => hchange root (List.mem_cons_of_mem _ hroot)) hs
    rw [he]
    exact List.mem_cons_self

theorem sound_new {root : Dir} (hroot : Index.Stamped versions root) : (new root).Sound env versions := by
  refine ⟨⟨List.nodup_nil, ?_, ?_, ?_⟩, hroot⟩
  · intro path prev hprev
    cases hprev
  · intro path prev hprev
    cases hprev
  · intro r hr
    cases hr

/-! ### The queue alone -/

/-- What a task makes of the index when nothing else happens. -/
def perform (env : Env) (x : Index) : Task → Index
  | .indexProject => (x.indexAll env (x.indexedFiles env)).deleteCovered x.lists
  | .indexOne path force => x.indexOne env path force
  | .indexAt extra => x.indexAll env (filesUnder env x.root extra)
  | .deleteCovered lists => x.deleteCovered (lists.getD x.lists)

theorem indexAll_root : ∀ (paths : List RelPath) (x : Index), (x.indexAll env paths).root = x.root
  | [], _ => rfl
  | p :: paths, x => (indexAll_root paths (x.indexOne env p false)).trans (Index.indexOne_frame env x p false).1

theorem foldl_perform_indexOne (paths : List RelPath) (x : Index) :
    (paths.map (Task.indexOne · false)).foldl (perform env) x = x.indexAll env paths := by
  rw [List.foldl_map]
  rfl

theorem foldl_perform_indexAt : ∀ (extras : List String) (x : Index),
    (extras.map Task.indexAt).foldl (perform env) x = x.indexAll env (extras.flatMap (filesUnder env x.root))
  | [], _ => rfl
  | extra :: extras, x => by
    rw [List.map_cons, List.foldl_cons, foldl_perform_indexAt extras]
    change (x.indexAll env (filesUnder env x.root extra)).indexAll env
      (extras.flatMap (filesUnder env (x.indexAll env (filesUnder env x.root extra)).root)) = _
    rw [indexAll_root, List.flatMap_cons]
    exact (List.foldl_append).symm

/-- The tasks of `indexProject` together. -/
theorem foldl_perform_projectTasks (x : Index) :
    (projectTasks env x).foldl (perform env) x = perform env x .indexProject := by
  rw [projectTasks, List.foldl_append, List.foldl_append, foldl_perform_indexOne, foldl_perform_indexAt, indexAll_root]
  change ((x.indexAll env _).indexAll env _).deleteCovered x.lists = _
  rw [perform, Index.indexedFiles]
  exact congrArg (Index.deleteCovered · x.lists) (List.foldl_append).symm

/-- The queue left to itself performs its tasks in their order. -/
theorem run_work : ∀ (n : ℕ) (x : Index) (queue : List Task) (m' : MemoryManager),
    run env ⟨x, queue⟩ (List.replicate n .work) = some m' → m'.queue = [] → m'.index = queue.foldl (perform env) x
  | 0, x, queue, m', hs, hdone => by
    obtain rfl := Option.some.inj hs
    rw [show queue = [] from hdone]
    rfl
  | n + 1, x, queue, m', hs, hdone => by
    rw [List.replicate_succ] at hs
    obtain ⟨m₁, h₁, hs⟩ := Machine.run_cons_eq_some.mp hs
    cases queue with
    | nil => cases h₁
    | cons task queue =>
      cases task with
      | indexProject =>
        obtain rfl := Option.some.inj h₁
        rw [run_work n _ _ m' hs hdone, List.foldl_append, foldl_perform_projectTasks]
        rfl
      | indexAt extra =>
        obtain rfl := Option.some.inj h₁
        rw [run_work n _ _ m' hs hdone, List.foldl_append, foldl_perform_indexOne]
        rfl
      | indexOne path force =>
        obtain rfl := Option.some.inj h₁
        exact run_work n (x.indexOne env path force) queue m' hs hdone
      | deleteCovered lists =>
        obtain rfl := Option.some.inj h₁
        exact run_work n (x.deleteCovered (lists.getD x.lists)) queue m' hs hdone

/-- A queue that comes to its end. -/
def Drains (env : Env) (queue : List Task) : Prop :=
  ∀ x, ∃ (n : ℕ) (m' : MemoryManager), run env ⟨x, queue⟩ (List.replicate n .work) = some m' ∧ m'.queue = []

/-- One task on the way to the end. -/
theorem Drains.of_work {queue queue' : List Task} (h : Drains env queue')
    (hwork : ∀ x, ∃ y, work env ⟨x, queue⟩ = some ⟨y, queue'⟩) : Drains env queue := by
  intro x
  obtain ⟨y, hy⟩ := hwork x
  obtain ⟨n, m', hrun, hdone⟩ := h y
  refine ⟨n + 1, m', ?_, hdone⟩
  rw [List.replicate_succ]
  exact Machine.run_cons_eq_some.mpr ⟨_, hy, hrun⟩

theorem drains_indexOne {queue : List Task} (h : Drains env queue) : ∀ paths : List RelPath,
    Drains env (paths.map (Task.indexOne · false) ++ queue)
  | [] => h
  | _ :: paths => (drains_indexOne h paths).of_work fun _ => ⟨_, rfl⟩

theorem drains_indexAt {queue : List Task} (h : Drains env queue) (extra : String) :
    Drains env (.indexAt extra :: queue) := by
  intro x
  obtain ⟨n, m', hrun, hdone⟩ := drains_indexOne h (filesUnder env x.root extra) x
  refine ⟨n + 1, m', ?_, hdone⟩
  rw [List.replicate_succ]
  exact Machine.run_cons_eq_some.mpr ⟨_, rfl, hrun⟩

/-- Every queue that is left to itself comes to its end. -/
theorem drains (env : Env) : ∀ queue : List Task, Drains env queue
  | [] => fun x => ⟨0, ⟨x, []⟩, rfl, rfl⟩
  | .indexOne _ _ :: queue => (drains env queue).of_work fun _ => ⟨_, rfl⟩
  | .deleteCovered _ :: queue => (drains env queue).of_work fun _ => ⟨_, rfl⟩
  | .indexAt extra :: queue => drains_indexAt (drains env queue) extra
  | .indexProject :: queue => by
    intro x
    have hcover : Drains env (.deleteCovered (some x.lists) :: queue) := (drains env queue).of_work fun _ => ⟨_, rfl⟩
    have hextras : ∀ extras : List String,
        Drains env (extras.map Task.indexAt ++ .deleteCovered (some x.lists) :: queue) := by
      intro extras
      induction extras with
      | nil => exact hcover
      | cons extra extras ih => exact drains_indexAt ih extra
    obtain ⟨n, m', hrun, hdone⟩ := drains_indexOne (hextras x.lists.includePaths) (listProjectFiles env x.root) x
    refine ⟨n + 1, m', ?_, hdone⟩
    rw [List.replicate_succ]
    refine Machine.run_cons_eq_some.mpr ⟨⟨x, projectTasks env x ++ queue⟩, rfl, ?_⟩
    rw [projectTasks, List.append_assoc, List.append_assoc]
    exact hrun

/-! ### The last `indexProject` -/

/-- The index when the jobs in the queue are done. -/
def settled (env : Env) (m : MemoryManager) : Index := m.queue.foldl (perform env) m.index

/-- **In every run of a project that is indexable, whose changes give a file a size and time that it
has not had with other contents: when a last `indexProject` is done, the index is current just if,
before it, no file of the manifest that is wanted no more, and not excluded, has rows.** -/
theorem run_indexProject (env : Env) (versions : RelPath → ℕ → ℕ → List UInt8) (root : Dir) (steps : List MemoryStep)
    (m m' : MemoryManager) (n : ℕ) (hroot : Index.Stamped versions root)
    (hchange : ∀ root', .change root' ∈ steps → Index.Stamped versions root')
    (hrun : (new root).run env steps = some m) (hindexable : isIndexableProject env m.index.root = true)
    (hlast : m.run env (.indexProject :: List.replicate n .work) = some m') (hdone : m'.queue = []) :
    m'.index.Current env ↔ (m.settled env).Followed env := by
  have hnew : (new root).Sound env versions := sound_new hroot
  have hsound := hnew.run steps hchange hrun
  obtain ⟨m₁, h₁, hwork⟩ := Machine.run_cons_eq_some.mp hlast
  obtain rfl := Option.some.inj h₁
  unfold indexProject at hwork
  rw [if_pos hindexable] at hwork
  have hindex := run_work n _ _ m' hwork hdone
  rw [List.foldl_append, List.foldl_cons, List.foldl_nil] at hindex
  -- the jobs that were in the queue keep the invariant
  obtain ⟨k, m₂, hk, hk'⟩ := drains env m.queue m.index
  have hsettled : m₂.index = m.settled env := run_work k _ _ m₂ hk hk'
  have hsound₂ := hsound.run (List.replicate k .work) (fun root' h => by
    cases List.eq_of_mem_replicate h) hk
  rw [hindex]
  have := Index.current_iff hsound₂.indexed hsound₂.root
  rw [hsettled] at this
  exact this

/-- A directory with a marker and one source file of one byte. -/
def oneFile : Dir := .file "Makefile" ⟨[], 1⟩ (.file "a.ts" ⟨[120], 1⟩ .nil)

/-- The project's only file is indexed. -/
theorem run_indexProject_oneFile : ∃ m' : MemoryManager,
    (new oneFile).run Env.plain (.indexProject :: List.replicate 3 .work) = some m' ∧ m'.index.Current Env.plain := by
  have hrun : ((new oneFile).run Env.plain (.indexProject :: List.replicate 3 .work)).map (·.queue.isEmpty) =
      some true := by
    decide +kernel
  obtain ⟨m', hm', hqueue⟩ := Option.map_eq_some_iff.mp hrun
  refine ⟨m', hm', ?_⟩
  refine (run_indexProject Env.plain (fun _ size _ => if size = 0 then [] else [120]) oneFile [] (new oneFile) m' 3
    ?_ (fun _ h => absurd h List.not_mem_nil) rfl (by decide) hm' (List.isEmpty_iff.mp hqueue)).mpr ?_
  · intro path f hf
    simp only [oneFile, Dir.get?] at hf
    split at hf
    · obtain rfl := Node.file.inj (Option.some.inj hf)
      rfl
    · split at hf
      · obtain rfl := Node.file.inj (Option.some.inj hf)
        rfl
      · cases hf
  · intro path prev hprev
    cases hprev

/-- The project's only file is indexed and deleted: its row stays when the project is indexed again. -/
theorem run_indexProject_deleted : ∃ (steps : List MemoryStep) (m : MemoryManager),
    (new oneFile).run Env.plain (steps ++ MemoryStep.indexProject :: List.replicate 2 MemoryStep.work) = some m ∧ m.queue = [] ∧
      ¬ m.index.Current Env.plain := by
  have hrun : ((new oneFile).run Env.plain
      ([MemoryStep.indexProject, .work, .work, .work, .change (.file "Makefile" ⟨[], 1⟩ .nil)] ++ MemoryStep.indexProject :: List.replicate 2 MemoryStep.work)).map (fun m =>
        (m.queue.isEmpty, m.index.rows.map Row.file, (m.index.root.get? ["a.ts"]).isNone)) =
      some (true, [some ["a.ts"]], true) := by
    decide +kernel
  obtain ⟨m, hm, h⟩ := Option.map_eq_some_iff.mp hrun
  simp only [Prod.mk.injEq] at h
  obtain ⟨hqueue, hfiles, hnone⟩ := h
  refine ⟨_, m, hm, List.isEmpty_iff.mp hqueue, fun hcurrent => ?_⟩
  obtain ⟨r, hr, hfile⟩ := List.mem_map.mp (hfiles ▸ List.mem_singleton_self _ : some ["a.ts"] ∈ m.index.rows.map Row.file)
  obtain ⟨⟨f, hf⟩, -⟩ := hcurrent.wanted r hr _ hfile
  rw [hf] at hnone
  cases hnone

end MemoryManager

end Trek.Memory
