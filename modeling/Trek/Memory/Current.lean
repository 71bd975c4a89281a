/-
# The index follows the project

Every job keeps the rows of each file of the manifest equal to the chunks of what the file
was when it was indexed. `indexProject` indexes the files that are wanted and are not up
to date, and drops those that are excluded. A file of the manifest that is neither stays as
it is: one that was deleted, that has grown or is ignored now, or that only the watcher
has indexed keeps its rows.
-/
import Trek.Memory.Manager

namespace Trek.Memory

/-! ### Rows of the store -/

namespace Index

theorem deleteRows_eq : ∀ (ids : List ℕ) (rows : List Row), deleteRows ids rows = rows.filter (·.id ∉ ids)
  | [], rows => by simp [deleteRows]
  | id :: ids, rows => by
    have ih := deleteRows_eq ids (rows.filter (·.id ≠ id))
    rw [deleteRows, List.foldl_cons]
    refine ih.trans ?_
    rw [List.filter_filter]
    refine List.filter_congr fun r _ => ?_
    simp [Bool.and_comm]

/-- Where no id is there twice, the ids of a file's rows are those of no other row. -/
theorem deleteRows_rowsOf {x : Index} (hx : (x.rows.map Row.id).Nodup) (path : RelPath) :
    deleteRows ((x.rowsOf path).map Row.id) x.rows = x.rows.filter (·.file ≠ some path) := by
  rw [deleteRows_eq]
  refine List.filter_congr fun r hr => ?_
  have hiff : r.id ∈ (x.rowsOf path).map Row.id ↔ r.file = some path := by
    constructor
    · intro h
      obtain ⟨r', hr', hid⟩ := List.mem_map.mp h
      obtain ⟨hmem, hfile⟩ := List.mem_filter.mp hr'
      rw [← List.inj_on_of_nodup_map hx hmem hr hid]
      exact of_decide_eq_true hfile
    · exact fun h => List.mem_map.mpr ⟨r, List.mem_filter.mpr ⟨hr, decide_eq_true h⟩, rfl⟩
  simp only [ne_eq, hiff]

/-- New rows come after the others, with ids that none of them has. -/
theorem putAll_spec (env : Env) (file : Option RelPath) : ∀ (cs : List IndexedChunk) (rows : List Row),
    (rows.map Row.id).Nodup → ∃ new : List Row, (putAll env file cs rows).1 = rows ++ new ∧
      (putAll env file cs rows).2 = new.map Row.id ∧ new.map Row.content = cs ∧ (∀ r ∈ new, r.file = file) ∧
        ((rows ++ new).map Row.id).Nodup
  | [], rows, h => ⟨[], by simp [putAll], rfl, rfl, (fun _ hr => absurd hr List.not_mem_nil), by simpa using h⟩
  | c :: cs, rows, h => by
    have hnodup : ((rows ++ [(⟨env.fresh (rows.map Row.id), c.embed, c.stored, file⟩ : Row)]).map Row.id).Nodup := by
      rw [List.map_append, List.nodup_append]
      refine ⟨h, List.nodup_singleton _, fun a ha b hb => ?_⟩
      rw [List.mem_singleton.mp hb]
      exact fun hab => env.fresh_not_mem _ (hab ▸ ha)
    obtain ⟨new, hrows, hids, hcontent, hfile, hnew⟩ := putAll_spec env file cs _ hnodup
    refine ⟨⟨env.fresh (rows.map Row.id), c.embed, c.stored, file⟩ :: new, ?_, ?_, ?_, ?_, ?_⟩
    · rw [putAll, hrows, List.append_assoc, List.singleton_append]
    · rw [putAll, hids, List.map_cons]
    · rw [List.map_cons, hcontent]
      rfl
    · intro r hr
      rcases List.mem_cons.mp hr with rfl | hr
      · rfl
      · exact hfile r hr
    · rwa [List.append_assoc, List.singleton_append] at hnew

/-! ### The invariant of the jobs -/

/-- A file's size and time tell its contents: a change gives it a size and a time that it has
not had with other contents. -/
def Stamped (versions : RelPath → ℕ → ℕ → List UInt8) (root : Dir) : Prop :=
  ∀ path f, root.get? path = some (.file f) → f.bytes = versions path f.size f.mtimeMs

/-- The rows of a file are the chunks of the version that the manifest knows, and no file has
rows that the manifest does not. -/
structure Indexed (env : Env) (versions : RelPath → ℕ → ℕ → List UInt8) (x : Index) : Prop where
  nodup : (x.rows.map Row.id).Nodup
  ids : ∀ path prev, x.manifest.get? path = some prev → prev.ids = (x.rowsOf path).map Row.id
  content : ∀ path prev, x.manifest.get? path = some prev →
    (x.rowsOf path).map Row.content = chunksForFile env path ⟨versions path prev.size prev.mtimeMs, prev.mtimeMs⟩
  listed : ∀ r ∈ x.rows, ∀ path, r.file = some path → (x.manifest.get? path).isSome = true

variable {env : Env} {versions : RelPath → ℕ → ℕ → List UInt8} {x : Index}

/-- The index with a file's rows replaced. -/
def Reindexed (env : Env) (x : Index) (path : RelPath) (f : File) (y : Index) : Prop :=
  ∃ new : List Row, new.map Row.content = chunksForFile env path f ∧ (∀ r ∈ new, r.file = some path) ∧
    ((x.rows.filter (·.file ≠ some path) ++ new).map Row.id).Nodup ∧
      y = { x with
        rows := x.rows.filter (·.file ≠ some path) ++ new
        manifest := x.manifest.set path ⟨f.mtimeMs, f.size, 800, "auto", "header", new.map Row.id⟩ }

/-- `indexOne` leaves the index as it is or replaces the rows of one file. -/
theorem indexOne_cases (h : x.Indexed env versions) (path : RelPath) (force : Bool) :
    (x.indexOne env path force = x ∧ ∀ f, x.root.get? path = some (.file f) → pathIsExcluded path x.lists = false →
      force = false → ∃ prev, x.manifest.get? path = some prev ∧ prev.size = f.size ∧ prev.mtimeMs = f.mtimeMs) ∨
      ∃ f, x.root.get? path = some (.file f) ∧ pathIsExcluded path x.lists = false ∧
        x.Reindexed env path f (x.indexOne env path force) := by
  unfold indexOne
  split
  · rename_i f hf
    split
    · rename_i hexcluded
      refine Or.inl ⟨rfl, fun _ _ hnot => ?_⟩
      rw [hexcluded] at hnot
      cases hnot
    · rename_i hexcluded
      simp only
      split
      · rename_i hup
        rw [Bool.and_eq_true, Bool.not_eq_true'] at hup
        refine Or.inl ⟨rfl, fun f' hf' _ _ => ?_⟩
        obtain rfl : f = f' := by
          rw [hf] at hf'
          cases hf'
          rfl
        obtain ⟨prev, hprev, hdate⟩ := (Option.any_eq_true _ _).mp hup.2
        simp only [upToDate, Bool.and_eq_true, decide_eq_true_eq] at hdate
        exact ⟨prev, hprev, hdate.1.1.1, hdate.1.1.2⟩
      · refine Or.inr ⟨f, hf, Bool.eq_false_iff.mpr hexcluded, ?_⟩
        have hrows : deleteRows (((x.manifest.get? path).map ManifestEntry.ids).getD []) x.rows =
            x.rows.filter (·.file ≠ some path) := by
          cases hprev : x.manifest.get? path with
          | some prev => exact (congrArg (deleteRows · x.rows) (h.ids path prev hprev)).trans (deleteRows_rowsOf h.nodup path)
          | none =>
            refine (List.filter_eq_self.mpr fun r hr => ?_).symm
            have hfile : r.file ≠ some path := by
              intro hfile
              have hsome := h.listed r hr path hfile
              rw [hprev] at hsome
              cases hsome
            simpa using hfile
        rw [hrows]
        have hnodup : ((x.rows.filter (·.file ≠ some path)).map Row.id).Nodup :=
          h.nodup.sublist ((List.filter_sublist).map _)
        obtain ⟨new, hnew, hids, hcontent, hfile, hnodup⟩ :=
          putAll_spec env (some path) (chunksForFile env path f) _ hnodup
        refine ⟨new, hcontent, hfile, hnodup, ?_⟩
        rw [hnew, hids]
  · rename_i hno
    exact Or.inl ⟨rfl, fun f hf => absurd hf (hno f)⟩

/-- The rows of another file stay. -/
theorem filter_other {path other : RelPath} (hne : other ≠ path) (rows : List Row) :
    (rows.filter (·.file ≠ some path)).filter (·.file = some other) = rows.filter (·.file = some other) := by
  rw [List.filter_filter]
  refine List.filter_congr fun r _ => ?_
  by_cases hr : r.file = some other
  · simp [hr, hne]
  · simp [hr]

/-- What the invariant says of an index with one file's rows replaced. -/
theorem Indexed.reindexed {path : RelPath} {f : File} {y : Index} (h : x.Indexed env versions)
    (hf : f.bytes = versions path f.size f.mtimeMs) (hy : x.Reindexed env path f y) : y.Indexed env versions := by
  obtain ⟨new, hcontent, hfile, hnodup, rfl⟩ := hy
  have hself : (x.rows.filter (·.file ≠ some path) ++ new).filter (·.file = some path) = new := by
    rw [List.filter_append, List.filter_filter, List.filter_eq_nil_iff.mpr, List.nil_append,
      List.filter_eq_self.mpr fun r hr => decide_eq_true (hfile r hr)]
    intro r _ hr
    simp at hr
  have hother : ∀ other, other ≠ path →
      (x.rows.filter (·.file ≠ some path) ++ new).filter (·.file = some other) = x.rows.filter (·.file = some other) := by
    intro other hne
    have hnew : new.filter (·.file = some other) = [] := by
      refine List.filter_eq_nil_iff.mpr fun r hr hro => ?_
      rw [decide_eq_true_eq, hfile r hr] at hro
      exact hne (Option.some.inj hro).symm
    rw [List.filter_append, hnew, List.append_nil, filter_other hne]
  refine ⟨hnodup, fun other prev hprev => ?_, fun other prev hprev => ?_, fun r hr other hro => ?_⟩
  · by_cases hne : other = path
    · subst hne
      rw [OrdMap.get?_set_self] at hprev
      rw [← Option.some.inj hprev, rowsOf, hself]
    · rw [OrdMap.get?_set_ne _ _ hne] at hprev
      rw [rowsOf, hother other hne]
      exact h.ids other prev hprev
  · by_cases hne : other = path
    · subst hne
      rw [OrdMap.get?_set_self] at hprev
      rw [← Option.some.inj hprev, rowsOf, hself, ← hf]
      exact hcontent
    · rw [OrdMap.get?_set_ne _ _ hne] at hprev
      rw [rowsOf, hother other hne]
      exact h.content other prev hprev
  · rw [OrdMap.get?_set]
    split
    · rfl
    · rename_i hne
      rcases List.mem_append.mp hr with hr | hr
      · exact h.listed r (List.mem_filter.mp hr).1 other hro
      · rw [hfile r hr] at hro
        exact absurd (Option.some.inj hro).symm hne

theorem Indexed.indexOne (h : x.Indexed env versions) (hroot : Stamped versions x.root) (path : RelPath) (force : Bool) :
    (x.indexOne env path force).Indexed env versions := by
  rcases indexOne_cases h path force with ⟨he, -⟩ | ⟨f, hf, -, hy⟩
  · rwa [he]
  · exact h.reindexed (hroot path f hf) hy

/-- Dropping a file's rows and its entry. -/
theorem dropFile_cases (h : x.Indexed env versions) (lists : IndexPathLists) (path : RelPath) :
    (x.dropFile lists path = x ∧ (pathIsExcluded path lists = true → x.manifest.get? path = none)) ∨
      pathIsExcluded path lists = true ∧
        x.dropFile lists path = { x with rows := x.rows.filter (·.file ≠ some path), manifest := x.manifest.delete path } := by
  unfold dropFile
  split
  · rename_i hexcluded
    cases hprev : x.manifest.get? path with
    | none => exact Or.inl ⟨rfl, fun _ => rfl⟩
    | some prev =>
      refine Or.inr ⟨hexcluded, ?_⟩
      simp only
      rw [h.ids path prev hprev, deleteRows_rowsOf h.nodup]
  · rename_i hexcluded
    exact Or.inl ⟨rfl, fun he => absurd he hexcluded⟩

theorem Indexed.dropFile (h : x.Indexed env versions) (lists : IndexPathLists) (path : RelPath) :
    (x.dropFile lists path).Indexed env versions := by
  rcases dropFile_cases h lists path with ⟨he, -⟩ | ⟨-, he⟩
  · rwa [he]
  · rw [he]
    have hkept : ∀ other prev, (x.manifest.delete path).get? other = some prev →
        other ≠ path ∧ x.manifest.get? other = some prev := by
      intro other prev hprev
      rw [OrdMap.get?_delete] at hprev
      split at hprev
      · cases hprev
      · rename_i hne
        exact ⟨hne, hprev⟩
    refine ⟨h.nodup.sublist ((List.filter_sublist).map _), fun other prev hprev => ?_, fun other prev hprev => ?_,
      fun r hr other hro => ?_⟩
    · obtain ⟨hne, hprev⟩ := hkept other prev hprev
      rw [rowsOf, filter_other hne]
      exact h.ids other prev hprev
    · obtain ⟨hne, hprev⟩ := hkept other prev hprev
      rw [rowsOf, filter_other hne]
      exact h.content other prev hprev
    · obtain ⟨hr, hne⟩ := List.mem_filter.mp hr
      rw [OrdMap.get?_delete, if_neg]
      · exact h.listed r hr other hro
      · rintro rfl
        exact of_decide_eq_true hne hro

/-! ### Whole jobs -/

/-- `indexOne` of one file after the other. -/
def indexAll (env : Env) (x : Index) (paths : List RelPath) : Index :=
  paths.foldl (fun x path => x.indexOne env path false) x

/-- The files that `indexProject` goes through. -/
def indexedFiles (env : Env) (x : Index) : List RelPath :=
  listProjectFiles env x.root ++ x.lists.includePaths.flatMap (filesUnder env x.root)

/-- The manifest has the file with the size and time that it has. -/
def UpToDate (x : Index) (path : RelPath) (f : File) : Prop :=
  ∃ prev, x.manifest.get? path = some prev ∧ prev.size = f.size ∧ prev.mtimeMs = f.mtimeMs

theorem indexOne_frame (env : Env) (x : Index) (path : RelPath) (force : Bool) :
    (x.indexOne env path force).root = x.root ∧ (x.indexOne env path force).lists = x.lists := by
  unfold indexOne
  split
  · split
    · exact ⟨rfl, rfl⟩
    · simp only
      split <;> exact ⟨rfl, rfl⟩
  · exact ⟨rfl, rfl⟩

theorem dropFile_frame (lists : IndexPathLists) (x : Index) (path : RelPath) :
    (x.dropFile lists path).root = x.root ∧ (x.dropFile lists path).lists = x.lists := by
  unfold dropFile
  split
  · split <;> exact ⟨rfl, rfl⟩
  · exact ⟨rfl, rfl⟩

/-- What is up to date stays so while other files are indexed. -/
theorem UpToDate.indexOne (h : x.Indexed env versions) {path : RelPath} {f : File} (hu : x.UpToDate path f)
    (hf : x.root.get? path = some (.file f)) (other : RelPath) (force : Bool) :
    (x.indexOne env other force).UpToDate path f := by
  rcases indexOne_cases h other force with ⟨he, -⟩ | ⟨f', hf', -, _, -, -, -, he⟩
  · rwa [he]
  · rw [he]
    by_cases hne : path = other
    · subst hne
      obtain rfl : f = f' := by
        rw [hf] at hf'
        cases hf'
        rfl
      exact ⟨_, OrdMap.get?_set_self _ _ _, rfl, rfl⟩
    · obtain ⟨prev, hprev, hdate⟩ := hu
      exact ⟨prev, (OrdMap.get?_set_ne _ _ hne).trans hprev, hdate⟩

theorem upToDate_indexOne (h : x.Indexed env versions) {path : RelPath} {f : File}
    (hf : x.root.get? path = some (.file f)) (hexcluded : pathIsExcluded path x.lists = false) :
    (x.indexOne env path false).UpToDate path f := by
  rcases indexOne_cases h path false with ⟨he, hdate⟩ | ⟨f', hf', -, _, -, -, -, he⟩
  · rw [he]
    exact hdate f hf hexcluded rfl
  · obtain rfl : f = f' := by
      rw [hf] at hf'
      cases hf'
      rfl
    rw [he]
    exact ⟨_, OrdMap.get?_set_self _ _ _, rfl, rfl⟩

/-- What comes of indexing files one after the other. -/
structure IndexedAll (env : Env) (versions : RelPath → ℕ → ℕ → List UInt8) (paths : List RelPath) (x y : Index) : Prop where
  root : y.root = x.root
  lists : y.lists = x.lists
  indexed : y.Indexed env versions
  upToDate : ∀ path f, (path ∈ paths ∨ x.UpToDate path f) → x.root.get? path = some (.file f) →
    pathIsExcluded path x.lists = false → y.UpToDate path f
  others : ∀ path, y.manifest.get? path = x.manifest.get? path ∨
    path ∈ paths ∧ (∃ f, x.root.get? path = some (.file f)) ∧ pathIsExcluded path x.lists = false

theorem indexAll_spec (env : Env) (versions : RelPath → ℕ → ℕ → List UInt8) : ∀ (paths : List RelPath) (x : Index),
    x.Indexed env versions → Stamped versions x.root → IndexedAll env versions paths x (x.indexAll env paths)
  | [], x, h, _ =>
    ⟨rfl, rfl, h, fun _ _ hu _ _ => hu.resolve_left List.not_mem_nil, fun _ => Or.inl rfl⟩
  | p :: paths, x, h, hroot => by
    obtain ⟨hr, hl⟩ := indexOne_frame env x p false
    have ih := indexAll_spec env versions paths (x.indexOne env p false) (h.indexOne hroot p false) (hr ▸ hroot)
    refine ⟨ih.root.trans hr, ih.lists.trans hl, ih.indexed, fun path f hu hf hexcluded => ?_, fun path => ?_⟩
    · refine ih.upToDate path f ?_ (hr ▸ hf) (hl ▸ hexcluded)
      rcases hu with hu | hu
      · rcases List.mem_cons.mp hu with rfl | hu
        · exact Or.inr (upToDate_indexOne h hf hexcluded)
        · exact Or.inl hu
      · exact Or.inr (hu.indexOne h hf p false)
    · have hone : (x.indexOne env p false).manifest.get? path = x.manifest.get? path ∨
          path = p ∧ (∃ f, x.root.get? path = some (.file f)) ∧ pathIsExcluded path x.lists = false := by
        rcases indexOne_cases h p false with ⟨he, -⟩ | ⟨f, hf, hexcluded, _, -, -, -, he⟩
        · exact Or.inl (by rw [he])
        · by_cases hne : path = p
          · subst hne
            exact Or.inr ⟨rfl, ⟨f, hf⟩, hexcluded⟩
          · rw [he]
            exact Or.inl (OrdMap.get?_set_ne _ _ hne)
      rcases ih.others path with hsame | ⟨hmem, hfile, hexcluded⟩
      · rcases hone with hone | ⟨rfl, hfile⟩
        · exact Or.inl (hsame.trans hone)
        · exact Or.inr ⟨List.mem_cons_self, hfile⟩
      · rw [hr] at hfile
        rw [hl] at hexcluded
        exact Or.inr ⟨List.mem_cons_of_mem _ hmem, hfile, hexcluded⟩

/-- `deleteCovered` drops the excluded files of the manifest, and no other. -/
theorem foldl_dropFile (lists : IndexPathLists) : ∀ (keys : List RelPath) (x : Index), x.Indexed env versions →
    (keys.foldl (dropFile lists) x).root = x.root ∧ (keys.foldl (dropFile lists) x).lists = x.lists ∧
      (keys.foldl (dropFile lists) x).Indexed env versions ∧
        ∀ path, (keys.foldl (dropFile lists) x).manifest.get? path =
          if path ∈ keys ∧ pathIsExcluded path lists = true then none else x.manifest.get? path
  | [], x, h => ⟨rfl, rfl, h, fun path => by simp⟩
  | k :: keys, x, h => by
    obtain ⟨hr, hl⟩ := dropFile_frame lists x k
    obtain ⟨ihr, ihl, ihi, ihm⟩ := foldl_dropFile lists keys (x.dropFile lists k) (h.dropFile lists k)
    refine ⟨ihr.trans hr, ihl.trans hl, ihi, fun path => (ihm path).trans ?_⟩
    have hone : (x.dropFile lists k).manifest.get? path =
        if path = k ∧ pathIsExcluded path lists = true then none else x.manifest.get? path := by
      rcases dropFile_cases h lists k with ⟨he, hnone⟩ | ⟨hexcluded, he⟩
      · rw [he]
        split
        · rename_i hk
          obtain ⟨rfl, hexcluded⟩ := hk
          exact hnone hexcluded
        · rfl
      · rw [he]
        refine (OrdMap.get?_delete _ _ _).trans ?_
        by_cases hk : path = k
        · rw [if_pos hk, if_pos ⟨hk, hk ▸ hexcluded⟩]
        · rw [if_neg hk, if_neg fun hand => hk hand.1]
    rw [hone]
    by_cases hexcluded : pathIsExcluded path lists = true
    · simp only [hexcluded, and_true, List.mem_cons]
      by_cases hk : path = k
      · simp [hk]
      · simp [hk]
    · simp [hexcluded]

/-! ### After `indexProject` -/

/-- The files of the manifest that are wanted no more have no rows. -/
def Followed (env : Env) (x : Index) : Prop :=
  ∀ path prev, x.manifest.get? path = some prev → prev.ids ≠ [] → pathIsExcluded path x.lists = false → x.Wanted env path

theorem mem_indexedFiles {path : RelPath} : path ∈ indexedFiles env x ↔
    path ∈ listProjectFiles env x.root ∨ ∃ extra ∈ x.lists.includePaths, path ∈ filesUnder env x.root extra := by
  rw [indexedFiles, List.mem_append, List.mem_flatMap]

/-- What `indexProject` makes of the index is current just when the files of the manifest that it
does not go through have no rows. -/
theorem current_iff (h : x.Indexed env versions) (hroot : Stamped versions x.root) :
    ((indexAll env x (indexedFiles env x)).deleteCovered x.lists).Current env ↔ x.Followed env := by
  have hall := indexAll_spec env versions (indexedFiles env x) x h hroot
  obtain ⟨hr, hl, hindexed, hmanifest⟩ := foldl_dropFile x.lists _ _ hall.indexed
  generalize hy : (indexAll env x (indexedFiles env x)).deleteCovered x.lists = y
  unfold deleteCovered at hy
  rw [hy] at hr hl hindexed hmanifest
  have hwanted : ∀ path, y.Wanted env path ↔ x.Wanted env path := by
    intro path
    unfold Wanted
    rw [hr, hl, hall.root, hall.lists]
  -- the entries of `y` are not excluded, and are those of `x` but for wanted files
  have hentry : ∀ path prev, y.manifest.get? path = some prev → pathIsExcluded path x.lists = false ∧
      (x.manifest.get? path = some prev ∨ x.Wanted env path) := by
    intro path prev hprev
    have hm := hmanifest path
    rw [hprev] at hm
    split at hm
    · cases hm
    · rename_i hnot
      have hkey : path ∈ (indexAll env x (indexedFiles env x)).manifest.keys :=
        OrdMap.has_iff.mp (by rw [OrdMap.has, ← hm]; rfl)
      have hexcluded : pathIsExcluded path x.lists = false := by
        refine Bool.eq_false_iff.mpr fun he => hnot ⟨hkey, he⟩
      refine ⟨hexcluded, ?_⟩
      rcases hall.others path with hsame | ⟨hmem, hfile, -⟩
      · exact Or.inl (hsame.symm.trans hm.symm)
      · exact Or.inr ⟨hfile, mem_indexedFiles.mp hmem, hexcluded⟩
  constructor
  · intro hcurrent path prev hprev hids hexcluded
    rcases hall.others path with hsame | ⟨hmem, hfile, -⟩
    · have hyprev : y.manifest.get? path = some prev := by
        rw [hmanifest, if_neg (by simp [hexcluded]), hsame, hprev]
      obtain ⟨r, hr⟩ := List.exists_mem_of_ne_nil (y.rowsOf path) (by
        intro hnil
        rw [hindexed.ids path prev hyprev, hnil] at hids
        exact hids rfl)
      obtain ⟨hmem, hfile⟩ := List.mem_filter.mp hr
      exact (hwanted path).mp (hcurrent.wanted r hmem path (of_decide_eq_true hfile))
    · exact ⟨hfile, mem_indexedFiles.mp hmem, hexcluded⟩
  · intro hfollowed
    refine ⟨fun path f hw hf => ?_, fun r hmem path hfile => ?_, hindexed.ids, hindexed.listed⟩
    · rw [hr, hall.root] at hf
      obtain ⟨-, hlisted, hexcluded⟩ := (hwanted path).mp hw
      obtain ⟨prev, hprev, hsize, hmtime⟩ := hall.upToDate path f (Or.inl (mem_indexedFiles.mpr hlisted)) hf hexcluded
      have hyprev : y.manifest.get? path = some prev := by
        rw [hmanifest, if_neg (by simp [hexcluded]), hprev]
      rw [hindexed.content path prev hyprev, hsize, hmtime, ← hroot path f hf]
    · obtain ⟨prev, hprev⟩ := Option.isSome_iff_exists.mp (hindexed.listed r hmem path hfile)
      obtain ⟨hexcluded, hx | hw⟩ := hentry path prev hprev
      · refine (hwanted path).mpr (hfollowed path prev hx ?_ hexcluded)
        rw [hindexed.ids path prev hprev]
        exact List.ne_nil_of_mem (List.mem_map.mpr ⟨r, List.mem_filter.mpr ⟨hmem, decide_eq_true hfile⟩, rfl⟩)
      · exact (hwanted path).mpr hw

end Index

end Trek.Memory
