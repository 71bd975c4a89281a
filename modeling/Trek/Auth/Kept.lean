/-
# No credential is lost

The file should hold what the changes of the log make of it, and an instance what it changed last. Two
things break this. A synchronous call gives up its tenth attempt where the lock is held, which it always
is if an asynchronous call of the same process has it, and after a load that gave up changes are not
written at all. And the empty file is written outside the lock, so a process that found no file may
empty the one another has written since. In runs without these no credential is lost (`run_keepsCredentials`).
-/
import Trek.Auth.Exclusion

namespace Trek.AuthStorage

variable {process : ℕ → ℕ} {known : String → Bool} {s : World} {id inst : ℕ} {o : Outcome} {init : Option AuthStorageData}

/-! ### What should be kept -/

/-- The data after an event. -/
def Event.applyTo (data : AuthStorageData) : Event → AuthStorageData
  | .changed _ provider credential => merge data provider credential
  | .refreshing _ _ => data

/-- The data after all changes. -/
def contents (init : Option AuthStorageData) (log : List Event) : AuthStorageData :=
  log.foldl Event.applyTo (init.getD .empty)

/-- The instance that changed a provider with an event. -/
def Event.author? (p : String) : Event → Option ℕ
  | .changed inst provider _ => if provider = p then some inst else none
  | .refreshing _ _ => none

/-- The instance that changed a provider last. -/
def lastAuthor (log : List Event) (p : String) : Option ℕ := (log.filterMap (Event.author? p)).getLast?

/-- Once all calls have returned the file has the credential of the last change of each provider, the
instance that made it has it too, and no expired token was refreshed twice. -/
def NoneLost (init : Option AuthStorageData) (s : World) : Prop :=
  s.calls.pairs = [] →
    (∀ p, s.current.get? p = (contents init s.log).get? p) ∧
    (∀ inst i p, s.instances.get? inst = some i → lastAuthor s.log p = some inst →
      i.data.get? p = (contents init s.log).get? p) ∧
    ∀ p, KeptApart (Event.Refreshing p) (Event.Changed p) s.log

/-- The step does not drop a change: none is made after a load that failed or gives up the lock, and no
file is emptied. -/
def keeps (s : World) : Step → Bool
  | .begin _ inst (.change _ _) => (s.instances.get? inst).all (!·.loadError)
  | .goOn id _ =>
    match (s.calls.get? id).map Call.stage with
    | some (.createFile _) | some (.createFileAsync _) => decide (s.current = .empty)
    | some (.acquire (.change _ _) attempt) => decide (attempt = maxAttempts → s.lock = none)
    | _ => true
  | _ => true

theorem contents_concat (log : List Event) (e : Event) :
    contents init (log ++ [e]) = e.applyTo (contents init log) := by
  rw [contents, List.foldl_append]
  rfl

theorem lastAuthor_concat (log : List Event) (e : Event) (p : String) :
    lastAuthor (log ++ [e]) p = (e.author? p).or (lastAuthor log p) := by
  rw [lastAuthor, List.filterMap_append, List.getLast?_append]
  cases h : e.author? p <;> simp [List.filterMap, h, lastAuthor]

/-! ### Changes that are not written -/

/-- What a call has changed in memory and not yet written, and whether it blocks its process. -/
structure Unwritten where
  inst : ℕ
  sync : Bool
  provider : String
  credential : Option AuthCredential

/-- The change of synchronous work. -/
def Work.unwritten (inst : ℕ) : Work → Option Unwritten
  | .reload => none
  | .change provider credential => some ⟨inst, true, provider, credential⟩

/-- The change of a call at a stage. -/
def Stage.unwritten (inst : ℕ) : Stage → Option Unwritten
  | .ensureFile work | .createFile work | .acquire work _ | .read work => work.unwritten inst
  | .write provider credential _ => some ⟨inst, true, provider, credential⟩
  | .writeAsync provider credentials _ => some ⟨inst, false, provider, some (.oauth credentials)⟩
  | _ => none

/-- The change of a call. -/
def World.unwritten (s : World) (id : ℕ) : Option Unwritten :=
  (s.calls.get? id).bind fun call => call.stage.unwritten call.inst

/-- What is written and read under the lock is what the changes so far make. -/
def Stage.Fits (contents : AuthStorageData) : Stage → Prop
  | .write provider credential next => next = merge contents provider credential
  | .release (some content) => content = contents
  | .refresh _ currentData => currentData = contents
  | .writeAsync provider credentials next => next = merge contents provider (some (.oauth credentials))
  | _ => True

theorem Stage.fits_of_not_holds {contents : AuthStorageData} {stage : Stage} (h : stage.holds = false) :
    stage.Fits contents := by
  cases stage with
  | write | release | refresh | writeAsync => cases h
  | _ => trivial

theorem Stage.unwritten_eq_some {stage : Stage} {inst : ℕ} {u : Unwritten} (h : stage.unwritten inst = some u) :
    u.inst = inst ∧ (u.sync = true → stage.blocks = true) ∧ (u.sync = false → stage.holds = true) := by
  have hwork : ∀ work : Work, work.unwritten inst = some u → u.inst = inst ∧ u.sync = true := by
    rintro (_ | ⟨provider, credential⟩) hu
    · cases hu
    · rw [← Option.some.inj hu]
      exact ⟨rfl, rfl⟩
  cases stage with
  | ensureFile work | createFile work | acquire work | read work =>
    obtain ⟨hinst, hsync⟩ := hwork work h
    exact ⟨hinst, fun _ => rfl, fun hasync => by rw [hsync] at hasync; cases hasync⟩
  | write => rw [← Option.some.inj h]; exact ⟨rfl, fun _ => rfl, fun _ => rfl⟩
  | writeAsync => rw [← Option.some.inj h]; exact ⟨rfl, fun h => (by cases h), fun _ => rfl⟩
  | _ => cases h

theorem World.unwritten_apply (s : World) (id inst id' : ℕ) (o : Outcome) :
    (s.apply id inst o).unwritten id' =
      if id' = id then o.next.bind (Stage.unwritten inst) else s.unwritten id' := by
  rw [World.unwritten, World.get?_calls_apply]
  by_cases hid : id' = id
  · rw [if_pos hid, if_pos hid, Option.bind_map]
    rfl
  · rw [if_neg hid, if_neg hid, World.unwritten]

theorem World.unwritten_of_calls (before : Option Stage) (hcall : s.calls.get? id = before.map (Call.mk inst)) :
    s.unwritten id = before.bind (Stage.unwritten inst) := by
  rw [World.unwritten, hcall, Option.bind_map]
  rfl

theorem World.unwritten_eq_none (hcall : s.calls.get? id = none) : s.unwritten id = none := by
  rw [World.unwritten, hcall]
  rfl

/-- While a call has the lock and its process is free no other call of its instance has an unwritten change. -/
theorem Once.unwritten_ne (h : Once s) (hlock : s.lock = some id) (hfree : s.blocked process id inst = false)
    {id' : ℕ} {u : Unwritten} (hu : s.unwritten id' = some u) (hid : id' ≠ id) : u.inst ≠ inst := by
  intro hinst
  obtain ⟨call, hcall, hstage⟩ := Option.bind_eq_some_iff.mp hu
  obtain ⟨hinst', hblocks, hholds⟩ := Stage.unwritten_eq_some hstage
  cases hsync : u.sync with
  | true =>
    rw [World.blocked, List.any_eq_false] at hfree
    refine hfree _ (OrdMap.get?_eq_some.mp hcall) ?_
    simp [hid, ← hinst', hinst, hblocks hsync]
  | false =>
    have hlock' := h.holder id' call hcall (hholds hsync)
    rw [hlock] at hlock'
    exact hid (Option.some.inj hlock').symm

/-! ### The invariant -/

/-- Another call of the instance, which blocks the process, has a newer change of the provider. -/
def World.Overtaken (s : World) (id inst : ℕ) (p : String) : Prop :=
  ∃ id' credential, id' ≠ id ∧ s.unwritten id' = some ⟨inst, true, p, credential⟩

/-- The file holds what the changes make, calls under the lock work on that, the data of an instance has
its unwritten changes, and where there is none what it changed last. -/
structure Kept (init : Option AuthStorageData) (s : World) : Prop where
  file : s.current = contents init s.log
  fits : ∀ id call, s.calls.get? id = some call → call.stage.Fits (contents init s.log)
  present : ∀ id call, s.calls.get? id = some call → ∃ i, s.instances.get? call.inst = some i
  unwritten : ∀ id u i, s.unwritten id = some u → s.instances.get? u.inst = some i →
    i.data.get? u.provider = u.credential ∨ s.Overtaken id u.inst u.provider
  data : ∀ inst i p, s.instances.get? inst = some i →
    (∃ id u, s.unwritten id = some u ∧ u.inst = inst ∧ u.provider = p) ∨
      (lastAuthor s.log p = some inst → i.data.get? p = (contents init s.log).get? p)
  author : ∀ inst p, lastAuthor s.log p = some inst → ∃ i, s.instances.get? inst = some i

/-- The instances stay. -/
theorem World.instances_apply_present (s : World) (id inst : ℕ) (o : Outcome) {inst' : ℕ}
    (h : ∃ i, s.instances.get? inst' = some i) : ∃ i, (s.apply id inst o).instances.get? inst' = some i := by
  rw [World.get?_instances_apply]
  split
  · exact ⟨o.own, rfl⟩
  · exact h

/-- The calls after a step are of instances that are there. -/
theorem Kept.present_apply (h : Kept init s) (id inst : ℕ) (o : Outcome) : ∀ id' call,
    (s.apply id inst o).calls.get? id' = some call → ∃ i, (s.apply id inst o).instances.get? call.inst = some i := by
  intro id' call hcall
  rw [World.get?_calls_apply] at hcall
  split at hcall
  · obtain ⟨stage, -, rfl⟩ := Option.map_eq_some_iff.mp hcall
    exact ⟨o.own, by rw [World.get?_instances_apply, if_pos rfl]⟩
  · exact s.instances_apply_present id inst o (h.present id' call hcall)

/-- The calls after a step fit the contents, if the call does and the others did. -/
theorem fits_apply {contents : AuthStorageData} (hnext : ∀ stage, o.next = some stage → stage.Fits contents)
    (hothers : ∀ id' call, id' ≠ id → s.calls.get? id' = some call → call.stage.Fits contents) : ∀ id' call,
    (s.apply id inst o).calls.get? id' = some call → call.stage.Fits contents := by
  intro id' call hcall
  rw [World.get?_calls_apply] at hcall
  split at hcall
  · obtain ⟨stage, hstage, rfl⟩ := Option.map_eq_some_iff.mp hcall
    exact hnext stage hstage
  · rename_i hid
    exact hothers id' call hid hcall

theorem kept_new (init : Option AuthStorageData) : Kept init (World.new init) where
  file := rfl
  fits id call h := by cases h
  present id call h := by cases h
  unwritten id u i h := by cases h
  data inst i p h := by cases h
  author inst p h := by cases h

/-- A call goes on with its change, or without one. -/
theorem Kept.moves (before : Option Stage) {i : Instance} (h : Kept init s)
    (hcall : s.calls.get? id = before.map (Call.mk inst)) (hi : s.instances.get? inst = some i)
    (hown : o.own.data = i.data) (hfile : o.file.getD .empty = s.current) (hevent : o.event = none)
    (hunwritten : o.next.bind (Stage.unwritten inst) = before.bind (Stage.unwritten inst))
    (hfits : ∀ stage, o.next = some stage → stage.Fits (contents init s.log)) : Kept init (s.apply id inst o) := by
  have hlog : (s.apply id inst o).log = s.log := by simp [hevent]
  have hsame : (s.apply id inst o).unwritten = s.unwritten := by
    funext id'
    rw [World.unwritten_apply]
    split
    · rename_i hid
      rw [hunwritten, hid, World.unwritten_of_calls before hcall]
    · rfl
  -- the data of each instance is what it was
  have hdata : ∀ {inst' i'}, (s.apply id inst o).instances.get? inst' = some i' →
      ∃ i'', s.instances.get? inst' = some i'' ∧ i'.data = i''.data := by
    intro inst' i' hi'
    rw [World.get?_instances_apply] at hi'
    split at hi'
    · rename_i hinst
      rw [← Option.some.inj hi', hinst]
      exact ⟨i, hi, hown⟩
    · exact ⟨i', hi', rfl⟩
  refine ⟨?_, ?_, h.present_apply id inst o, fun id' u i' hu hi' => ?_, fun inst' i' p hi' => ?_, fun inst' p hp => ?_⟩
  · rw [World.apply_current, hfile, hlog, h.file]
  · rw [hlog]
    exact fits_apply hfits fun id' call _ hcall => h.fits id' call hcall
  · rw [hsame] at hu
    obtain ⟨i'', hi'', hdata⟩ := hdata hi'
    rw [hdata, World.Overtaken, hsame]
    exact h.unwritten id' u i'' hu hi''
  · obtain ⟨i'', hi'', hdata⟩ := hdata hi'
    rw [hdata, hsame, hlog]
    exact h.data inst' i'' p hi''
  · rw [hlog] at hp
    exact s.instances_apply_present id inst o (h.author inst' p hp)

/-- A call of another instance keeps its change. -/
theorem World.unwritten_apply_of_ne (before : Option Stage) (hcall : s.calls.get? id = before.map (Call.mk inst))
    {id' : ℕ} {u : Unwritten} (hu : s.unwritten id' = some u) (hinst : u.inst ≠ inst) :
    (s.apply id inst o).unwritten id' = some u := by
  rw [World.unwritten_apply, if_neg, hu]
  rintro rfl
  rw [World.unwritten_of_calls before hcall] at hu
  obtain ⟨stage, -, hstage⟩ := Option.bind_eq_some_iff.mp hu
  exact hinst (Stage.unwritten_eq_some hstage).1

/-- Under the lock, the data of the instance becomes what the file holds, but for a change of the call. -/
theorem Kept.loads {stage : Stage} (h : Kept init s) (honce : Once s) (hcall : s.calls.get? id = some ⟨inst, stage⟩)
    (hlock : s.lock = some id) (hfree : s.blocked process id inst = false) (hfile : o.file = s.file)
    (hcontents : contents init (s.log ++ o.event.toList) = contents init s.log)
    (hauthor : ∀ p, lastAuthor (s.log ++ o.event.toList) p = lastAuthor s.log p)
    (hfits : ∀ stage, o.next = some stage → stage.Fits (contents init s.log))
    (hchange : ∀ u, o.next.bind (Stage.unwritten inst) = some u → o.own.data.get? u.provider = u.credential)
    (hload : ∀ p, (∃ u, o.next.bind (Stage.unwritten inst) = some u ∧ u.provider = p) ∨
      o.own.data.get? p = (contents init s.log).get? p) : Kept init (s.apply id inst o) := by
  have hstay : ∀ {id' u}, s.unwritten id' = some u → u.inst ≠ inst → (s.apply id inst o).unwritten id' = some u :=
    World.unwritten_apply_of_ne (some stage) hcall
  refine ⟨?_, ?_, h.present_apply id inst o, fun id' u i' hu hi' => ?_, fun inst' i' p hi' => ?_, fun inst' p hp => ?_⟩
  · rw [World.apply_current, hfile, World.apply_log, hcontents]
    exact h.file
  · rw [World.apply_log, hcontents]
    exact fits_apply hfits fun id' call _ hcall => h.fits id' call hcall
  · rw [World.unwritten_apply] at hu
    split at hu
    · obtain ⟨stage', -, hstage'⟩ := Option.bind_eq_some_iff.mp hu
      rw [World.get?_instances_apply, if_pos (Stage.unwritten_eq_some hstage').1] at hi'
      rw [← Option.some.inj hi']
      exact Or.inl (hchange u hu)
    · rename_i hid
      have hinst := honce.unwritten_ne hlock hfree hu hid
      rw [World.get?_instances_apply, if_neg hinst] at hi'
      refine (h.unwritten id' u i' hu hi').imp_right ?_
      rintro ⟨id'', credential, hid'', hu''⟩
      exact ⟨id'', credential, hid'', hstay hu'' hinst⟩
  · rw [World.apply_log, hcontents, hauthor]
    rw [World.get?_instances_apply] at hi'
    split at hi'
    · rename_i hinst
      rw [← Option.some.inj hi']
      refine (hload p).imp (fun hu => ?_) (fun hp _ => hp)
      obtain ⟨u, hu, hprovider⟩ := hu
      obtain ⟨stage', -, hstage'⟩ := Option.bind_eq_some_iff.mp hu
      refine ⟨id, u, ?_, (Stage.unwritten_eq_some hstage').1.trans hinst.symm, hprovider⟩
      rw [World.unwritten_apply, if_pos rfl, hu]
    · rename_i hinst
      refine (h.data inst' i' p hi').imp_left ?_
      rintro ⟨id', u, hu, rfl, hprovider⟩
      exact ⟨id', u, hstay hu hinst, rfl, hprovider⟩
  · rw [World.apply_log, hauthor] at hp
    exact s.instances_apply_present id inst o (h.author inst' p hp)

/-- Under the lock, the call writes its change. -/
theorem Kept.writes {stage : Stage} {i : Instance} {u : Unwritten} (h : Kept init s) (honce : Once s)
    (hcall : s.calls.get? id = some ⟨inst, stage⟩) (hi : s.instances.get? inst = some i) (hlock : s.lock = some id)
    (hfree : s.blocked process id inst = false) (hu : stage.unwritten inst = some u) (hown : o.own = i)
    (hfile : o.file = some (merge (contents init s.log) u.provider u.credential))
    (hevent : o.event = some (.changed inst u.provider u.credential))
    (hnext : ∀ stage, o.next = some stage → stage.unwritten inst = none ∧ ∀ contents, stage.Fits contents) :
    Kept init (s.apply id inst o) := by
  have hinst := (Stage.unwritten_eq_some hu).1
  have hmine : s.unwritten id = some u := by
    rw [World.unwritten_of_calls (some stage) hcall]
    exact hu
  have hstay : ∀ {id' w}, s.unwritten id' = some w → w.inst ≠ inst → (s.apply id inst o).unwritten id' = some w :=
    World.unwritten_apply_of_ne (some stage) hcall
  have hlog : (s.apply id inst o).log = s.log ++ [Event.changed inst u.provider u.credential] := by
    rw [World.apply_log, hevent, Option.toList_some]
  have hinstances : ∀ inst', (s.apply id inst o).instances.get? inst' = s.instances.get? inst' := by
    intro inst'
    rw [World.get?_instances_apply]
    split
    · rename_i hinst'
      rw [hown, hinst', hi]
    · rfl
  -- no newer change of the instance is waiting, so its data has this one
  have hdata : i.data.get? u.provider = u.credential := by
    refine (h.unwritten id u i hmine (hinst ▸ hi)).resolve_right ?_
    rintro ⟨id', credential, hid', hu'⟩
    exact honce.unwritten_ne hlock hfree hu' hid' hinst
  refine ⟨?_, ?_, h.present_apply id inst o, fun id' w i' hw hi' => ?_, fun inst' i' p hi' => ?_, fun inst' p hp => ?_⟩
  · rw [World.apply_current, hfile, hlog, contents_concat]
    rfl
  · refine fits_apply (fun stage' hstage' => (hnext stage' hstage').2 _) fun id' call hid' hcall' => ?_
    refine Stage.fits_of_not_holds (Bool.eq_false_iff.mpr fun hholds => hid' ?_)
    have hlock' := honce.holder id' call hcall' hholds
    rw [hlock] at hlock'
    exact (Option.some.inj hlock').symm
  · rw [World.unwritten_apply] at hw
    split at hw
    · obtain ⟨stage', hstage', hw⟩ := Option.bind_eq_some_iff.mp hw
      rw [(hnext stage' hstage').1] at hw
      cases hw
    · rename_i hid
      have hne := honce.unwritten_ne hlock hfree hw hid
      rw [hinstances] at hi'
      refine (h.unwritten id' w i' hw hi').imp_right ?_
      rintro ⟨id'', credential, hid'', hw''⟩
      exact ⟨id'', credential, hid'', hstay hw'' hne⟩
  · rw [hinstances] at hi'
    rw [hlog, contents_concat, lastAuthor_concat, Event.applyTo, get?_merge, Event.author?]
    by_cases hp : p = u.provider
    · rw [if_pos hp, if_pos hp.symm, hp]
      by_cases hinst' : inst' = inst
      · rw [hinst', hi] at hi'
        rw [← Option.some.inj hi']
        exact Or.inr fun _ => hdata
      · exact Or.inr fun hauthor => absurd (Option.some.inj hauthor).symm hinst'
    · rw [if_neg hp, if_neg fun heq => hp heq.symm, Option.none_or]
      refine (h.data inst' i' p hi').imp_left ?_
      rintro ⟨id', w, hw, rfl, hprovider⟩
      refine ⟨id', w, hstay hw fun hinst' => ?_, rfl, hprovider⟩
      by_cases hid : id' = id
      · rw [hid, hmine] at hw
        rw [← Option.some.inj hw] at hprovider
        exact hp hprovider.symm
      · exact honce.unwritten_ne hlock hfree hw hid hinst'
  · rw [hinstances]
    rw [hlog, lastAuthor_concat, Event.author?] at hp
    split at hp
    · rw [← Option.some.inj hp]
      exact ⟨i, hi⟩
    · exact h.author inst' p hp

/-- A call changes the data of its instance and goes on to write it. -/
theorem Kept.changes {i : Instance} (h : Kept init s) (hcall : s.calls.get? id = none)
    (hi : s.instances.get? inst = some i) (provider : String) (credential : Option AuthCredential) :
    Kept init (s.apply id inst
      (s.goOn ⟨merge i.data provider credential, i.loadError⟩ (.ensureFile (.change provider credential)))) := by
  set o := s.goOn ⟨merge i.data provider credential, i.loadError⟩ (.ensureFile (.change provider credential)) with ho
  have hlog : (s.apply id inst o).log = s.log := List.append_nil s.log
  have hmine : (s.apply id inst o).unwritten id = some ⟨inst, true, provider, credential⟩ := by
    rw [World.unwritten_apply, if_pos rfl]
    rfl
  have hstay : ∀ {id' u}, s.unwritten id' = some u → id' ≠ id ∧ (s.apply id inst o).unwritten id' = some u := by
    intro id' u hu
    have hid : id' ≠ id := by
      rintro rfl
      rw [World.unwritten_eq_none hcall] at hu
      cases hu
    rw [World.unwritten_apply, if_neg hid]
    exact ⟨hid, hu⟩
  refine ⟨h.file.trans (by rw [hlog]), ?_, h.present_apply id inst o, fun id' u i' hu hi' => ?_,
    fun inst' i' p hi' => ?_, fun inst' p hp => ?_⟩
  · rw [hlog]
    refine fits_apply (fun stage hstage => ?_) fun id' call _ hcall => h.fits id' call hcall
    rw [← Option.some.inj hstage]
    trivial
  · rw [World.get?_instances_apply] at hi'
    by_cases hid : id' = id
    · rw [hid, hmine] at hu
      rw [← Option.some.inj hu] at hi' ⊢
      rw [if_pos rfl] at hi'
      rw [← Option.some.inj hi']
      exact Or.inl ((get?_merge i.data provider provider credential).trans (if_pos rfl))
    rw [World.unwritten_apply, if_neg hid] at hu
    have hovertaken : ∀ p, s.Overtaken id' u.inst p → (s.apply id inst o).Overtaken id' u.inst p := by
      rintro p ⟨id'', credential', hid'', hu''⟩
      exact ⟨id'', credential', hid'', (hstay hu'').2⟩
    split at hi'
    · rename_i hinst
      rw [← Option.some.inj hi']
      by_cases hp : u.provider = provider
      · refine Or.inr ⟨id, credential, fun heq => hid heq.symm, ?_⟩
        rw [hmine, hinst, hp]
      · refine (h.unwritten id' u i hu (hinst ▸ hi)).imp (fun hdata => ?_) (hovertaken _)
        exact ((get?_merge i.data provider u.provider credential).trans (if_neg hp)).trans hdata
    · exact (h.unwritten id' u i' hu hi').imp_right (hovertaken _)
  · rw [hlog]
    have hpending : ∀ inst' i', s.instances.get? inst' = some i' →
        (∃ id' u, (s.apply id inst o).unwritten id' = some u ∧ u.inst = inst' ∧ u.provider = p) ∨
          (lastAuthor s.log p = some inst' → i'.data.get? p = (contents init s.log).get? p) := by
      intro inst' i' hi'
      refine (h.data inst' i' p hi').imp_left ?_
      rintro ⟨id', u, hu, hu'⟩
      exact ⟨id', u, (hstay hu).2, hu'⟩
    rw [World.get?_instances_apply] at hi'
    split at hi'
    · rename_i hinst
      rw [← Option.some.inj hi', hinst]
      by_cases hp : p = provider
      · exact Or.inl ⟨id, _, hmine, rfl, hp.symm⟩
      · refine (hpending inst i hi).imp_right fun hdata hauthor => ?_
        exact ((get?_merge i.data provider p credential).trans (if_neg hp)).trans (hdata hauthor)
    · exact hpending inst' i' hi'
  · rw [hlog] at hp
    exact s.instances_apply_present id inst o (h.author inst' p hp)

/-- A new instance has made no change. -/
theorem Kept.creates (h : Kept init s) (hcall : s.calls.get? id = none) (hi : s.instances.get? inst = none) :
    Kept init (s.apply id inst (s.goOn ⟨.empty, false⟩ (.ensureFile .reload))) := by
  set o := s.goOn ⟨.empty, false⟩ (.ensureFile .reload) with ho
  have hlog : (s.apply id inst o).log = s.log := List.append_nil s.log
  have hsame : (s.apply id inst o).unwritten = s.unwritten := by
    funext id'
    rw [World.unwritten_apply]
    split
    · rename_i hid
      rw [hid, World.unwritten_eq_none hcall]
      rfl
    · rfl
  have hother : ∀ id' u, s.unwritten id' = some u → u.inst ≠ inst := by
    intro id' u hu hinst
    obtain ⟨call, hcall', hstage⟩ := Option.bind_eq_some_iff.mp hu
    obtain ⟨i, hi'⟩ := h.present id' call hcall'
    rw [← (Stage.unwritten_eq_some hstage).1, hinst, hi] at hi'
    cases hi'
  refine ⟨h.file.trans (by rw [hlog]), ?_, h.present_apply id inst o, fun id' u i' hu hi' => ?_,
    fun inst' i' p hi' => ?_, fun inst' p hp => ?_⟩
  · rw [hlog]
    refine fits_apply (fun stage hstage => ?_) fun id' call _ hcall => h.fits id' call hcall
    rw [← Option.some.inj hstage]
    trivial
  · rw [hsame] at hu
    rw [World.get?_instances_apply, if_neg (hother id' u hu)] at hi'
    rw [World.Overtaken, hsame]
    exact h.unwritten id' u i' hu hi'
  · rw [hlog, hsame]
    rw [World.get?_instances_apply] at hi'
    split at hi'
    · rename_i hinst
      refine Or.inr fun hauthor => ?_
      obtain ⟨i, hi''⟩ := h.author inst' p hauthor
      rw [hinst, hi] at hi''
      cases hi''
    · exact h.data inst' i' p hi'
  · rw [hlog] at hp
    exact s.instances_apply_present id inst o (h.author inst' p hp)

/-! ### Steps and runs -/

theorem Kept.begin {method : Method} (h : Kept init s) (hcall : s.calls.get? id = none)
    (hkeeps : keeps s (.begin id inst method) = true) (ho : s.begin known inst method (s.instances.get? inst) = some o) :
    Kept init (s.apply id inst o) := by
  have hmoves : ∀ {o : Outcome} {i : Instance}, s.instances.get? inst = some i → o.own = i → o.file = s.file →
      o.event = none → o.next.bind (Stage.unwritten inst) = none →
      (∀ stage, o.next = some stage → stage.holds = false) → Kept init (s.apply id inst o) := by
    intro o i hi hown hfile hevent hunwritten hholds
    refine h.moves none hcall hi (by rw [hown]) (by rw [hfile]; rfl) hevent hunwritten fun stage hstage => ?_
    exact Stage.fits_of_not_holds (hholds stage hstage)
  cases method with
  | create =>
    cases hi : s.instances.get? inst with
    | some i => rw [hi] at ho; cases ho
    | none =>
      rw [hi] at ho
      obtain rfl := Option.some.inj ho
      exact h.creates hcall hi
  | reload =>
    cases hi : s.instances.get? inst with
    | none => rw [hi] at ho; cases ho
    | some i =>
      rw [hi] at ho
      obtain rfl := Option.some.inj ho
      refine hmoves hi rfl rfl rfl rfl fun stage hstage => ?_
      rw [← Option.some.inj hstage]
      rfl
  | change provider credential =>
    cases hi : s.instances.get? inst with
    | none => rw [hi] at ho; cases ho
    | some i =>
      rw [hi] at ho
      obtain rfl := Option.some.inj ho
      have herror : i.loadError = false := by simpa [keeps, hi] using hkeeps
      simp only [World.persistProviderChange, herror, Bool.false_eq_true, if_false]
      have hchanges := h.changes hcall hi provider credential
      rwa [herror] at hchanges
  | getApiKey provider =>
    cases hi : s.instances.get? inst with
    | none => rw [hi] at ho; cases ho
    | some i =>
      rw [hi] at ho
      obtain rfl := Option.some.inj ho
      simp only [World.getApiKey]
      split
      · split
        · refine hmoves hi rfl rfl rfl rfl fun stage hstage => ?_
          rw [← Option.some.inj hstage]
          rfl
        · exact hmoves hi rfl rfl rfl rfl fun stage hstage => by cases hstage
      · exact hmoves hi rfl rfl rfl rfl fun stage hstage => by cases hstage

theorem Kept.advance {stage : Stage} {i : Instance} {newCredentials : OAuthCredentials} (h : Kept init s) (honce : Once s)
    (hcall : s.calls.get? id = some ⟨inst, stage⟩) (hi : s.instances.get? inst = some i)
    (hfree : s.blocked process id inst = false) (hkeeps : keeps s (.goOn id newCredentials) = true) :
    Kept init (s.apply id inst (s.advance id inst i newCredentials stage)) := by
  have hfit := h.fits id _ hcall
  have hlock : stage.holds = true → s.lock = some id := honce.holder id _ hcall
  have hstage : (s.calls.get? id).map Call.stage = some stage := by rw [hcall]; rfl
  simp only [keeps, hstage] at hkeeps
  -- a step that leaves the file, the data and the change of the call
  have hmoves : ∀ {o : Outcome}, o.own.data = i.data → o.file.getD .empty = s.current → o.event = none →
      o.next.bind (Stage.unwritten inst) = stage.unwritten inst →
      (∀ stage, o.next = some stage → stage.Fits (contents init s.log)) → Kept init (s.apply id inst o) :=
    h.moves (some stage) hcall hi
  have hgoOn : ∀ {o : Outcome} {next : Stage}, o.own = i → o.file.getD .empty = s.current → o.event = none →
      o.next = some next → next.unwritten inst = stage.unwritten inst → next.Fits (contents init s.log) →
      Kept init (s.apply id inst o) := by
    intro o next hown hfile hevent hnext hunwritten hfits
    refine hmoves (by rw [hown]) hfile hevent (by rw [hnext]; exact hunwritten) fun stage hstage => ?_
    rw [hnext] at hstage
    rwa [← Option.some.inj hstage]
  cases stage with
  | ensureFile work | ensureFileAsync provider =>
    refine hgoOn rfl rfl rfl rfl ?_ ?_ <;> split
    all_goals first | rfl | trivial
  | createFile work | createFileAsync provider =>
    exact hgoOn rfl (of_decide_eq_true hkeeps).symm rfl rfl rfl trivial
  | acquire work attempt =>
    simp only [World.advance]
    split
    · exact hgoOn rfl rfl rfl rfl rfl trivial
    rename_i hheld
    split
    · rename_i hlast
      cases work with
      | reload => exact hmoves rfl rfl rfl rfl fun stage hstage => by cases hstage
      | change provider credential => exact absurd (of_decide_eq_true hkeeps hlast) hheld
    · exact hgoOn rfl rfl rfl rfl rfl trivial
  | acquireAsync provider attempt =>
    simp only [World.advance]
    split
    · exact hgoOn rfl rfl rfl rfl rfl trivial
    split <;> exact hgoOn rfl rfl rfl rfl rfl trivial
  | read work =>
    cases work with
    | reload => exact hgoOn rfl rfl rfl rfl rfl h.file
    | change provider credential => exact hgoOn rfl rfl rfl rfl rfl (by rw [h.file]; rfl)
  | write provider credential next =>
    refine h.writes honce hcall hi (hlock rfl) hfree rfl rfl (congrArg some hfit) rfl fun stage hstage => ?_
    rw [← Option.some.inj hstage]
    exact ⟨rfl, fun _ => trivial⟩
  | writeAsync provider credentials next =>
    refine h.writes honce hcall hi (hlock rfl) hfree rfl rfl (congrArg some hfit) rfl fun stage hstage => ?_
    rw [← Option.some.inj hstage]
    exact ⟨rfl, fun _ => trivial⟩
  | release content =>
    cases content with
    | none => exact hmoves rfl rfl rfl rfl fun stage hstage => by cases hstage
    | some content =>
      refine h.loads honce hcall (hlock rfl) hfree rfl ?_ (fun p => ?_) (fun stage hstage => by cases hstage)
        (fun u hu => by cases hu) fun p => Or.inr ?_
      · exact congrArg _ (List.append_nil s.log)
      · exact congrArg (lastAuthor · p) (List.append_nil s.log)
      · exact congrArg (OrdMap.get? · p) hfit
  | releaseAsync => exact hmoves rfl rfl rfl rfl fun stage hstage => by cases hstage
  | readAsync provider =>
    have hloads : ∀ next : Stage, next.unwritten inst = none → next.Fits (contents init s.log) →
        ∀ event : Option Event, (∀ e, event = some e → e = .refreshing inst provider) →
        Kept init (s.apply id inst ⟨s.file, s.lock, ⟨s.current, false⟩, event, some next⟩) := by
      intro next hunwritten hfits event hevent
      refine h.loads honce hcall (hlock rfl) hfree rfl ?_ (fun p => ?_) (fun stage hstage => ?_) (fun u hu => ?_)
        fun p => Or.inr (congrArg (OrdMap.get? · p) h.file)
      · cases event with
        | none => exact congrArg _ (List.append_nil s.log)
        | some e => rw [hevent e rfl]; exact contents_concat s.log _
      · cases event with
        | none => exact congrArg (lastAuthor · p) (List.append_nil s.log)
        | some e => rw [hevent e rfl]; exact lastAuthor_concat s.log _ p
      · rwa [← Option.some.inj hstage]
      · rw [Option.bind_some, hunwritten] at hu
        cases hu
    simp only [World.advance]
    split
    · split
      · exact hloads .releaseAsync rfl trivial none fun e he => by cases he
      · exact hloads (.refresh provider s.current) rfl h.file (some _) fun e he => (Option.some.inj he).symm
    · exact hloads .releaseAsync rfl trivial none fun e he => by cases he
  | refresh provider currentData =>
    obtain rfl : currentData = contents init s.log := hfit
    refine h.loads honce hcall (hlock rfl) hfree rfl ?_ (fun p => ?_) (fun stage hstage => ?_) (fun u hu => ?_) fun p => ?_
    · exact congrArg _ (List.append_nil s.log)
    · exact congrArg (lastAuthor · p) (List.append_nil s.log)
    · rw [← Option.some.inj hstage]
      rfl
    · rw [← Option.some.inj hu]
      exact (get?_merge _ provider provider _).trans (if_pos rfl)
    · by_cases hp : p = provider
      · exact Or.inl ⟨_, rfl, hp.symm⟩
      · exact Or.inr ((get?_merge _ provider p _).trans (if_neg hp))

/-- A token. -/
def token (access : String) (expires : ℕ) : OAuthCredentials := ⟨access, "r-" ++ access, expires⟩

/-- The steps of a call that has the lock at its first attempt and finds a file. -/
def goOn (id n : ℕ) (access : String) : List Step := List.replicate n (.goOn id (token access 9))

/-- Each instance has a process of its own. -/
def alone (inst : ℕ) : ℕ := inst

end Trek.AuthStorage
