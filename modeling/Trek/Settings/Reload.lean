/-
# Reloading the settings

A setter changes the settings in memory and puts a write into the queue at once; `reload`
waits for the queue as it is when it is called, reads the storage and replaces the memory.
All of them go through one promise chain, so that what is waiting is served in the order
in which it came.

The queue makes of the storage what is in memory (`Inv.settled`): a write adds to both.
`reload` keeps that only where no write is queued behind it. A setter that is called while
`reload` waits is behind it: the storage gets its value later, and the memory has lost it
(`run_not_reloaded`). Where that does not happen memory and storage agree when the queue
is empty, and both have what was set last (`run_reloaded`).
-/
import Trek.Settings.Shared

namespace Trek.Settings

/-- `SettingsScope`. -/
inductive Scope
  | global
  | project
  deriving DecidableEq

/-- What waits in the promise chain. -/
inductive Job
  | write (scope : Scope) (snapshot : Scoped)
  | reload

/-- `SettingsManager` over a storage of its own, of a project that is trusted. -/
structure SettingsManager where
  storage : Scope → Option Settings
  memory : Scope → Scoped
  queue : List Job
  /-- What was last set of each target: no code reads it. -/
  last : Scope → Target → Option (Option Json)

/-- A setter, a call of `reload`, or the first of what waits. -/
inductive ManagerStep
  | set (scope : Scope) (changes : List Change)
  | reload
  | work

namespace SettingsManager

/-- `fromStorage`. -/
def fromStorage (storage : Scope → Option Settings) : SettingsManager :=
  ⟨storage, fun scope => .load (storage scope), [], fun _ _ => none⟩

/-- A setter with `save` or `saveProjectSettings`. -/
def set (m : SettingsManager) (scope : Scope) (changes : List Change) : SettingsManager where
  storage := m.storage
  memory := Function.update m.memory scope ((m.memory scope).setAll changes)
  queue := m.queue ++ [.write scope ((m.memory scope).setAll changes)]
  last := Function.update m.last scope (setLast changes (m.last scope))

/-- The task of `enqueueWrite` on the storage. -/
def persist (storage : Scope → Option Settings) (scope : Scope) (snapshot : Scoped) : Scope → Option Settings :=
  Function.update storage scope (some (persistScopedSettings snapshot (storage scope)))

/-- The first of what waits: a write and `clearModifiedScope`, or the rest of `reload`. -/
def work (m : SettingsManager) : Option SettingsManager :=
  match m.queue with
  | [] => none
  | .write scope snapshot :: queue =>
    some { m with
      storage := persist m.storage scope snapshot
      memory := Function.update m.memory scope (m.memory scope).clearModified
      queue }
  | .reload :: queue => some { m with memory := fun scope => .load (m.storage scope), queue }

/-- A step; `none` when it cannot be taken. -/
def step (m : SettingsManager) : ManagerStep → Option SettingsManager
  | .set scope changes => some (m.set scope changes)
  | .reload => some { m with queue := m.queue ++ [.reload] }
  | .work => m.work

def run : SettingsManager → List ManagerStep → Option SettingsManager := Machine.run step

/-- Nothing that was set is lost: when nothing waits, reading the storage gives what is in memory,
and both have what was last set. -/
def Reloaded (m : SettingsManager) : Prop :=
  m.queue = [] → ∀ scope, loadFromStorage (m.storage scope) = (m.memory scope).settings ∧
    ∀ t value, m.last scope t = some value → (m.memory scope).settings.get t = value

/-- No write waits behind a `reload` that goes on. -/
def NothingBehind (m : SettingsManager) : ManagerStep → Prop
  | .work => ∀ queue, m.queue = .reload :: queue → ∀ job ∈ queue, job = .reload
  | _ => True

/-! ### What the queue makes of the storage -/

/-- A job on the storage. -/
def perform (storage : Scope → Option Settings) : Job → Scope → Option Settings
  | .write scope snapshot => persist storage scope snapshot
  | .reload => storage

/-- The storage when all that waits is done. -/
def settled (m : SettingsManager) : Scope → Option Settings := m.queue.foldl perform m.storage

theorem foldl_perform_reload {queue : List Job} (h : ∀ job ∈ queue, job = .reload) (storage : Scope → Option Settings) :
    queue.foldl perform storage = storage := by
  induction queue with
  | nil => rfl
  | cons job queue ih =>
    rw [List.foldl_cons, h job List.mem_cons_self]
    exact ih fun job hjob => h job (List.mem_cons_of_mem _ hjob)

/-- The invariant: what waits makes the storage what is in memory. -/
structure Inv (m : SettingsManager) : Prop where
  settled : ∀ scope, loadFromStorage (m.settled scope) = (m.memory scope).settings
  /-- Only what was set is modified. -/
  modified : ∀ scope, ∀ t ∈ (m.memory scope).modified, (m.last scope t).isSome
  memory : ∀ scope t value, m.last scope t = some value → (m.memory scope).settings.get t = value

theorem inv_fromStorage (storage : Scope → Option Settings) : (fromStorage storage).Inv := by
  refine ⟨fun _ => rfl, fun _ _ ht => ?_, fun _ _ _ h => ?_⟩
  · cases ht
  · cases h

theorem memory_set (m : SettingsManager) (scope scope' : Scope) (changes : List Change) :
    (m.set scope changes).memory scope' =
      if scope' = scope then (m.memory scope).setAll changes else m.memory scope' :=
  Function.update_apply ..

theorem last_set (m : SettingsManager) (scope scope' : Scope) (changes : List Change) :
    (m.set scope changes).last scope' = if scope' = scope then setLast changes (m.last scope) else m.last scope' :=
  Function.update_apply ..

theorem Inv.set {m : SettingsManager} (h : m.Inv) (scope : Scope) (changes : List Change) : (m.set scope changes).Inv := by
  obtain ⟨hmod, hget, -, -, -⟩ := setAll_spec changes (m.memory scope) (m.last scope) (h.modified scope) (h.memory scope)
  -- the write that is added makes the storage like the memory
  have hwrite : persistScopedSettings ((m.memory scope).setAll changes) (m.settled scope) =
      ((m.memory scope).setAll changes).settings := by
    refine Scoped.Agrees.persistScopedSettings (Scoped.agrees_setAll changes ?_)
    rw [h.settled]
    exact (m.memory scope).agrees_self
  have hsettled : (m.set scope changes).settled = persist m.settled scope ((m.memory scope).setAll changes) := by
    rw [SettingsManager.settled, SettingsManager.set, List.foldl_append]
    rfl
  refine ⟨fun scope' => ?_, fun scope' => ?_, fun scope' => ?_⟩
  · rw [hsettled, persist, Function.update_apply, memory_set]
    split
    · rw [hwrite]
      exact ((m.memory scope).setAll changes).migrated.migrateSettings
    · exact h.settled scope'
  · rw [memory_set, last_set]
    split
    · exact hmod
    · exact h.modified scope'
  · rw [memory_set, last_set]
    split
    · exact hget
    · exact h.memory scope'

theorem Inv.step {m m' : SettingsManager} {input : ManagerStep} (h : m.Inv) (hbehind : m.NothingBehind input)
    (hs : m.step input = some m') : m'.Inv := by
  cases input with
  | set scope changes =>
    obtain rfl := Option.some.inj hs
    exact h.set scope changes
  | reload =>
    obtain rfl := Option.some.inj hs
    refine ⟨fun scope => ?_, h.modified, h.memory⟩
    rw [← h.settled, SettingsManager.settled, SettingsManager.settled, List.foldl_append]
    rfl
  | work =>
    simp only [SettingsManager.step, SettingsManager.work] at hs
    split at hs
    · cases hs
    · rename_i scope snapshot queue hq
      obtain rfl := Option.some.inj hs
      have hmemory : ∀ scope', (Function.update m.memory scope (m.memory scope).clearModified scope').settings =
            (m.memory scope').settings ∧
          ∀ t ∈ (Function.update m.memory scope (m.memory scope).clearModified scope').modified,
            t ∈ (m.memory scope').modified := by
        intro scope'
        rw [Function.update_apply]
        split
        · rename_i he
          rw [he]
          exact ⟨rfl, fun t ht => nomatch ht⟩
        · exact ⟨rfl, fun t ht => ht⟩
      refine ⟨fun scope' => ?_, fun scope' t ht => h.modified scope' t ((hmemory scope').2 t ht), fun scope' t value hv => ?_⟩
      · rw [(hmemory scope').1, ← h.settled, SettingsManager.settled, SettingsManager.settled, hq]
        rfl
      · rw [(hmemory scope').1]
        exact h.memory scope' t value hv
    · rename_i queue hq
      obtain rfl := Option.some.inj hs
      -- with no write behind it the storage is what is in memory already
      have hstorage : ∀ scope, loadFromStorage (m.storage scope) = (m.memory scope).settings := by
        intro scope
        rw [← h.settled, SettingsManager.settled, hq, List.foldl_cons, foldl_perform_reload (hbehind queue hq)]
        rfl
      refine ⟨fun scope => ?_, fun _ _ ht => ?_, fun scope t value hv => ?_⟩
      · rw [SettingsManager.settled, foldl_perform_reload (hbehind queue hq)]
        rfl
      · cases ht
      · exact (congrArg (get · t) (hstorage scope)).trans (h.memory scope t value hv)

/-! ### Every run -/

/-- **In every run of setters and reloads in which no reload goes on while a write waits behind it,
memory and storage agree when nothing waits, and have what was set last.** -/
theorem run_reloaded (storage : Scope → Option Settings) (steps : List ManagerStep) (m : SettingsManager)
    (hrun : (fromStorage storage).run steps = some m)
    (hbehind : Machine.Throughout step NothingBehind (fromStorage storage) steps) : m.Reloaded := by
  have h : m.Inv := Machine.inv_throughout (fun _ _ _ h hbehind hs => Inv.step h hbehind hs) steps
    (inv_fromStorage storage) hbehind hrun
  intro hqueue scope
  refine ⟨?_, h.memory scope⟩
  rw [← h.settled, settled, hqueue]
  rfl

/-- A theme is set, and the settings are reloaded before it is written. -/
theorem run_reloaded_theme : ∃ m, (fromStorage fun _ => none).run [.set .global (setTheme "dark"), .reload, .work, .work] =
    some m ∧ m.Reloaded :=
  ⟨_, rfl, run_reloaded (fun _ => none) [.set .global (setTheme "dark"), .reload, .work, .work] _ rfl <|
    Machine.throughout_cons trivial rfl <| Machine.throughout_cons trivial rfl <|
    Machine.throughout_cons (fun _ h => nomatch h) rfl <|
    Machine.throughout_cons (fun queue h job hjob => by
      obtain rfl := (List.cons.inj h).2
      cases hjob) rfl trivial⟩

/-- The theme is set while the reload waits: the memory goes back to what the storage had. -/
theorem run_not_reloaded : ∃ (steps : List ManagerStep) (m : SettingsManager),
    (fromStorage fun _ => none).run steps = some m ∧ ¬ m.Reloaded := by
  refine ⟨[.reload, .set .global (setTheme "dark"), .work, .work], _, rfl, fun h => ?_⟩
  have := (h rfl .global).2 (.field "theme") (some (.str "dark")) rfl
  cases this

end SettingsManager

end Trek.Settings
