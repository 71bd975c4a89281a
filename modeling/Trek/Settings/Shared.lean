/-
# Settings managers that share a settings file

Each write of a `SettingsManager` goes through `FileSettingsStorage.withLock`: it looks
whether the file is there, locks and reads it if it is, merges what was modified into what
it read, and locks the file only then if it was not there. In between the other instances
take their steps.

A write that finds the file reads it under its lock, so that what it merges into is the
file (`Inv.current`), and what another instance wrote is kept. A write that finds no file
has read nothing: when another instance creates the file before this one has its lock, all
that was written then is lost (`run_not_keepsUpdates`). Where that does not happen no
update is lost (`run_keepsUpdates`).
-/
import Trek.Lib.Machine
import Trek.Settings.Setters

namespace Trek.Settings

variable {ι : Type*}

/-! ### The instances -/

/-- How far an instance is in `withLock`. -/
inductive Phase
  | idle
  | checked (fileExists : Bool)
  | locked
  | read (current : Option Settings)
  | written

/-- The instance has the lock. -/
def Phase.Holds : Phase → Prop
  | .idle | .checked _ => False
  | .locked | .read _ | .written => True

/-- What a `SettingsManager` has of the scope of the file: the settings in memory, the snapshots in
its write queue and how far it is with the first of them. -/
structure Instance where
  memory : Scoped
  queue : List Scoped
  phase : Phase
  /-- What was last set of each target: no code reads it. -/
  last : Target → Option (Option Json)

/-- The instance as it is created: it has read the file as it was then. -/
def Instance.create (content : Option Settings) : Instance := ⟨.load content, [], .idle, fun _ => none⟩

/-- What was last set after a setter. -/
def setLast (changes : List Change) (last : Target → Option (Option Json)) : Target → Option (Option Json) :=
  changes.foldl (fun last c => Function.update last c.target (some c.value)) last

/-- A setter with its `save`. -/
def Instance.set (x : Instance) (changes : List Change) : Instance where
  memory := x.memory.setAll changes
  queue := x.queue ++ [x.memory.setAll changes]
  phase := x.phase
  last := setLast changes x.last

/-- All writes are done. -/
def Instance.Drained (x : Instance) : Prop := x.queue = [] ∧ x.phase = .idle

/-- The file, its lock and the instances. -/
structure Shared (ι : Type*) where
  file : Option Settings
  lock : Option ι
  instances : ι → Instance

/-- A setter of an instance, or a step of `withLock` in its write queue. -/
inductive SharedStep (ι : Type*)
  | set (i : ι) (changes : List Change)
  | check (i : ι)
  | lock (i : ι)
  | read (i : ι)
  | write (i : ι)
  | release (i : ι)

namespace Shared

/-- The instances over a file, each as it was created with what it found in the file. -/
def start (file : Option Settings) (found : ι → Option Settings) : Shared ι :=
  ⟨file, none, fun i => .create (found i)⟩

variable [DecidableEq ι]

/-- One instance changes. -/
def withInstance (s : Shared ι) (i : ι) (x : Instance) : Shared ι :=
  { s with instances := Function.update s.instances i x }

/-- A step; `none` when it cannot be taken. Setters run between the tasks of the queue. -/
def step (s : Shared ι) : SharedStep ι → Option (Shared ι)
  | .set i changes =>
    match (s.instances i).phase with
    | .idle => some (s.withInstance i ((s.instances i).set changes))
    | _ => none
  | .check i =>
    match (s.instances i).phase, (s.instances i).queue with
    | .idle, _ :: _ => some (s.withInstance i { s.instances i with phase := .checked s.file.isSome })
    | _, _ => none
  | .lock i =>
    match s.lock, (s.instances i).phase with
    | none, .checked true => some { s.withInstance i { s.instances i with phase := .locked } with lock := some i }
    | none, .checked false =>
      -- the contents are `undefined` since the file was not there, whatever is there now
      some { s.withInstance i { s.instances i with phase := .read none } with lock := some i }
    | _, _ => none
  | .read i =>
    match (s.instances i).phase with
    | .locked => some (s.withInstance i { s.instances i with phase := .read s.file })
    | _ => none
  | .write i =>
    match (s.instances i).phase, (s.instances i).queue with
    | .read current, snapshot :: queue =>
      some { s.withInstance i { s.instances i with queue, phase := .written } with
        file := some (persistScopedSettings snapshot current) }
    | _, _ => none
  | .release i =>
    match (s.instances i).phase with
    | .written =>
      let x := s.instances i
      some { s.withInstance i { x with memory := x.memory.clearModified, phase := .idle } with lock := none }
    | _ => none

def run : Shared ι → List (SharedStep ι) → Option (Shared ι) := Machine.run step

/-- No other instance has set the target. -/
def Sole (s : Shared ι) (i : ι) (t : Target) : Prop := ∀ j, j ≠ i → (s.instances j).last t = none

/-- No update is lost: when all writes are done the file has the last value of every target that
only one instance has set. -/
def KeepsUpdates (s : Shared ι) : Prop :=
  (∀ i, (s.instances i).Drained) → ∀ i t value, (s.instances i).last t = some value → s.Sole i t →
    ∃ file, s.file = some file ∧ file.get t = value

/-- The file that was not there when it was looked for is still not there when it is locked. -/
def StillAbsent (s : Shared ι) : SharedStep ι → Prop
  | .lock i => (s.instances i).phase = .checked false → s.file = none
  | _ => True

end Shared

/-! ### The memory and the queue of one instance -/

/-- What holds of an instance by itself. -/
structure Instance.Inv (x : Instance) : Prop where
  /-- Only what was set is modified, and written. -/
  modified : ∀ t ∈ x.memory.modified, (x.last t).isSome
  own : ∀ snapshot ∈ x.queue, ∀ t ∈ snapshot.modified, (x.last t).isSome
  /-- The memory has what was set last. -/
  memory : ∀ t value, x.last t = some value → x.memory.settings.get t = value
  /-- The last write of a target that is in the queue has what was set last. -/
  latest : ∀ t value snapshot, x.last t = some value →
    (x.queue.filter (t ∈ ·.modified)).getLast? = some snapshot → snapshot.settings.get t = value

theorem Instance.inv_create (content : Option Settings) : (Instance.create content).Inv :=
  ⟨by simp [create, Scoped.load], by simp [create], by simp [create], by simp [create]⟩

/-- A setter changes what it marks as modified, and remembers it. -/
theorem setAll_spec : ∀ (changes : List Change) (x : Scoped) (last : Target → Option (Option Json)),
    (∀ t ∈ x.modified, (last t).isSome) → (∀ t value, last t = some value → x.settings.get t = value) →
    (∀ t ∈ (x.setAll changes).modified, (setLast changes last t).isSome) ∧
      (∀ t value, setLast changes last t = some value → (x.setAll changes).settings.get t = value) ∧
      (∀ t, (last t).isSome → (setLast changes last t).isSome) ∧
      (∀ t ∈ x.modified, t ∈ (x.setAll changes).modified) ∧
      ∀ t ∉ (x.setAll changes).modified, setLast changes last t = last t
  | [], _, _, hmod, hget => ⟨hmod, hget, fun _ h => h, fun _ h => h, fun _ _ => rfl⟩
  | c :: changes, x, last, hmod, hget => by
    have hlast : ∀ t, Function.update last c.target (some c.value) t = if t = c.target then some c.value else last t :=
      fun t => Function.update_apply ..
    have hmod' : ∀ t ∈ (x.set c).modified, (Function.update last c.target (some c.value) t).isSome := by
      intro t ht
      rw [hlast]
      split
      · rfl
      · rename_i hne
        exact hmod t ((List.mem_append.mp ht).resolve_right fun hc => hne (List.mem_singleton.mp hc))
    have hget' : ∀ t value, Function.update last c.target (some c.value) t = some value →
        (x.set c).settings.get t = value := by
      intro t value hv
      rw [hlast] at hv
      refine (get_set x.settings c.value c.target t).trans ?_
      split at hv
      · rename_i he
        rw [if_pos he]
        exact Option.some.inj hv
      · rename_i hne
        rw [if_neg hne]
        exact hget t value hv
    obtain ⟨h₁, h₂, h₃, h₄, h₅⟩ := setAll_spec changes (x.set c) _ hmod' hget'
    refine ⟨h₁, h₂, fun t ht => h₃ t ?_, fun t ht => h₄ t (List.mem_append_left _ ht), fun t ht => ?_⟩
    · rw [hlast]
      split
      · rfl
      · exact ht
    · rw [show setLast (c :: changes) last t = setLast changes _ t from rfl, h₅ t ht, hlast, if_neg]
      rintro rfl
      exact ht (h₄ _ (List.mem_append_right _ (List.mem_singleton_self _)))

theorem Instance.Inv.set {x : Instance} (h : x.Inv) (changes : List Change) : (x.set changes).Inv := by
  obtain ⟨hmod, hget, hmono, -, hsame⟩ := setAll_spec changes x.memory x.last h.modified h.memory
  refine ⟨hmod, fun snapshot hs t ht => ?_, hget, fun t value snapshot hv hlast => ?_⟩
  · rcases List.mem_append.mp hs with hs | hs
    · exact hmono t (h.own snapshot hs t ht)
    · exact hmod t (List.mem_singleton.mp hs ▸ ht)
  · rw [Instance.set, List.filter_append] at hlast
    by_cases ht : t ∈ (x.memory.setAll changes).modified
    · rw [List.filter_cons_of_pos (by simpa using ht), List.filter_nil, List.getLast?_append] at hlast
      obtain rfl := Option.some.inj hlast
      exact hget t value hv
    · rw [List.filter_cons_of_neg (by simpa using ht), List.filter_nil, List.append_nil] at hlast
      exact h.latest t value snapshot ((hsame t ht).symm.trans hv) hlast

/-- The first write of the queue is done. -/
theorem Instance.Inv.tail {x : Instance} {snapshot : Scoped} {queue : List Scoped} (h : x.Inv)
    (hq : x.queue = snapshot :: queue) (phase : Phase) : ({ x with queue, phase } : Instance).Inv := by
  refine ⟨h.modified, fun later hs => h.own later (hq ▸ List.mem_cons_of_mem _ hs), h.memory, ?_⟩
  intro t value later hv hlast
  refine h.latest t value later hv ?_
  rw [hq, List.filter_cons]
  split
  · have hne : queue.filter (t ∈ ·.modified) ≠ [] := by
      intro he
      rw [he] at hlast
      cases hlast
    rw [List.getLast?_cons_of_ne_nil hne]
    exact hlast
  · exact hlast

/-! ### The file -/

namespace Shared

variable {s s' : Shared ι}

/-- The invariant of the instances over their file. -/
structure Inv (s : Shared ι) : Prop where
  instances : ∀ i, (s.instances i).Inv
  lock : ∀ i, (s.instances i).phase.Holds → s.lock = some i
  /-- What an instance has read under its lock is what the file holds. -/
  current : ∀ i current, (s.instances i).phase = .read current → s.file = current
  /-- What one instance alone has set is in the file when it is not in the queue anymore. -/
  saved : ∀ i t value, (s.instances i).last t = some value → (s.instances i).queue.filter (t ∈ ·.modified) = [] →
    s.Sole i t → ∃ file, s.file = some file ∧ file.Migrated ∧ file.get t = value

theorem inv_start (file : Option Settings) (found : ι → Option Settings) : (start file found).Inv :=
  ⟨fun i => Instance.inv_create (found i), fun _ h => h.elim, fun _ _ h => (nomatch h), fun _ _ _ h => (nomatch h)⟩

variable [DecidableEq ι]

theorem withInstance_self (s : Shared ι) (i : ι) (x : Instance) : (s.withInstance i x).instances i = x :=
  Function.update_self ..

theorem withInstance_of_ne (s : Shared ι) {i j : ι} (x : Instance) (h : j ≠ i) :
    (s.withInstance i x).instances j = s.instances j :=
  Function.update_of_ne h ..

/-- An instance that has set no more and has as many writes to do leaves what is saved. -/
theorem Inv.saved_withInstance (h : s.Inv) {i : ι} {x : Instance} (hqueue : x.queue = (s.instances i).queue)
    (hlast : x.last = (s.instances i).last) {j : ι} {t : Target} {value : Option Json}
    (hv : ((s.withInstance i x).instances j).last t = some value)
    (hq : ((s.withInstance i x).instances j).queue.filter (t ∈ ·.modified) = [])
    (hsole : (s.withInstance i x).Sole j t) : ∃ file, s.file = some file ∧ file.Migrated ∧ file.get t = value := by
  have hsame : ∀ k, ((s.withInstance i x).instances k).queue = (s.instances k).queue ∧
      ((s.withInstance i x).instances k).last = (s.instances k).last := by
    intro k
    by_cases hk : k = i
    · rw [hk, withInstance_self]
      exact ⟨hqueue, hlast⟩
    · rw [withInstance_of_ne s x hk]
      exact ⟨rfl, rfl⟩
  rw [(hsame j).2] at hv
  rw [(hsame j).1] at hq
  refine h.saved j t value hv hq fun k hk => ?_
  rw [← (hsame k).2]
  exact hsole k hk

theorem Inv.set (h : s.Inv) (i : ι) (changes : List Change) (hidle : (s.instances i).phase = .idle) :
    (s.withInstance i ((s.instances i).set changes)).Inv := by
  obtain ⟨-, -, hmono, -, hsame⟩ := setAll_spec changes (s.instances i).memory (s.instances i).last
    (h.instances i).modified (h.instances i).memory
  have hphase : ∀ j, ((s.withInstance i ((s.instances i).set changes)).instances j).phase = (s.instances j).phase := by
    intro j
    by_cases hj : j = i
    · rw [hj, withInstance_self]
      rfl
    · rw [withInstance_of_ne s _ hj]
  refine ⟨fun j => ?_, fun j hj => ?_, fun j current hj => ?_, fun j t value hv hq hsole => ?_⟩
  · by_cases hj : j = i
    · rw [hj, withInstance_self]
      exact (h.instances i).set changes
    · rw [withInstance_of_ne s _ hj]
      exact h.instances j
  · rw [hphase] at hj
    exact h.lock j hj
  · rw [hphase] at hj
    exact h.current j current hj
  · by_cases hj : j = i
    · subst hj
      rw [withInstance_self] at hv hq
      rw [Instance.set, List.filter_append, List.append_eq_nil_iff] at hq
      have ht : t ∉ ((s.instances j).memory.setAll changes).modified := by
        intro ht
        simp [ht] at hq
      refine h.saved j t value ((hsame t ht).symm.trans hv) hq.1 fun k hk => ?_
      rw [← withInstance_of_ne s _ hk]
      exact hsole k hk
    · rw [withInstance_of_ne s _ hj] at hv hq
      refine h.saved j t value hv hq fun k hk => ?_
      by_cases hki : k = i
      · subst hki
        have hnone := hsole k hk
        rw [withInstance_self] at hnone
        by_contra hne
        have := hmono t (Option.isSome_iff_ne_none.mpr hne)
        rw [show setLast changes (s.instances k).last t = none from hnone] at this
        cases this
      · rw [← withInstance_of_ne s _ hki]
        exact hsole k hk

/-- A step of `withLock` but for the write: the instance goes on, and has the lock or not. -/
theorem Inv.phase (h : s.Inv) {i : ι} {x : Instance} (lock : Option ι) (hx : x.Inv)
    (hqueue : x.queue = (s.instances i).queue) (hlast : x.last = (s.instances i).last)
    (hself : x.phase.Holds → lock = some i)
    (hother : ∀ j, j ≠ i → (s.instances j).phase.Holds → lock = some j)
    (hcurrent : ∀ current, x.phase = .read current → s.file = current) :
    ({ s.withInstance i x with lock } : Shared ι).Inv := by
  refine ⟨fun j => ?_, fun j hj => ?_, fun j current hj => ?_, fun j t value hv hq hsole =>
    h.saved_withInstance hqueue hlast hv hq hsole⟩
  · change ((s.withInstance i x).instances j).Inv
    by_cases hji : j = i
    · rw [hji, withInstance_self]
      exact hx
    · rw [withInstance_of_ne s x hji]
      exact h.instances j
  · change ((s.withInstance i x).instances j).phase.Holds at hj
    by_cases hji : j = i
    · rw [hji, withInstance_self] at hj
      rw [hji]
      exact hself hj
    · rw [withInstance_of_ne s x hji] at hj
      exact hother j hji hj
  · change ((s.withInstance i x).instances j).phase = _ at hj
    by_cases hji : j = i
    · rw [hji, withInstance_self] at hj
      exact hcurrent current hj
    · rw [withInstance_of_ne s x hji] at hj
      exact h.current j current hj

theorem Inv.write (h : s.Inv) {i : ι} {snapshot : Scoped} {queue : List Scoped} {current : Option Settings}
    (hphase : (s.instances i).phase = .read current) (hq : (s.instances i).queue = snapshot :: queue) :
    ({ s.withInstance i { s.instances i with queue, phase := .written } with
        file := some (persistScopedSettings snapshot current) } : Shared ι).Inv := by
  have hlock : s.lock = some i := h.lock i (hphase ▸ trivial)
  have hfile : s.file = current := h.current i current hphase
  have halone : ∀ j, j ≠ i → ¬ (s.instances j).phase.Holds := by
    intro j hj hh
    exact hj (Option.some.inj ((h.lock j hh).symm.trans hlock))
  refine ⟨fun j => ?_, fun j hj => ?_, fun j current' hj => ?_, fun j t value hv hjq hsole => ?_⟩
  · change ((s.withInstance i _).instances j).Inv
    by_cases hji : j = i
    · rw [hji, withInstance_self]
      exact (h.instances i).tail hq .written
    · rw [withInstance_of_ne s _ hji]
      exact h.instances j
  · change ((s.withInstance i _).instances j).phase.Holds at hj
    by_cases hji : j = i
    · rw [hji]
      exact hlock
    · rw [withInstance_of_ne s _ hji] at hj
      exact absurd hj (halone j hji)
  · change ((s.withInstance i _).instances j).phase = _ at hj
    by_cases hji : j = i
    · rw [hji, withInstance_self] at hj
      cases hj
    · rw [withInstance_of_ne s _ hji] at hj
      exact absurd (hj ▸ trivial) (halone j hji)
  · change ((s.withInstance i _).instances j).last t = some value at hv
    change ((s.withInstance i _).instances j).queue.filter _ = [] at hjq
    have hlast : ∀ k, ((s.withInstance i { s.instances i with queue, phase := .written }).instances k).last =
        (s.instances k).last := by
      intro k
      by_cases hk : k = i
      · rw [hk, withInstance_self]
      · rw [withInstance_of_ne s _ hk]
    have hsole' : s.Sole j t := fun k hk => (congrFun (hlast k) t).symm.trans (hsole k hk)
    rw [hlast] at hv
    refine ⟨_, rfl, migrated_persistScopedSettings snapshot current, ?_⟩
    rw [get_persistScopedSettings]
    -- a target that is not written keeps what the file had
    have hkept : t ∉ snapshot.modified → (s.instances j).queue.filter (t ∈ ·.modified) = [] →
        (loadFromStorage current).get t = value := by
      intro _ hnone
      obtain ⟨file, hf, hmig, hget⟩ := h.saved j t value hv hnone hsole'
      rw [← hfile, hf]
      exact (congrArg (get · t) hmig.migrateSettings).trans hget
    by_cases hji : j = i
    · subst hji
      rw [withInstance_self] at hjq
      split
      · rename_i ht
        refine (h.instances j).latest t value snapshot hv ?_
        rw [hq, List.filter_cons_of_pos (by simpa using ht), hjq]
        rfl
      · rename_i ht
        refine hkept ht ?_
        rw [hq, List.filter_cons_of_neg (by simpa using ht)]
        exact hjq
    · rw [withInstance_of_ne s _ hji] at hjq
      have ht : t ∉ snapshot.modified := by
        intro ht
        have := (h.instances i).own snapshot (hq ▸ List.mem_cons_self) t ht
        rw [hsole' i (Ne.symm hji)] at this
        cases this
      rw [if_neg ht]
      exact hkept ht hjq

/-! ### Every run -/

/-- One step. -/
theorem Inv.step {input : SharedStep ι} (h : s.Inv) (habsent : s.StillAbsent input) (hs : s.step input = some s') :
    s'.Inv := by
  cases input with
  | set i changes =>
    simp only [Shared.step] at hs
    split at hs
    · rename_i hphase
      obtain rfl := Option.some.inj hs
      exact h.set i changes hphase
    · cases hs
  | check i =>
    simp only [Shared.step] at hs
    split at hs
    · obtain rfl := Option.some.inj hs
      obtain ⟨h₁, h₂, h₃, h₄⟩ := h.instances i
      exact h.phase s.lock ⟨h₁, h₂, h₃, h₄⟩ rfl rfl (fun hh => hh.elim) (fun j _ hh => h.lock j hh)
        (fun _ hc => nomatch hc)
    · cases hs
  | lock i =>
    simp only [Shared.step] at hs
    obtain ⟨h₁, h₂, h₃, h₄⟩ := h.instances i
    have hfree : s.lock = none → ∀ j, j ≠ i → (s.instances j).phase.Holds → some i = some j := by
      intro hl j _ hh
      rw [h.lock j hh] at hl
      cases hl
    split at hs
    · rename_i hl _
      obtain rfl := Option.some.inj hs
      exact h.phase (some i) ⟨h₁, h₂, h₃, h₄⟩ rfl rfl (fun _ => rfl) (hfree hl) (fun _ hc => nomatch hc)
    · rename_i hl hphase
      obtain rfl := Option.some.inj hs
      refine h.phase (some i) ⟨h₁, h₂, h₃, h₄⟩ rfl rfl (fun _ => rfl) (hfree hl) fun current hc => ?_
      rw [← Phase.read.inj hc]
      exact habsent hphase
    · cases hs
  | read i =>
    simp only [Shared.step] at hs
    split at hs
    · rename_i hphase
      obtain rfl := Option.some.inj hs
      obtain ⟨h₁, h₂, h₃, h₄⟩ := h.instances i
      exact h.phase s.lock ⟨h₁, h₂, h₃, h₄⟩ rfl rfl (fun _ => h.lock i (hphase ▸ trivial))
        (fun j _ hh => h.lock j hh) (fun _ hc => Phase.read.inj hc)
    · cases hs
  | write i =>
    simp only [Shared.step] at hs
    split at hs
    · rename_i hphase hq
      obtain rfl := Option.some.inj hs
      exact h.write hphase hq
    · cases hs
  | release i =>
    simp only [Shared.step] at hs
    split at hs
    · rename_i hphase
      obtain rfl := Option.some.inj hs
      obtain ⟨-, h₂, h₃, h₄⟩ := h.instances i
      refine h.phase none ⟨by simp [Scoped.clearModified], h₂, h₃, h₄⟩ rfl rfl (fun hh => hh.elim) (fun j hj hh => ?_)
        (fun _ hc => nomatch hc)
      exact absurd (Option.some.inj ((h.lock j hh).symm.trans (h.lock i (hphase ▸ trivial)))) hj
    · cases hs

/-- **In every run of instances over one file, whether it was there or not, in which no write that
found no file locks a file that was created meanwhile: when all writes are done the file has the
last value of every target that only one of them has set.** -/
theorem run_keepsUpdates (file : Option Settings) (found : ι → Option Settings) (steps : List (SharedStep ι))
    (s : Shared ι) (hrun : (start file found).run steps = some s)
    (habsent : Machine.Throughout step StillAbsent (start file found) steps) : s.KeepsUpdates := by
  have h : s.Inv := Machine.inv_throughout (fun _ _ _ h habsent hs => Inv.step h habsent hs) steps
    (inv_start file found) habsent hrun
  intro hdrained i t value hv hsole
  obtain ⟨file, hfile, -, hget⟩ := h.saved i t value hv (by rw [(hdrained i).1]; rfl) hsole
  exact ⟨file, hfile, hget⟩

/-- One after the other, two instances without a file set a theme and a model. -/
def oneByOne : List (SharedStep Bool) :=
  [.set true (setTheme "dark"), .set false (setDefaultModel "m"), .check true, .lock true, .write true, .release true,
    .check false, .lock false, .read false, .write false, .release false]

/-- Both values are in the file. -/
theorem run_keepsUpdates_oneByOne : ∃ s : Shared Bool, (start none fun _ => none).run oneByOne = some s ∧
    s.KeepsUpdates :=
  ⟨_, rfl, run_keepsUpdates none (fun _ => none) oneByOne _ rfl <|
    Machine.throughout_cons trivial rfl <| Machine.throughout_cons trivial rfl <| Machine.throughout_cons trivial rfl <|
    Machine.throughout_cons (fun _ => rfl) rfl <| Machine.throughout_cons trivial rfl <|
    Machine.throughout_cons trivial rfl <| Machine.throughout_cons trivial rfl <|
    Machine.throughout_cons (fun h => nomatch h) rfl <| Machine.throughout_cons trivial rfl <|
    Machine.throughout_cons trivial rfl <| Machine.throughout_cons trivial rfl trivial⟩

/-- Both look for the file before either has created it: the second write drops what the first wrote. -/
theorem run_not_keepsUpdates : ∃ (steps : List (SharedStep Bool)) (s : Shared Bool),
    (start none fun _ => none).run steps = some s ∧ ¬ s.KeepsUpdates := by
  refine ⟨[.set true (setTheme "dark"), .set false (setDefaultModel "m"), .check true, .check false, .lock true,
    .write true, .release true, .lock false, .write false, .release false], _, rfl, fun h => ?_⟩
  obtain ⟨file, hfile, hget⟩ := h
    (fun i => by
      cases i
      · exact ⟨rfl, rfl⟩
      · exact ⟨rfl, rfl⟩)
    true (.field "theme") (some (.str "dark")) rfl
    (fun i hi => by
      cases i
      · rfl
      · exact absurd rfl hi)
  obtain rfl := Option.some.inj hfile
  cases hget

end Shared

end Trek.Settings
