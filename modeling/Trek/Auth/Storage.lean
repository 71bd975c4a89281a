/-
# Stored credentials

`AuthStorage` (`core/auth-storage.ts`) keeps credentials by provider in memory and in `auth.json`,
through `FileAuthStorageBackend`: a synchronous path that blocks its process while it waits for the
lock of the file, and an asynchronous one, on which an expired token is refreshed. Any number of
instances in any number of processes share the file. A call goes on by steps, and a step of one call may
come between any two of another, except where the other blocks the process.

The lock lets one call in at a time and is not compromised, the file is a plain path with readable JSON,
and refreshes succeed. What `getApiKey` returns is not modelled.
-/
import Trek.Lib.OrdMap
import Trek.Lib.Separated

namespace Trek.AuthStorage

/-! ### Credentials -/

/-- `OAuthCredentials`. -/
structure OAuthCredentials where
  access : String
  refresh : String
  expires : ℕ
  deriving DecidableEq

/-- `AuthCredential`. -/
inductive AuthCredential
  | apiKey (key : String)
  | oauth (credentials : OAuthCredentials)
  deriving DecidableEq

/-- `AuthStorageData`. -/
abbrev AuthStorageData := OrdMap String AuthCredential

/-- The data with the credential of a provider, or without one. -/
def merge (currentData : AuthStorageData) (provider : String) : Option AuthCredential → AuthStorageData
  | some credential => currentData.set provider credential
  | none => currentData.delete provider

theorem get?_merge (data : AuthStorageData) (provider p : String) (credential : Option AuthCredential) :
    (merge data provider credential).get? p = if p = provider then credential else data.get? p := by
  cases credential with
  | none => exact OrdMap.get?_delete data provider p
  | some credential => exact OrdMap.get?_set data provider p credential

/-! ### Calls -/

/-- What a call does under the synchronous lock. -/
inductive Work
  | reload
  | change (provider : String) (credential : Option AuthCredential)
  deriving DecidableEq

/-- What a call does next: first `withLock`, then `withLockAsync`. -/
inductive Stage
  | ensureFile (work : Work)
  | createFile (work : Work)
  | acquire (work : Work) (attempt : ℕ)
  | read (work : Work)
  | write (provider : String) (credential : Option AuthCredential) (next : AuthStorageData)
  | release (content : Option AuthStorageData)
  | ensureFileAsync (provider : String)
  | createFileAsync (provider : String)
  | acquireAsync (provider : String) (attempt : ℕ)
  | readAsync (provider : String)
  | refresh (provider : String) (currentData : AuthStorageData)
  | writeAsync (provider : String) (credentials : OAuthCredentials) (next : AuthStorageData)
  | releaseAsync
  deriving DecidableEq

/-- No other code of the process runs before the call has gone on. -/
def Stage.blocks : Stage → Bool
  | .ensureFile _ | .createFile _ | .acquire _ _ | .read _ | .write _ _ _ | .release _ => true
  | .ensureFileAsync _ | .createFileAsync _ => true
  | _ => false

/-- A call of an instance that has not returned. -/
structure Call where
  inst : ℕ
  stage : Stage
  deriving DecidableEq

/-- An `AuthStorage`. -/
structure Instance where
  data : AuthStorageData
  loadError : Bool
  deriving DecidableEq

/-- What happened to the credential of a provider: an instance changed it, or began to refresh it. -/
inductive Event
  | changed (inst : ℕ) (provider : String) (credential : Option AuthCredential)
  | refreshing (inst : ℕ) (provider : String)
  deriving DecidableEq

/-- The file, the call that has its lock, the instances, the time, the calls and what happened. -/
structure World where
  file : Option AuthStorageData
  lock : Option ℕ
  instances : OrdMap ℕ Instance
  now : ℕ
  calls : OrdMap ℕ Call
  log : List Event
  deriving DecidableEq

/-- The start, with or without a file. -/
def World.new (file : Option AuthStorageData) : World := ⟨file, none, .empty, 0, .empty, []⟩

/-- What the file holds, as `parseStorageData` reads it. -/
def World.current (s : World) : AuthStorageData := s.file.getD .empty

/-- What a step of a call leaves: it has returned if there is no next stage. -/
structure Outcome where
  file : Option AuthStorageData
  lock : Option ℕ
  own : Instance
  event : Option Event
  next : Option Stage

/-- The call goes on and nothing changes. -/
def World.goOn (s : World) (i : Instance) (next : Stage) : Outcome := ⟨s.file, s.lock, i, none, some next⟩

/-- The call returns and nothing changes. -/
def World.done (s : World) (i : Instance) : Outcome := ⟨s.file, s.lock, i, none, none⟩

/-- The world after a step of a call. -/
def World.apply (s : World) (id inst : ℕ) (o : Outcome) : World where
  file := o.file
  lock := o.lock
  instances := s.instances.set inst o.own
  now := s.now
  calls := match o.next with
    | some stage => s.calls.set id ⟨inst, stage⟩
    | none => s.calls.delete id
  log := s.log ++ o.event.toList

/-- `maxAttempts`. -/
def maxAttempts : ℕ := 10

/-- The attempt after `retries: 10` retries. -/
def maxAttemptsAsync : ℕ := 11

/-- `acquireLockSyncWithRetry` throws: `reload` keeps a load error, a change is only in memory. -/
def World.giveUp (s : World) (inst : ℕ) (i : Instance) : Work → Outcome
  | .reload => s.done { i with loadError := true }
  | .change provider credential => { s.done i with event := some (.changed inst provider credential) }

/-- A step of a call. -/
def World.advance (s : World) (id inst : ℕ) (i : Instance) (newCredentials : OAuthCredentials) : Stage → Outcome
  | .ensureFile work => s.goOn i (if s.file.isSome then .acquire work 1 else .createFile work)
  | .createFile work => { s.goOn i (.acquire work 1) with file := some .empty }
  | .acquire work attempt =>
    if s.lock = none then { s.goOn i (.read work) with lock := some id }
    else if attempt = maxAttempts then s.giveUp inst i work
    else s.goOn i (.acquire work (attempt + 1))
  | .read .reload => s.goOn i (.release (some s.current))
  | .read (.change provider credential) => s.goOn i (.write provider credential (merge s.current provider credential))
  | .write provider credential next =>
    { s.goOn i (.release none) with file := some next, event := some (.changed inst provider credential) }
  | .release none => { s.done i with lock := none }
  -- `reload` replaces the data when the lock is released
  | .release (some content) => { s.done ⟨content, false⟩ with lock := none }
  | .ensureFileAsync provider =>
    s.goOn i (if s.file.isSome then .acquireAsync provider 1 else .createFileAsync provider)
  | .createFileAsync provider => { s.goOn i (.acquireAsync provider 1) with file := some .empty }
  | .acquireAsync provider attempt =>
    if s.lock = none then { s.goOn i (.readAsync provider) with lock := some id }
    -- `getApiKey` reloads where the refresh throws
    else if attempt = maxAttemptsAsync then s.goOn i (.ensureFile .reload)
    else s.goOn i (.acquireAsync provider (attempt + 1))
  | .readAsync provider =>
    match s.current.get? provider with
    | some (.oauth credentials) =>
      if s.now < credentials.expires then s.goOn ⟨s.current, false⟩ .releaseAsync
      else { s.goOn ⟨s.current, false⟩ (.refresh provider s.current) with event := some (.refreshing inst provider) }
    | _ => s.goOn ⟨s.current, false⟩ .releaseAsync
  | .refresh provider currentData =>
    let merged := merge currentData provider (some (.oauth newCredentials))
    s.goOn ⟨merged, false⟩ (.writeAsync provider newCredentials merged)
  | .writeAsync provider credentials next =>
    { s.goOn i .releaseAsync with
      file := some next, event := some (.changed inst provider (some (.oauth credentials))) }
  | .releaseAsync => { s.done i with lock := none }

/-- `set`, `remove` and `logout`. -/
def World.persistProviderChange (s : World) (inst : ℕ) (i : Instance) (provider : String)
    (credential : Option AuthCredential) : Outcome :=
  let i := { i with data := merge i.data provider credential }
  if i.loadError then { s.done i with event := some (.changed inst provider credential) }
  else s.goOn i (.ensureFile (.change provider credential))

/-- `getApiKey`; `known` is whether the provider has OAuth. -/
def World.getApiKey (s : World) (known : String → Bool) (i : Instance) (provider : String) : Outcome :=
  match i.data.get? provider with
  | some (.oauth credentials) =>
    if known provider && decide (credentials.expires ≤ s.now) then s.goOn i (.ensureFileAsync provider) else s.done i
  | _ => s.done i

/-- A method of `AuthStorage`; `create` is the constructor. -/
inductive Method
  | create
  | reload
  | change (provider : String) (credential : Option AuthCredential)
  | getApiKey (provider : String)
  deriving DecidableEq

/-- A call begins. -/
def World.begin (s : World) (known : String → Bool) (inst : ℕ) : Method → Option Instance → Option Outcome
  | .create, none => some (s.goOn ⟨.empty, false⟩ (.ensureFile .reload))
  | .reload, some i => some (s.goOn i (.ensureFile .reload))
  | .change provider credential, some i => some (s.persistProviderChange inst i provider credential)
  | .getApiKey provider, some i => some (s.getApiKey known i provider)
  | _, _ => none

/-- A step of the world: a call begins, a call goes on (with new credentials where it refreshed), or time
passes. -/
inductive Step
  | begin (id inst : ℕ) (method : Method)
  | goOn (id : ℕ) (newCredentials : OAuthCredentials)
  | tick (ms : ℕ)
  deriving DecidableEq

/-- Another call blocks the process of an instance. -/
def World.blocked (s : World) (process : ℕ → ℕ) (id inst : ℕ) : Bool :=
  s.calls.pairs.any fun c => decide (c.1 ≠ id) && decide (process c.2.inst = process inst) && c.2.stage.blocks

/-- The steps of the world; `process` is the process of an instance. -/
def step (process : ℕ → ℕ) (known : String → Bool) (s : World) : Step → Option World
  | .begin id inst method =>
    if s.calls.has id || s.blocked process id inst then none
    else (s.begin known inst method (s.instances.get? inst)).map (s.apply id inst)
  | .goOn id newCredentials => do
    let call ← s.calls.get? id
    let i ← s.instances.get? call.inst
    if s.blocked process id call.inst then none
    else some (s.apply id call.inst (s.advance id call.inst i newCredentials call.stage))
  | .tick ms => some { s with now := s.now + ms }

/-! ### Steps -/

@[simp] theorem World.apply_lock (s : World) (id inst : ℕ) (o : Outcome) : (s.apply id inst o).lock = o.lock := rfl

@[simp] theorem World.apply_log (s : World) (id inst : ℕ) (o : Outcome) :
    (s.apply id inst o).log = s.log ++ o.event.toList := rfl

@[simp] theorem World.apply_current (s : World) (id inst : ℕ) (o : Outcome) :
    (s.apply id inst o).current = o.file.getD .empty := rfl

theorem World.get?_instances_apply (s : World) (id inst inst' : ℕ) (o : Outcome) :
    (s.apply id inst o).instances.get? inst' = if inst' = inst then some o.own else s.instances.get? inst' :=
  OrdMap.get?_set s.instances inst inst' o.own

theorem World.get?_calls_apply (s : World) (id inst id' : ℕ) (o : Outcome) :
    (s.apply id inst o).calls.get? id' = if id' = id then o.next.map (Call.mk inst) else s.calls.get? id' := by
  rw [World.apply]
  cases o.next with
  | none => exact OrdMap.get?_delete s.calls id id'
  | some stage => exact OrdMap.get?_set s.calls id id' ⟨inst, stage⟩

end Trek.AuthStorage
