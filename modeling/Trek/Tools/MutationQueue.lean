/-
# One mutation of a file at a time

`withFileMutationQueue` keeps a queue for each file: the calls read their keys one after
the other, and an operation starts when the promise that the last one of its key left has
settled. The key is what `realpath` says when the call registers, or the path as it is
written when there is no such file yet. Two paths to one file have one key then, unless
the file is missing and a symbolic link leads to where it is created.
-/
import Trek.Lib.KeyedQueue
import Trek.Lib.FileSystem

namespace Trek.Tools

/-- `isMissingPathError`. -/
def isMissingPathError (e : Errno) : Bool := e = .ENOENT || e = .ENOTDIR

/-- `getMutationQueueKey`. -/
def getMutationQueueKey (fs : FileSystem) (cwd : Path) (filePath : String) : Except Errno Path :=
  let resolvedPath := resolve cwd filePath
  match realpath fs resolvedPath with
  | .ok p => .ok p
  | .error e => if isMissingPathError e then .ok resolvedPath else .error e

/-- The calls of `withFileMutationQueue` and the file system they work on. `registrationQueue`
has the calls whose registration is not over, `key` what the first of them got from
`getMutationQueueKey`. The map of `fileMutationQueue` is `fileMutationQueues`, and its tickets
are the calls that have registered: what a ticket waits for is its `currentQueue`, the promise
it leaves its `chainedQueue`. -/
structure Mutations where
  fs : FileSystem
  registrationQueue : List String
  key : Option Path
  fileMutationQueue : KeyedQueue Path String

/-- A step of the calls, of an operation or of anything else that changes files. -/
inductive MutationStep
  | call (filePath : String)
  | lookUp
  | register
  | start (i : ℕ)
  | finish (i : ℕ) (ok : Bool)
  | settle (i : ℕ)
  | change (fs : FileSystem)

namespace Mutations

/-- No call yet. -/
def new (fs : FileSystem) : Mutations := ⟨fs, [], none, .empty⟩

/-- `withFileMutationQueue`, step by step. -/
def step (cwd : Path) (s : Mutations) : MutationStep → Option Mutations
  | .call filePath => some { s with registrationQueue := s.registrationQueue ++ [filePath] }
  | .lookUp =>
    match s.registrationQueue, s.key with
    | filePath :: rest, none =>
      match getMutationQueueKey s.fs cwd filePath with
      | .ok key => some { s with key := some key }
      -- the registration rejects, and with it the call; the next registration goes on
      | .error _ => some { s with registrationQueue := rest }
    | _, _ => none
  | .register =>
    match s.registrationQueue, s.key with
    | filePath :: rest, some key =>
      some { s with
        registrationQueue := rest
        key := none
        fileMutationQueue := s.fileMutationQueue.register key filePath }
    | _, _ => none
  | .start i => (s.fileMutationQueue.start i).map ({ s with fileMutationQueue := · })
  | .finish i ok => (s.fileMutationQueue.finish i ok).map ({ s with fileMutationQueue := · })
  | .settle i => (s.fileMutationQueue.settle i).map ({ s with fileMutationQueue := · })
  | .change fs => some { s with fs }

/-- A run of the calls. -/
def run (cwd : Path) (s : Mutations) (steps : List MutationStep) : Option Mutations := steps.foldlM (step cwd) s

/-- The file that a call works on. -/
def fileOf (cwd : Path) (s : Mutations) (filePath : String) : Except Errno Path := location s.fs (resolve cwd filePath)

/-! ### What the queue is for -/

/-- The operations on one file exclude each other. -/
structure Serialized (cwd : Path) (s : Mutations) : Prop where
  /-- Two operations on one file do not overlap. -/
  exclusive : ∀ (i j : ℕ) (t u : Ticket Path String) (file : Path), i ≠ j →
    s.fileMutationQueue.tickets[i]? = some t → s.fileMutationQueue.tickets[j]? = some u →
    t.phase = .running → u.phase = .running → s.fileOf cwd t.owner = .ok file → s.fileOf cwd u.owner ≠ .ok file
  /-- While one runs those on its file that registered before it are over. -/
  inOrder : ∀ (i j : ℕ) (t u : Ticket Path String) (file : Path), i < j →
    s.fileMutationQueue.tickets[i]? = some t → s.fileMutationQueue.tickets[j]? = some u →
    u.phase = .running → s.fileOf cwd t.owner = .ok file → s.fileOf cwd u.owner = .ok file → t.isDone = true
  /-- One that has ended, well or badly, does not block the next. -/
  passes : ∀ (j : ℕ) (u : Ticket Path String), s.fileMutationQueue.tickets[j]? = some u → u.phase = .waiting →
    s.fileMutationQueue.ClearBefore j u.key → ∃ (is : List ℕ) (s' s'' : Mutations),
      s.run cwd (is.map .settle) = some s' ∧ s'.step cwd (.start j) = some s''
  /-- When all are over the map is empty. -/
  empties : (∀ t ∈ s.fileMutationQueue.tickets, t.isDone = true) → s.fileMutationQueue.tails.pairs = []

/-- A path of a call that has its key and is not over. -/
def InFlight (s : Mutations) (filePath : String) : Prop :=
  (s.key.isSome = true ∧ s.registrationQueue.head? = some filePath) ∨
    ∃ t ∈ s.fileMutationQueue.tickets, t.isDone = false ∧ t.owner = filePath

/-- A step before which a path to a file gives the file's key: a key is looked up for a file
that exists, or for a missing one that the path leads to without a symbolic link; and no file
is moved under a call in flight. -/
def Keeps (cwd : Path) (s : Mutations) : MutationStep → Prop
  | .lookUp => ∀ filePath, s.registrationQueue.head? = some filePath →
    (∃ p, realpath s.fs (resolve cwd filePath) = .ok p) ∨
      ∀ file, s.fileOf cwd filePath = .ok file → file = resolve cwd filePath
  | .change fs => ∀ filePath, s.InFlight filePath →
    ∀ file, location fs (resolve cwd filePath) = .ok file → s.fileOf cwd filePath = .ok file
  | _ => True

/-- Every step of a run is such a step. -/
def KeepsAll (cwd : Path) : Mutations → List MutationStep → Prop
  | _, [] => True
  | s, input :: steps => s.Keeps cwd input ∧ ∀ s', s.step cwd input = some s' → KeepsAll cwd s' steps

/-! ### The runs that keep the keys right -/

/-- The queue is sound, and a call in flight has the key of its file. -/
structure Keyed (cwd : Path) (s : Mutations) : Prop where
  sound : s.fileMutationQueue.Sound
  reading : s.key.isSome = true → s.registrationQueue ≠ []
  looked : ∀ filePath key, s.registrationQueue.head? = some filePath → s.key = some key →
    ∀ file, s.fileOf cwd filePath = .ok file → file = key
  inFlight : ∀ t ∈ s.fileMutationQueue.tickets, t.isDone = false →
    ∀ file, s.fileOf cwd t.owner = .ok file → file = t.key

theorem keyed_new (cwd : Path) (fs : FileSystem) : (new fs).Keyed cwd := by
  refine ⟨KeyedQueue.sound_empty, ?_, ?_, ?_⟩
  · intro h
    cases h
  · intro filePath key h
    cases h
  · intro t h
    cases h

/-- The key of a call that `Keeps` allows is its file. -/
theorem file_eq_key {fs : FileSystem} {cwd : Path} {filePath : String} {key file : Path}
    (hkey : getMutationQueueKey fs cwd filePath = .ok key)
    (hkeeps : (∃ p, realpath fs (resolve cwd filePath) = .ok p) ∨
      ∀ file, location fs (resolve cwd filePath) = .ok file → file = resolve cwd filePath)
    (hfile : location fs (resolve cwd filePath) = .ok file) : file = key := by
  unfold getMutationQueueKey at hkey
  simp only at hkey
  cases hreal : realpath fs (resolve cwd filePath) with
  | ok p =>
    rw [hreal] at hkey
    have hp := location_of_realpath hreal
    rw [hfile] at hp
    exact (Except.ok.inj hp).trans (Except.ok.inj hkey)
  | error e =>
    rw [hreal] at hkey
    simp only at hkey
    have hdirect := hkeeps.resolve_left (by rw [hreal]; rintro ⟨p, hp⟩; cases hp)
    split at hkey
    · exact (hdirect file hfile).trans (Except.ok.inj hkey)
    · cases hkey

/-- A change of the tickets that starts no call. -/
theorem Keyed.tickets {cwd : Path} {s : Mutations} (h : s.Keyed cwd) {q : KeyedQueue Path String} (hq : q.Sound)
    (hold : ∀ u ∈ q.tickets, u.isDone = false →
      ∃ v ∈ s.fileMutationQueue.tickets, v.isDone = false ∧ v.key = u.key ∧ v.owner = u.owner) :
    ({ s with fileMutationQueue := q } : Mutations).Keyed cwd := by
  refine ⟨hq, h.reading, h.looked, ?_⟩
  intro u hu hopen file hfile
  obtain ⟨v, hv, hvo, hkey, howner⟩ := hold u hu hopen
  rw [← hkey]
  refine h.inFlight v hv hvo file ?_
  rw [howner]
  exact hfile

theorem Keyed.step {cwd : Path} {s s' : Mutations} {input : MutationStep} (h : s.Keyed cwd) (hk : s.Keeps cwd input)
    (hs : s.step cwd input = some s') : s'.Keyed cwd := by
  cases input with
  | call filePath =>
    obtain rfl := Option.some.inj hs
    refine ⟨h.sound, fun _ => by simp, ?_, h.inFlight⟩
    intro p key hp hkey
    have hne := h.reading (by rw [hkey]; rfl)
    refine h.looked p key ?_ hkey
    rwa [List.head?_append_of_ne_nil _ hne] at hp
  | lookUp =>
    obtain ⟨fs, registrationQueue, key, q⟩ := s
    cases registrationQueue with
    | nil => cases hs
    | cons filePath rest =>
      cases key with
      | some key => cases hs
      | none =>
        simp only [Mutations.step] at hs
        cases hkey : getMutationQueueKey fs cwd filePath with
        | error e =>
          rw [hkey] at hs
          obtain rfl := Option.some.inj hs
          refine ⟨h.sound, (fun hsome => by cases hsome), ?_, h.inFlight⟩
          intro p key _ hnone
          cases hnone
        | ok key =>
          rw [hkey] at hs
          obtain rfl := Option.some.inj hs
          refine ⟨h.sound, fun _ => List.cons_ne_nil _ _, ?_, h.inFlight⟩
          intro p key' hp hkey' file hfile
          obtain rfl : filePath = p := Option.some.inj hp
          obtain rfl : key = key' := Option.some.inj hkey'
          exact file_eq_key hkey (hk filePath rfl) hfile
  | register =>
    obtain ⟨fs, registrationQueue, key, q⟩ := s
    cases registrationQueue with
    | nil => cases hs
    | cons filePath rest =>
      cases key with
      | none => cases hs
      | some key =>
        obtain rfl := Option.some.inj hs
        refine ⟨h.sound.register key filePath, (fun hsome => by cases hsome), (fun _ _ _ hnone => by cases hnone), ?_⟩
        intro u hu hopen file hfile
        rcases List.mem_append.mp hu with hu | hu
        · exact h.inFlight u hu hopen file hfile
        · obtain rfl := List.mem_singleton.mp hu
          exact h.looked filePath key rfl rfl file hfile
  | start i =>
    obtain ⟨q, hq, rfl⟩ := Option.map_eq_some_iff.mp hs
    obtain ⟨t, ht, hphase, -, rfl⟩ := KeyedQueue.start_eq_some.mp hq
    refine h.tickets (h.sound.start hq) fun u hu hopen => ?_
    refine KeyedQueue.mem_put ht ?_ ?_ ?_ hu hopen
    · rfl
    · rfl
    · intro hdone
      unfold Ticket.isDone at hdone
      rw [hphase] at hdone
      cases hdone
  | finish i ok =>
    obtain ⟨q, hq, rfl⟩ := Option.map_eq_some_iff.mp hs
    have hsound := h.sound.finish hq
    obtain ⟨t, ht, -, rfl⟩ := KeyedQueue.finish_cases hq
    refine h.tickets hsound fun u hu hopen => ?_
    have hu : u ∈ (s.fileMutationQueue.put i { t with phase := .done ok }).tickets := hu
    refine KeyedQueue.mem_put ht ?_ ?_ (fun _ => ?_) hu hopen
    · rfl
    · rfl
    · rfl
  | settle i =>
    obtain ⟨q, hq, rfl⟩ := Option.map_eq_some_iff.mp hs
    obtain ⟨t, ht, -, -, rfl⟩ := KeyedQueue.settle_eq_some.mp hq
    refine h.tickets (h.sound.settle hq) fun u hu hopen => ?_
    refine KeyedQueue.mem_put ht ?_ ?_ ?_ hu hopen
    · rfl
    · rfl
    · exact id
  | change fs =>
    obtain rfl := Option.some.inj hs
    refine ⟨h.sound, h.reading, ?_, ?_⟩
    · intro p key hp hkey file hfile
      exact h.looked p key hp hkey file (hk p (Or.inl ⟨by rw [hkey]; rfl, hp⟩) file hfile)
    · intro t ht hopen file hfile
      exact h.inFlight t ht hopen file (hk t.owner (Or.inr ⟨t, ht, hopen, rfl⟩) file hfile)

theorem run_cons {cwd : Path} {s : Mutations} {input : MutationStep} {steps : List MutationStep} :
    s.run cwd (input :: steps) = (s.step cwd input).bind (·.run cwd steps) := rfl

theorem Keyed.run {cwd : Path} : ∀ (steps : List MutationStep) {s s' : Mutations}, s.Keyed cwd → s.KeepsAll cwd steps →
    s.run cwd steps = some s' → s'.Keyed cwd
  | [], _, _, h, _, hs => by
    obtain rfl := Option.some.inj hs
    exact h
  | _ :: steps, _, _, h, hk, hs => by
    rw [run_cons] at hs
    obtain ⟨s₁, h₁, hs⟩ := Option.bind_eq_some_iff.mp hs
    exact Keyed.run steps (h.step hk.1 h₁) (hk.2 s₁ h₁) hs

/-- The promises that settle in the queue settle in a run. -/
theorem run_settleAll {cwd : Path} : ∀ (is : List ℕ) {s : Mutations} {q : KeyedQueue Path String},
    s.fileMutationQueue.settleAll is = some q → s.run cwd (is.map .settle) = some { s with fileMutationQueue := q }
  | [], _, _, h => by
    obtain rfl := Option.some.inj h
    rfl
  | i :: is, s, q, h => by
    obtain ⟨q', hq', h⟩ := Option.bind_eq_some_iff.mp h
    rw [List.map_cons, run_cons]
    have hstep : s.step cwd (.settle i) = some { s with fileMutationQueue := q' } := by
      unfold Mutations.step
      simp only
      rw [hq']
      rfl
    rw [hstep]
    exact run_settleAll is (s := { s with fileMutationQueue := q' }) h

/-- Calls with the keys of their files exclude each other. -/
theorem Keyed.serialized {cwd : Path} {s : Mutations} (h : s.Keyed cwd) : s.Serialized cwd := by
  have horder : ∀ (i j : ℕ) (t u : Ticket Path String) (file : Path), i < j →
      s.fileMutationQueue.tickets[i]? = some t → s.fileMutationQueue.tickets[j]? = some u →
      u.phase = .running → s.fileOf cwd t.owner = .ok file → s.fileOf cwd u.owner = .ok file → t.isDone = true := by
    intro i j t u file hij ht hu hrun htf huf
    by_contra hopen
    have hopen : t.isDone = false := by simpa using hopen
    have huo : u.isDone = false := by
      unfold Ticket.isDone
      rw [hrun]
    have htk := h.inFlight t (List.mem_of_getElem? ht) hopen file htf
    have huk := h.inFlight u (List.mem_of_getElem? hu) huo file huf
    have := h.sound.linked.done_of_running hij ht hu (htk.symm.trans huk) hrun
    rw [hopen] at this
    cases this
  refine ⟨?_, horder, ?_, h.sound.tailed.tails_eq_empty⟩
  · intro i j t u file hij ht hu htr hur htf huf
    have hrunning : ∀ v : Ticket Path String, v.phase = .running → v.isDone ≠ true := by
      intro v hv
      unfold Ticket.isDone
      rw [hv]
      exact Bool.false_ne_true
    rcases Nat.lt_or_gt_of_ne hij with hlt | hgt
    · exact hrunning t htr (horder i j t u file hlt ht hu hur htf huf)
    · exact hrunning u hur (horder j i u t file hgt hu ht htr huf htf)
  · intro j u hu hwaiting hclear
    obtain ⟨is, q', q'', hrun, hstart⟩ := h.sound.exists_start hu hwaiting hclear
    refine ⟨is, _, { s with fileMutationQueue := q'' }, run_settleAll is hrun, ?_⟩
    unfold Mutations.step
    simp only
    rw [hstart]
    rfl

/-- **The operations on one file exclude each other in every state of a run whose steps keep
the keys right**: whenever a key is looked up the file exists, or no symbolic link leads to
where it will be, and no file is moved under a call in flight. -/
theorem withFileMutationQueue_serialized (cwd : Path) (fs : FileSystem) (steps : List MutationStep) {s : Mutations}
    (hrun : (new fs).run cwd steps = some s) (hkeeps : (new fs).KeepsAll cwd steps) : s.Serialized cwd :=
  ((keyed_new cwd fs).run steps hkeeps hrun).serialized

/-- A directory, and a symbolic link to it. -/
def linkedDirectory : FileSystem := fun p =>
  if p = ["real"] then some .directory
  else if p = ["link"] then some (.symlink "real")
  else none

/-- One call creates a file through the link, and another call comes for the same path. -/
def overlappingCalls : List MutationStep :=
  [.call "/link/f", .lookUp, .register, .start 0, .change (linkedDirectory.create ["real", "f"]),
    .call "/link/f", .lookUp, .register, .start 1]

/-- A call for a file in the directory that exists. -/
theorem withFileMutationQueue_serialized_existing : ∃ s,
    (new (linkedDirectory.create ["real", "f"])).run [] [.call "/link/f", .lookUp, .register, .start 0] = some s ∧
      s.Serialized [] := by
  obtain ⟨s, hs⟩ : ∃ s, (new (linkedDirectory.create ["real", "f"])).run []
      [.call "/link/f", .lookUp, .register, .start 0] = some s :=
    Option.isSome_iff_exists.mp (by decide +kernel)
  refine ⟨s, hs, withFileMutationQueue_serialized [] _ _ hs ⟨trivial, fun s₁ h₁ => ⟨fun p hp => ?_, fun _ _ =>
    ⟨trivial, fun _ _ => ⟨trivial, fun _ _ => trivial⟩⟩⟩⟩⟩
  obtain rfl := Option.some.inj h₁
  obtain rfl : "/link/f" = p := Option.some.inj hp
  have hreal : realpath (linkedDirectory.create ["real", "f"]) (resolve [] "/link/f") = .ok ["real", "f"] := by
    decide +kernel
  exact Or.inl ⟨_, hreal⟩

/-- Two operations on one file overlap: the first call gets the path through the link as its
key, since the file is missing, and the second one the path of the file that the first has
created. -/
theorem withFileMutationQueue_overlaps :
    ∃ s, (new linkedDirectory).run [] overlappingCalls = some s ∧ ¬s.Serialized [] := by
  have h : ((new linkedDirectory).run [] overlappingCalls).map (fun s =>
      (s.fileMutationQueue.tickets.map fun t => (t.phase, t.owner), s.fileOf [] "/link/f")) =
      some ([(.running, "/link/f"), (.running, "/link/f")], .ok ["real", "f"]) := by decide +kernel
  obtain ⟨s, hs, hfacts⟩ := Option.map_eq_some_iff.mp h
  obtain ⟨htickets, hfile⟩ := Prod.mk.inj hfacts
  obtain ⟨t, rest, hts, ht, hrest⟩ := List.map_eq_cons_iff.mp htickets
  obtain ⟨u, rest', hus, hu, -⟩ := List.map_eq_cons_iff.mp hrest
  obtain ⟨htphase, htowner⟩ := Prod.mk.inj ht
  obtain ⟨huphase, huowner⟩ := Prod.mk.inj hu
  refine ⟨s, hs, fun hserialized => ?_⟩
  refine hserialized.exclusive 0 1 t u ["real", "f"] (by decide) ?_ ?_ htphase huphase ?_ ?_
  · rw [hts]
    rfl
  · rw [hts, hus]
    rfl
  · rw [htowner]
    exact hfile
  · rw [huowner]
    exact hfile

end Mutations

end Trek.Tools
