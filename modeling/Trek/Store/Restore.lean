/-
# Going back to before a prompt

Runs of a session that records its writes, edits, deletions and renamings in the
version store: `beforeToolCall` captures the paths of a call, the call changes
files, and `afterToolCall` records it (`_recordTrekVersion` of
`core/agent-session.ts`). `restoreToPrompt` gives a path back what it was unless
a renaming put a file there: a renaming is recorded under its source only, with
the source's content, so what its target was is not written back.
-/
import Trek.Store.Log
import Trek.Store.PathOps
import Mathlib.Data.List.TakeWhile

namespace Trek

open EditCheckpointManager

/-- What a successful call does to project files: `write` and `edit` give one a
content, `rm` and `unlink` delete, `mv` renames, to `none` where the target is not
in the project. Paths are those `toRelPath` gives. -/
inductive FileOp
  | write (path content : String)
  | delete (path : String)
  | rename (source : String) (target : Option String)
  deriving DecidableEq

namespace FileOp

/-- The path an operation is recorded under. -/
def path : FileOp → String
  | write p _ | delete p | rename p _ => p

/-- Where it moves the file. -/
def movedTo : FileOp → Option String
  | rename _ t => t
  | _ => none

/-- `_pathsToCapture`. -/
def paths (op : FileOp) : List String := op.path :: op.movedTo.toList

/-- The files afterwards. -/
def apply (d : Files) : FileOp → Files
  | write p content => d.write p content
  | delete p => d.remove p
  | rename p none => d.remove p
  | rename p (some t) => Function.update (d.remove p) t (d p)

/-- The paths are project paths and a file is not moved onto itself. -/
def Valid (op : FileOp) : Prop := (∀ p ∈ op.paths, validRelPath p = true) ∧ op.movedTo ≠ some op.path

end FileOp

/-- The checkpoints, the version store and the project files. -/
structure TrekWorld where
  manager : EditCheckpointManager
  store : TrekStore
  files : Files

/-- The steps of the calls, each with its prompt. -/
inductive TrekEvent
  /-- `_captureEditCheckpoint` of one path. -/
  | capture (promptNumber : ℤ) (promptId path : String)
  /-- A call changes files. -/
  | exec (promptNumber : ℤ) (op : FileOp)
  /-- `_recordTrekVersion`. -/
  | record (promptNumber : ℤ) (promptId : String) (op : FileOp)
  deriving DecidableEq

/-- The prompt of a step. -/
def TrekEvent.prompt : TrekEvent → ℤ
  | capture n _ _ | exec n _ | record n _ _ => n

namespace TrekWorld

/-- `kind` in `_recordTrekVersion`. -/
def versionKind (before : PreImage) (after : Option String) : FileOp → VersionKind
  | .write _ _ => if before = .absent then .create else if after = none then .delete else .edit
  | .delete _ => .delete
  | .rename _ _ => .rename

/-- `_recordTrekVersion`. -/
def recordTrekVersion (w : TrekWorld) (n : ℤ) (promptId : String) (op : FileOp) : TrekStore :=
  match w.manager.getPreImage n op.path with
  | none => w.store
  | some before => (w.store.record
    { promptNumber := n
      promptId := promptId
      stepId := some (promptId ++ ":" ++ op.path)
      relPath := op.path
      kind := versionKind before (w.files op.path) op
      before := before
      toRelPath := op.movedTo }).1

/-- One step. -/
def step (w : TrekWorld) : TrekEvent → TrekWorld
  | .capture n id path => { w with manager := (w.manager.capture n id path (.ok (w.files path))).2 }
  | .exec _ op => { w with files := op.apply w.files }
  | .record n id op => { w with store := w.recordTrekVersion n id op }

/-- A run. -/
def run (w : TrekWorld) (es : List TrekEvent) : TrekWorld := es.foldl step w

theorem run_append (w : TrekWorld) (es es' : List TrekEvent) : w.run (es ++ es') = (w.run es).run es' :=
  List.foldl_append

@[simp] theorem run_snoc (w : TrekWorld) (es : List TrekEvent) (x : TrekEvent) :
    w.run (es ++ [x]) = (w.run es).step x := by
  rw [run_append]
  rfl

/-- Nothing captured or recorded yet. -/
def start (d : Files) : TrekWorld := ⟨⟨[]⟩, .new, d⟩

end TrekWorld

open TrekWorld

/-- Prompts come in their order, a call captures its paths before it changes them
and is recorded after it has. -/
structure InOrder (es : List TrekEvent) : Prop where
  ordered : (es.map TrekEvent.prompt).Pairwise (· ≤ ·)
  captured : ∀ es₁ n (op : FileOp) es₂, es = es₁ ++ TrekEvent.exec n op :: es₂ →
    ∀ p ∈ op.paths, ∃ id, TrekEvent.capture n id p ∈ es₁
  executed : ∀ es₁ n id op es₂, es = es₁ ++ TrekEvent.record n id op :: es₂ → .exec n op ∈ es₁
  valid : ∀ n op, .exec n op ∈ es → op.Valid

/-- Besides, every call is recorded. -/
structure Tracked (es : List TrekEvent) : Prop extends InOrder es where
  recorded : ∀ n op, .exec n op ∈ es → ∃ id, .record n id op ∈ es

/-- The steps of one call: its paths are captured, it changes the files and it is
recorded. -/
def TrekEvent.ofCall (n : ℤ) (id : String) (op : FileOp) : List TrekEvent :=
  op.paths.map (TrekEvent.capture n id) ++ [TrekEvent.exec n op, .record n id op]

theorem append_eq_split {α : Type*} {l l' a b : List α} {x : α} (h : l ++ l' = a ++ x :: b) :
    (∃ b', l = a ++ x :: b') ∨ ∃ a', a = l ++ a' ∧ l' = a' ++ x :: b := by
  rcases List.append_eq_append_iff.mp h with ⟨a', ha, hl⟩ | ⟨b', hl, hb⟩
  · exact Or.inr ⟨a', ha, hl⟩
  · cases b' with
    | nil => exact Or.inr ⟨[], by simpa using hl.symm, by simpa using hb.symm⟩
    | cons y b' =>
      obtain ⟨rfl, -⟩ := List.cons.inj hb
      exact Or.inl ⟨b', hl⟩

theorem Tracked.append {es es' : List TrekEvent} (h : Tracked es) (h' : Tracked es')
    (hle : ∀ e ∈ es, ∀ e' ∈ es', e.prompt ≤ e'.prompt) : Tracked (es ++ es') := by
  refine ⟨⟨?_, fun es₁ n op es₂ he p hp => ?_, fun es₁ n id op es₂ he => ?_, fun n op he => ?_⟩,
    fun n op he => ?_⟩
  · rw [List.map_append]
    refine List.pairwise_append.mpr ⟨h.ordered, h'.ordered, fun a ha b hb => ?_⟩
    obtain ⟨e, he, rfl⟩ := List.mem_map.mp ha
    obtain ⟨e', he', rfl⟩ := List.mem_map.mp hb
    exact hle e he e' he'
  · rcases append_eq_split he with ⟨b', hb⟩ | ⟨a', rfl, ha⟩
    · exact h.captured es₁ n op b' hb p hp
    · exact (h'.captured a' n op es₂ ha p hp).imp fun id hid => List.mem_append_right _ hid
  · rcases append_eq_split he with ⟨b', hb⟩ | ⟨a', rfl, ha⟩
    · exact h.executed es₁ n id op b' hb
    · exact List.mem_append_right _ (h'.executed a' n id op es₂ ha)
  · exact (List.mem_append.mp he).elim (h.valid n op) (h'.valid n op)
  · rcases List.mem_append.mp he with he | he
    · exact (h.recorded n op he).imp fun id hid => List.mem_append_left _ hid
    · exact (h'.recorded n op he).imp fun id hid => List.mem_append_right _ hid

/-- What a recorded call did: it changed a path, and perhaps moved it. -/
structure PathChange where
  promptNumber : ℤ
  path : String
  movedTo : Option String
  deriving DecidableEq

/-- The recorded changes. -/
def TrekEvent.changes : TrekEvent → List PathChange
  | record n _ op => [⟨n, op.path, op.movedTo⟩]
  | _ => []

section Runs

variable {w : TrekWorld} {es : List TrekEvent} {n m : ℤ} {p : String}

theorem InOrder.of_snoc {x : TrekEvent} (h : InOrder (es ++ [x])) : InOrder es := by
  refine ⟨?_, fun es₁ n op es₂ he => h.captured es₁ n op (es₂ ++ [x]) (by rw [he]; simp),
    fun es₁ n id op es₂ he => h.executed es₁ n id op (es₂ ++ [x]) (by rw [he]; simp),
    fun n op hmem => h.valid n op (List.mem_append_left _ hmem)⟩
  have := h.ordered
  rw [List.map_append] at this
  exact (List.pairwise_append.mp this).1

end Runs

/-! ### The pre-images and the log -/

section Invariants

variable {d : Files} {es : List TrekEvent} {n m : ℤ} {p : String}

/-- What an artifact says was done. -/
def VersionArtifact.change (a : VersionArtifact) : PathChange := ⟨a.promptNumber, a.path, TrekStore.renameTarget a⟩

end Invariants

end Trek
