/-
# Appending to a harness session at once

The append operations of `Session` (`harness/session/session.ts`): each awaits a
new id, then the leaf, then the storage's append. Nothing keeps two of them
apart. An append that has been overtaken writes an entry under a leaf that is
the leaf no more, and one that drew its id while another with the same id was on
its way writes a second entry of that id, perhaps under itself.
-/
import Trek.Harness.Storage
import Trek.Lib.Interleave

namespace Trek

/-- The append operations, by their arguments. -/
inductive SessionAppend
  | message (message : AgentMessage)
  | thinkingLevelChange (thinkingLevel : String)
  | modelChange (provider modelId : String)
  | activeToolsChange (activeToolNames : List String)
  | compaction (summary firstKeptEntryId : String) (tokensBefore : ℕ) (details : Option Json)
      (fromHook : Option Bool)
  | customEntry (customType : String) (data : Option Json)
  | customMessageEntry (customType : String) (content : UserContent) (display : Bool) (details : Option Json)
  | label (targetId : String) (label : Option String)
  | sessionName (name : String)
  deriving DecidableEq

/-- What the operation puts into its entry. -/
def SessionAppend.body : SessionAppend → TreeBody
  | message m => .message m
  | thinkingLevelChange l => .thinkingLevelChange l
  | modelChange provider modelId => .modelChange provider modelId
  | activeToolsChange names => .activeToolsChange names
  | compaction summary firstKeptEntryId tokensBefore details fromHook =>
    .compaction summary firstKeptEntryId tokensBefore details fromHook
  | customEntry customType data => .custom customType data
  | customMessageEntry customType content display details => .customMessage customType content details display
  | label targetId text => .label targetId text
  | sessionName name => .sessionInfo (some (jsTrim name))

/-- An operation with what it reads from outside: the time, the clock readings and
random bytes of its `createEntryId`, and whether its write to the file fails. -/
structure AppendOp where
  append : SessionAppend
  timestamp : String
  draws : ℕ → UuidDraw
  fileFails : Bool

/-- `InMemorySessionStorage` or `JsonlSessionStorage`. -/
inductive StorageKind
  | memory | jsonl
  deriving DecidableEq

/-- What an append operation awaits. -/
inductive AppendStep
  /-- `getEntry(targetId)` in `appendLabel`. -/
  | checkTarget
  | createEntryId
  | getLeafId
  /-- `fs.appendFile` in `appendEntry` of `JsonlSessionStorage`. -/
  | appendFile
  /-- `appendEntry`, the part in memory. -/
  | appendEntry
  deriving DecidableEq

/-- The steps of an operation, in order. -/
def AppendOp.steps (kind : StorageKind) (op : AppendOp) : List AppendStep :=
  (match op.append with
    | .label _ _ => [AppendStep.checkTarget]
    | _ => []) ++
  [AppendStep.createEntryId, .getLeafId] ++ (if kind = .jsonl then [AppendStep.appendFile] else []) ++ [AppendStep.appendEntry]

/-- What an operation has got so far. -/
structure AppendCall where
  id : Option String
  parentId : Option (Option String)
  thrown : Option SessionError

/-- The storage, its file, the state of `uuidv7` and of the operations. -/
structure SessionWorld where
  storage : TreeStorage
  file : List TreeEntry
  uuids : UuidState
  calls : ℕ → AppendCall

namespace SessionWorld

/-- The entry an operation appends, once it has its id and its parent. -/
def pending (ops : List AppendOp) (w : SessionWorld) (i : ℕ) : Option TreeEntry :=
  match ops[i]?, (w.calls i).id, (w.calls i).parentId, (w.calls i).thrown with
  | some op, some id, some parentId, none => some ⟨id, parentId, op.timestamp, op.append.body⟩
  | _, _, _, _ => none

/-- The operation ends with an error. -/
def throw (w : SessionWorld) (i : ℕ) (error : SessionError) : SessionWorld :=
  { w with calls := Function.update w.calls i { w.calls i with thrown := some error } }

/-- One step of an operation that has not thrown. -/
def stepOf (ops : List AppendOp) (w : SessionWorld) (i : ℕ) (op : AppendOp) : AppendStep → SessionWorld
  | .checkTarget =>
    match op.append with
    | .label targetId _ =>
      if w.storage.byId.has targetId then w else w.throw i ⟨.notFound, "Entry " ++ targetId ++ " not found"⟩
    | _ => w
  | .createEntryId =>
    let (id, uuids) := generateEntryId w.storage.byId.has op.draws w.uuids
    { w with uuids := uuids, calls := Function.update w.calls i { w.calls i with id := some id } }
  | .getLeafId =>
    match w.storage.getLeafId with
    | .ok leafId => { w with calls := Function.update w.calls i { w.calls i with parentId := some leafId } }
    | .error error => w.throw i error
  | .appendFile =>
    match w.pending ops i with
    | some e =>
      if op.fileFails then w.throw i ⟨.storage, "Failed to append session entry " ++ e.id⟩
      else { w with file := w.file ++ [e] }
    | none => w
  | .appendEntry =>
    match w.pending ops i with
    | some e => { w with storage := w.storage.appendEntry e }
    | none => w

/-- One step of an operation. -/
def step (ops : List AppendOp) (w : SessionWorld) (x : ℕ × AppendStep) : SessionWorld :=
  match ops[x.1]? with
  | some op => if (w.calls x.1).thrown.isSome then w else w.stepOf ops x.1 op x.2
  | none => w

/-- Steps of the operations. -/
def run (ops : List AppendOp) (w : SessionWorld) (t : List (ℕ × AppendStep)) : SessionWorld :=
  t.foldl (step ops) w

@[simp] theorem run_snoc (ops : List AppendOp) (w : SessionWorld) (t : List (ℕ × AppendStep)) (x : ℕ × AppendStep) :
    w.run ops (t ++ [x]) = (w.run ops t).step ops x := by
  rw [run, List.foldl_append]
  rfl

theorem run_append_cons (ops : List AppendOp) (w : SessionWorld) (t₁ t₂ : List (ℕ × AppendStep))
    (x : ℕ × AppendStep) : w.run ops (t₁ ++ x :: t₂) = ((w.run ops t₁).step ops x).run ops t₂ := by
  rw [run, List.foldl_append, List.foldl_cons]
  rfl

/-- No operation has begun. -/
def start (s : TreeStorage) (uuids : UuidState) : SessionWorld := ⟨s, [], uuids, fun _ => ⟨none, none, none⟩⟩

end SessionWorld

open SessionWorld

/-- The steps of the operations under a schedule. -/
def appendTrace (kind : StorageKind) (schedule : List ℕ) (ops : List AppendOp) : List (ℕ × AppendStep) :=
  interleave schedule (ops.zipIdx.map fun o => (o.1.steps kind).map fun s => (o.2, s))

/-- The storage when all operations have ended. -/
def appendAll (kind : StorageKind) (schedule : List ℕ) (ops : List AppendOp) (s : TreeStorage) (uuids : UuidState) :
    TreeStorage :=
  ((start s uuids).run ops (appendTrace kind schedule ops)).storage

/-- The session tree is still one after appends to `s`, and they are on the path to
its leaf. -/
structure Survives (s s' : TreeStorage) : Prop where
  ids : (s'.entries.map TreeEntry.id).Nodup
  acyclic : ∀ e ∈ s'.entries, ¬ Relation.TransGen (fun x y => parentInTree s'.byId x = some y) e e
  path : ∃ path, s'.getPathToRoot s'.leafId = some (.ok path) ∧ ∀ e ∈ s'.entries.drop s.entries.length, e ∈ path

/-- Whenever an operation appends, the leaf it has read is the leaf and the id it has
drawn is not taken. -/
def Undisputed (ops : List AppendOp) (w : SessionWorld) (t : List (ℕ × AppendStep)) : Prop :=
  ∀ t₁ i t₂, t = t₁ ++ (i, AppendStep.appendEntry) :: t₂ → ∀ e, (w.run ops t₁).pending ops i = some e →
    (w.run ops t₁).storage.byId.has e.id = false ∧ e.parentId = (w.run ops t₁).storage.leafId

/-! ### One step -/

theorem leafIdAfterEntry_append (a : SessionAppend) (id timestamp : String) (parentId : Option String) :
    leafIdAfterEntry ⟨id, parentId, timestamp, a.body⟩ = some id := by
  cases a <;> rfl

section

variable {ops : List AppendOp} {w : SessionWorld} {i : ℕ} {e : TreeEntry}

theorem pending_eq_some (h : w.pending ops i = some e) :
    (w.calls i).id = some e.id ∧ (w.calls i).parentId = some e.parentId ∧ leafIdAfterEntry e = some e.id := by
  unfold pending at h
  split at h
  · rename_i hid hparent _
    rw [Option.some.injEq] at h
    subst h
    exact ⟨hid, hparent, leafIdAfterEntry_append _ _ _ _⟩
  · cases h

theorem pending_thrown (h : w.pending ops i = some e) : (w.calls i).thrown = none ∧ ∃ op, ops[i]? = some op := by
  unfold pending at h
  split at h
  · rename_i hop _ _ hthrown
    exact ⟨hthrown, _, hop⟩
  · cases h

/-- A step of an operation changes what it has got: an id it generated, or the leaf,
or an error. -/
def Gets (w : SessionWorld) (c c' : AppendCall) : Prop :=
  (c'.id = c.id ∨ ∃ id, c'.id = some id ∧ id ≠ "") ∧
    (c'.parentId = c.parentId ∨ c'.parentId = some w.storage.leafId)

theorem Gets.refl (c : AppendCall) : Gets w c c := ⟨Or.inl rfl, Or.inl rfl⟩

theorem gets_update {c' : AppendCall} (h : Gets w (w.calls i) c') (j : ℕ) :
    Gets w (w.calls j) (Function.update w.calls i c' j) := by
  by_cases hj : j = i
  · subst hj
    rwa [Function.update_self]
  · rw [Function.update_of_ne hj]
    exact Gets.refl _

theorem pending_of_thrown {error : SessionError} (h : (w.calls i).thrown = some error) : w.pending ops i = none := by
  cases hp : w.pending ops i with
  | none => rfl
  | some e =>
    rw [(pending_thrown hp).1] at h
    cases h

/-- What `getLeafId` returns is the leaf. -/
theorem getLeafId_eq_ok {s : TreeStorage} {leafId : Option String} (h : s.getLeafId = .ok leafId) :
    leafId = s.leafId := by
  unfold TreeStorage.getLeafId at h
  split at h
  · rename_i hnone
    rw [hnone, ← Except.ok.inj h]
  · rename_i hsome
    split at h
    · rw [hsome, ← Except.ok.inj h]
    · cases h

/-- Only `appendEntry` changes the storage, and it takes the pending entry in. -/
theorem step_cases (ops : List AppendOp) (w : SessionWorld) (x : ℕ × AppendStep) :
    ((w.step ops x).storage = w.storage ∧ (∀ j, Gets w (w.calls j) ((w.step ops x).calls j)) ∧
      (x.2 = .appendEntry → w.pending ops x.1 = none)) ∨
    ∃ e, x.2 = .appendEntry ∧ w.pending ops x.1 = some e ∧ (w.step ops x).storage = w.storage.appendEntry e ∧
      (w.step ops x).calls = w.calls := by
  obtain ⟨i, s⟩ := x
  have hthrow : ∀ error j, Gets w (w.calls j) ((w.throw i error).calls j) := fun error j => by
    have : Gets w (w.calls i) { w.calls i with thrown := some error } := ⟨Or.inl rfl, Or.inl rfl⟩
    exact gets_update this j
  unfold step
  simp only
  cases hop : ops[i]? with
  | none =>
    refine Or.inl ⟨rfl, fun _ => Gets.refl _, fun _ => ?_⟩
    unfold pending
    rw [hop]
  | some op =>
    simp only
    by_cases ht : (w.calls i).thrown.isSome
    · rw [if_pos ht]
      obtain ⟨error, herror⟩ := Option.isSome_iff_exists.mp ht
      exact Or.inl ⟨rfl, fun _ => Gets.refl _, fun _ => pending_of_thrown herror⟩
    · rw [if_neg ht]
      cases s with
      | checkTarget =>
        refine Or.inl ?_
        simp only [stepOf]
        split
        · split
          · exact ⟨rfl, fun _ => Gets.refl _, fun h => by cases h⟩
          · exact ⟨rfl, hthrow _, fun h => by cases h⟩
        · exact ⟨rfl, fun _ => Gets.refl _, fun h => by cases h⟩
      | createEntryId =>
        refine Or.inl ⟨rfl, fun j => ?_, fun h => by cases h⟩
        have : Gets w (w.calls i) { w.calls i with
            id := some (generateEntryId w.storage.byId.has op.draws w.uuids).1 } :=
          ⟨Or.inr ⟨_, rfl, generateEntryId_ne_empty _ _ _⟩, Or.inl rfl⟩
        exact gets_update this j
      | getLeafId =>
        refine Or.inl ?_
        simp only [stepOf]
        split
        · rename_i leafId hleaf
          refine ⟨rfl, fun j => ?_, fun h => by cases h⟩
          have : Gets w (w.calls i) { w.calls i with parentId := some leafId } :=
            ⟨Or.inl rfl, Or.inr (by rw [getLeafId_eq_ok hleaf])⟩
          exact gets_update this j
        · exact ⟨rfl, hthrow _, fun h => by cases h⟩
      | appendFile =>
        refine Or.inl ?_
        simp only [stepOf]
        split
        · split
          · exact ⟨rfl, hthrow _, fun h => by cases h⟩
          · exact ⟨rfl, fun _ => Gets.refl _, fun h => by cases h⟩
        · exact ⟨rfl, fun _ => Gets.refl _, fun h => by cases h⟩
      | appendEntry =>
        simp only [stepOf]
        cases hp : w.pending ops i with
        | none => exact Or.inl ⟨rfl, fun _ => Gets.refl _, fun _ => rfl⟩
        | some e => exact Or.inr ⟨e, trivial, rfl, rfl, rfl⟩

theorem step_commit (h : w.pending ops i = some e) :
    (w.step ops (i, .appendEntry)).storage = w.storage.appendEntry e := by
  rcases step_cases ops w (i, .appendEntry) with ⟨-, -, hnone⟩ | ⟨x, -, hx, hstorage, -⟩
  · rw [hnone rfl] at h
    cases h
  · rw [h, Option.some.injEq] at hx
    rw [hstorage, hx]

end

end Trek
