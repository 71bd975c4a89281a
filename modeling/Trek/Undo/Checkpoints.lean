/-
# Edit checkpoints

`EditCheckpointManager` of `core/edit-checkpoints/checkpoint-manager.ts`: per
prompt a batch of pre-images, one for each path the prompt is about to change,
taken once. Undoing a suffix of the batches writes back, for each path in them,
the earliest pre-image of the suffix.

`capture` awaits one read between looking a path up and recording it. The tool
loop awaits `beforeToolCall`, which captures, of one call before that of the
next, so captures do not overlap and each is one step here.
-/
import Trek.Lib.OrdMap
import Mathlib.Data.List.Sort
import Mathlib.Data.List.Induction

namespace Trek

/-- `PreImage`: the state of a file before a batch first touched it. -/
inductive PreImage
  | content (content : String)
  | absent
  deriving DecidableEq

/-- What a pre-image says the file was; `none` is no file. -/
def PreImage.file : PreImage → Option String
  | .content c => some c
  | .absent => none

/-- The pre-image of what `read` returned, `none` for `null`. -/
def PreImage.ofRead : Option String → PreImage
  | some c => .content c
  | none => .absent

@[simp] theorem PreImage.file_ofRead (c : Option String) : (PreImage.ofRead c).file = c := by
  cases c <;> rfl

/-- The files by path, as `CheckpointFsOps` shows them; `none` is no file. -/
abbrev Files := String → Option String

/-- `ops.write`. -/
def Files.write (d : Files) (path content : String) : Files := Function.update d path (some content)

/-- `ops.remove`. -/
def Files.remove (d : Files) (path : String) : Files := Function.update d path none

/-- `EditBatch`: one prompt cycle's worth of file mutations. -/
structure EditBatch where
  promptNumber : ℤ
  promptId : String
  files : OrdMap String PreImage
  deriving DecidableEq

/-- `SerializedEditBatch`. -/
structure SerializedEditBatch where
  promptNumber : ℤ
  promptId : String
  files : List (String × PreImage)
  deriving DecidableEq

/-- `UndoResult`. -/
structure UndoResult where
  batchesUndone : ℕ
  restored : List String
  removed : List String
  deriving DecidableEq

/-- `EditCheckpointManager`: the batches, oldest first. -/
structure EditCheckpointManager where
  batches : List EditBatch
  deriving DecidableEq

namespace EditCheckpointManager

/-- `a.promptNumber - b.promptNumber` is not positive. -/
def NotAfter (a b : EditBatch) : Prop := a.promptNumber ≤ b.promptNumber

instance : DecidableRel NotAfter := fun a b => inferInstanceAs (Decidable (a.promptNumber ≤ b.promptNumber))

instance : Std.Total NotAfter := ⟨fun a b => le_total a.promptNumber b.promptNumber⟩

instance : IsTrans EditBatch NotAfter := ⟨fun _ _ _ hab hbc => le_trans (α := ℤ) hab hbc⟩

/-- `batches.sort((a, b) => a.promptNumber - b.promptNumber)`; both sorts are
stable. -/
def sortBatches (batches : List EditBatch) : List EditBatch := batches.insertionSort NotAfter

/-- `batchFor`: the batch of a prompt, made if there is none. -/
def batchFor (m : EditCheckpointManager) (promptNumber : ℤ) (promptId : String) :
    EditBatch × EditCheckpointManager :=
  match m.batches.find? (·.promptNumber = promptNumber) with
  | some existing => (existing, m)
  | none =>
    let batch : EditBatch := ⟨promptNumber, promptId, .empty⟩
    (batch, ⟨sortBatches (m.batches ++ [batch])⟩)

/-- `batch.files.set(absPath, pre)` on the batch of a prompt: `batchFor` keeps
one batch a number. -/
def setFile (m : EditCheckpointManager) (promptNumber : ℤ) (absPath : String) (pre : PreImage) :
    EditCheckpointManager :=
  ⟨m.batches.map fun b =>
    if b.promptNumber = promptNumber then { b with files := b.files.set absPath pre } else b⟩

/-- `capture`, with what `ops.read` gives or throws. -/
def capture (m : EditCheckpointManager) (promptNumber : ℤ) (promptId absPath : String)
    (read : Except String (Option String)) : Except String Bool × EditCheckpointManager :=
  let (batch, m) := m.batchFor promptNumber promptId
  if batch.files.has absPath then (.ok false, m)
  else
    match read with
    | .error e => (.error e, m)
    | .ok content => (.ok true, m.setFile promptNumber absPath (.ofRead content))

/-- `restoreCapture`. -/
def restoreCapture (m : EditCheckpointManager) (promptNumber : ℤ) (promptId absPath : String)
    (pre : PreImage) : EditCheckpointManager :=
  let (batch, m) := m.batchFor promptNumber promptId
  if batch.files.has absPath then m else m.setFile promptNumber absPath pre

/-- `hydrate`; `none` is a session without a checkpoint entry. -/
def hydrate (state : Option (List SerializedEditBatch)) : EditCheckpointManager :=
  (state.getD []).foldl
    (fun m batch => batch.files.foldl
      (fun m file => m.restoreCapture batch.promptNumber batch.promptId file.1 file.2) m) ⟨[]⟩

/-- `serialize`. -/
def serialize (m : EditCheckpointManager) : List SerializedEditBatch :=
  m.batches.map fun b => ⟨b.promptNumber, b.promptId, b.files.pairs⟩

/-- `getPreImage`. -/
def getPreImage (m : EditCheckpointManager) (promptNumber : ℤ) (absPath : String) : Option PreImage :=
  (m.batches.find? (·.promptNumber = promptNumber)).bind fun b => b.files.get? absPath

/-- `keepAll`. -/
def keepAll : EditCheckpointManager := ⟨[]⟩

/-- The first loop of `_undoSuffix`: the earliest pre-image of each path. -/
def earliest (toUndo : List EditBatch) : OrdMap String PreImage :=
  toUndo.foldl (fun acc batch => batch.files.pairs.foldl OrdMap.setIfNew acc) .empty

/-- One round of the second loop of `_undoSuffix`. -/
def restore (d : Files) : String × PreImage → Files
  | (path, .absent) => d.remove path
  | (path, .content content) => d.write path content

/-- `_undoSuffix`. -/
def undoSuffix (m : EditCheckpointManager) (startIndex : ℕ) (d : Files) :
    UndoResult × EditCheckpointManager × Files :=
  let toUndo := m.batches.drop startIndex
  let pres := (earliest toUndo).pairs
  ({ batchesUndone := toUndo.length
     restored := (pres.filter (·.2 ≠ .absent)).map Prod.fst
     removed := (pres.filter (·.2 = .absent)).map Prod.fst },
    ⟨m.batches.take startIndex⟩, pres.foldl restore d)

/-- `undoLastBatches`. -/
def undoLastBatches (m : EditCheckpointManager) (n : ℤ) (d : Files) :
    UndoResult × EditCheckpointManager × Files :=
  if n ≤ 0 ∨ m.batches.length = 0 then (⟨0, [], []⟩, m, d)
  else m.undoSuffix (max 0 (m.batches.length - n)).toNat d

/-- `undoToPrompt`. -/
def undoToPrompt (m : EditCheckpointManager) (n : ℤ) (d : Files) :
    UndoResult × EditCheckpointManager × Files :=
  match m.batches.findIdx? (n ≤ ·.promptNumber) with
  | none => (⟨0, [], []⟩, m, d)
  | some startIndex => m.undoSuffix startIndex d

/-! ### The batches by number -/

/-- The numbers increase, so a number is one batch's at most. -/
def Sorted (m : EditCheckpointManager) : Prop :=
  m.batches.Pairwise fun a b => a.promptNumber < b.promptNumber

/-- There is a batch of the prompt. -/
def Recorded (m : EditCheckpointManager) (n : ℤ) : Prop := ∃ b ∈ m.batches, b.promptNumber = n

variable {m : EditCheckpointManager} {n n' : ℤ} {p p' id : String} {pre : PreImage}

theorem Sorted.unique (h : m.Sorted) {b b' : EditBatch} (hb : b ∈ m.batches) (hb' : b' ∈ m.batches)
    (hn : b.promptNumber = b'.promptNumber) : b = b' := by
  have hnd : (m.batches.map EditBatch.promptNumber).Nodup :=
    List.pairwise_map.mpr (h.imp fun hlt => ne_of_lt hlt)
  exact List.inj_on_of_nodup_map hnd hb hb' hn

theorem Sorted.find? (h : m.Sorted) {b : EditBatch} :
    m.batches.find? (·.promptNumber = n) = some b ↔ b ∈ m.batches ∧ b.promptNumber = n := by
  constructor
  · intro hf
    exact ⟨List.mem_of_find?_eq_some hf, by simpa using List.find?_some hf⟩
  · rintro ⟨hb, rfl⟩
    cases hf : m.batches.find? (·.promptNumber = b.promptNumber) with
    | none => exact absurd (List.find?_eq_none.mp hf b hb) (by simp)
    | some b' =>
      have hn : b'.promptNumber = b.promptNumber := by simpa using List.find?_some hf
      rw [h.unique (List.mem_of_find?_eq_some hf) hb hn]

theorem Sorted.getPreImage (h : m.Sorted) : m.getPreImage n p = some pre ↔
    ∃ b ∈ m.batches, b.promptNumber = n ∧ b.files.get? p = some pre := by
  simp only [EditCheckpointManager.getPreImage, Option.bind_eq_some_iff, h.find?]
  constructor
  · rintro ⟨b, ⟨hb, hn⟩, hp⟩
    exact ⟨b, hb, hn, hp⟩
  · rintro ⟨b, hb, hn, hp⟩
    exact ⟨b, ⟨hb, hn⟩, hp⟩

theorem recorded_of_getPreImage (h : m.getPreImage n p = some pre) : m.Recorded n := by
  obtain ⟨b, hf, -⟩ := Option.bind_eq_some_iff.mp h
  exact ⟨b, List.mem_of_find?_eq_some hf, by simpa using List.find?_some hf⟩

theorem sorted_empty : Sorted ⟨[]⟩ := List.Pairwise.nil

/-! ### Recording -/

/-- A batch that is not there yet joins the others at its place. -/
theorem sortBatches_facts (h : m.Sorted) (hn : ¬ m.Recorded n) :
    let m' : EditCheckpointManager := ⟨sortBatches (m.batches ++ [⟨n, id, .empty⟩])⟩
    m'.Sorted ∧ ∀ b, b ∈ m'.batches ↔ b ∈ m.batches ∨ b = ⟨n, id, .empty⟩ := by
  intro m'
  have hmem : ∀ b, b ∈ m'.batches ↔ b ∈ m.batches ∨ b = ⟨n, id, .empty⟩ := fun b => by
    simp only [m', sortBatches, List.mem_insertionSort, List.mem_append, List.mem_singleton]
  refine ⟨?_, hmem⟩
  have hle : m'.batches.Pairwise NotAfter := List.pairwise_insertionSort _ _
  have hne : m'.batches.Pairwise fun a b => a.promptNumber ≠ b.promptNumber := by
    have happ : (m.batches ++ [(⟨n, id, .empty⟩ : EditBatch)]).Pairwise
        fun a b => a.promptNumber ≠ b.promptNumber := by
      refine List.pairwise_append.mpr ⟨h.imp fun hlt => ne_of_lt hlt, List.pairwise_singleton _ _, ?_⟩
      intro a ha b hb hab
      rw [List.mem_singleton.mp hb] at hab
      exact hn ⟨a, ha, hab⟩
    exact (List.perm_insertionSort _ _).symm.pairwise happ fun hab => Ne.symm hab
  exact (hle.and hne).imp fun h => lt_of_le_of_ne h.1 h.2

/-- What `batchFor` does: the batch of the prompt is there afterwards, and only
an empty one may be new. -/
theorem batchFor_facts (h : m.Sorted) (n : ℤ) (id : String) :
    (m.batchFor n id).2.Sorted ∧
    (m.batchFor n id).1 ∈ (m.batchFor n id).2.batches ∧ (m.batchFor n id).1.promptNumber = n ∧
    (∀ n', (m.batchFor n id).2.Recorded n' ↔ m.Recorded n' ∨ n' = n) ∧
    ∀ n' p, (m.batchFor n id).2.getPreImage n' p = m.getPreImage n' p := by
  unfold batchFor
  cases hf : m.batches.find? (·.promptNumber = n) with
  | some b =>
    obtain ⟨hb, hn⟩ := h.find?.mp hf
    refine ⟨h, hb, hn, fun n' => ⟨Or.inl, ?_⟩, fun _ _ => rfl⟩
    rintro (h' | rfl)
    · exact h'
    · exact ⟨b, hb, hn⟩
  | none =>
    have hn : ¬ m.Recorded n := by
      rintro ⟨b, hb, hbn⟩
      exact absurd (List.find?_eq_none.mp hf b hb) (by simp [hbn])
    obtain ⟨hs, hmem⟩ := @sortBatches_facts m n id h hn
    refine ⟨hs, (hmem _).mpr (Or.inr rfl), rfl, fun n' => ?_, fun n' p => ?_⟩
    · simp only [Recorded, hmem]
      constructor
      · rintro ⟨b, hb | rfl, hbn⟩
        · exact Or.inl ⟨b, hb, hbn⟩
        · exact Or.inr hbn.symm
      · rintro (⟨b, hb, hbn⟩ | rfl)
        · exact ⟨b, Or.inl hb, hbn⟩
        · exact ⟨_, Or.inr rfl, rfl⟩
    · refine Option.ext fun pre => ?_
      rw [hs.getPreImage, h.getPreImage]
      simp only [hmem]
      constructor
      · rintro ⟨b, hb | rfl, hbn, hp⟩
        · exact ⟨b, hb, hbn, hp⟩
        · simp at hp
      · rintro ⟨b, hb, hbn, hp⟩
        exact ⟨b, Or.inl hb, hbn, hp⟩

theorem setFile_facts (h : m.Sorted) (hn : m.Recorded n) (p : String) (pre : PreImage) :
    (m.setFile n p pre).Sorted ∧ (∀ n', (m.setFile n p pre).Recorded n' ↔ m.Recorded n') ∧
    ∀ n' p', (m.setFile n p pre).getPreImage n' p' =
      if n' = n ∧ p' = p then some pre else m.getPreImage n' p' := by
  have hnum : ∀ b : EditBatch, (if b.promptNumber = n then { b with files := b.files.set p pre } else b).promptNumber
      = b.promptNumber := fun b => by split <;> rfl
  refine ⟨?_, fun n' => ?_, fun n' p' => ?_⟩
  · refine List.pairwise_map.mpr (h.imp fun hab => ?_)
    simpa only [hnum] using hab
  · simp only [Recorded, setFile, List.mem_map, exists_exists_and_eq_and, hnum]
  · simp only [getPreImage, setFile, List.find?_map, Function.comp_def, hnum]
    cases hf : m.batches.find? (·.promptNumber = n') with
    | none =>
      have hne : ¬ (n' = n ∧ p' = p) := by
        rintro ⟨rfl, -⟩
        obtain ⟨b, hb, hbn⟩ := hn
        exact absurd (List.find?_eq_none.mp hf b hb) (by simp [hbn])
      rw [if_neg hne]
      rfl
    | some b =>
      obtain ⟨hb, rfl⟩ := h.find?.mp hf
      by_cases hbn : b.promptNumber = n
      · simp only [Option.map_some, Option.bind_some, hbn, ↓reduceIte, OrdMap.get?_set, true_and]
      · simp only [Option.map_some, Option.bind_some, hbn, ↓reduceIte, false_and]

/-- What recording a pre-image does: the first of a path in a batch wins. -/
theorem restoreCapture_facts (h : m.Sorted) (n : ℤ) (id p : String) (pre : PreImage) :
    (m.restoreCapture n id p pre).Sorted ∧
    (∀ n', (m.restoreCapture n id p pre).Recorded n' ↔ m.Recorded n' ∨ n' = n) ∧
    ∀ n' p', (m.restoreCapture n id p pre).getPreImage n' p' =
      if n' = n ∧ p' = p then some ((m.getPreImage n p).getD pre) else m.getPreImage n' p' := by
  obtain ⟨hs, hb, hbn, hrec, hget⟩ := batchFor_facts h n id
  have hcur : m.getPreImage n p = (m.batchFor n id).1.files.get? p := by
    rw [← hget, getPreImage, hs.find?.mpr ⟨hb, hbn⟩, Option.bind_some]
  unfold restoreCapture
  simp only
  split
  · rename_i hhas
    refine ⟨hs, hrec, fun n' p' => ?_⟩
    rw [hget]
    split
    · rename_i he
      obtain ⟨rfl, rfl⟩ := he
      rw [OrdMap.has, ← hcur] at hhas
      obtain ⟨old, hold⟩ := Option.isSome_iff_exists.mp hhas
      rw [hold, Option.getD_some]
    · rfl
  · rename_i hhas
    obtain ⟨hs', hrec', hget'⟩ := setFile_facts hs ((hrec n).mpr (Or.inr rfl)) p pre
    refine ⟨hs', fun n' => (hrec' n').trans (hrec n'), fun n' p' => ?_⟩
    rw [hget', hget]
    split
    · rw [OrdMap.has, ← hcur, Bool.not_eq_true, Option.isSome_eq_false_iff, Option.isNone_iff_eq_none] at hhas
      rw [hhas, Option.getD_none]
    · rfl

/-- A capture whose read succeeds records what was read. -/
theorem capture_ok (c : Option String) :
    (m.capture n id p (.ok c)).2 = m.restoreCapture n id p (.ofRead c) := by
  unfold capture restoreCapture
  simp only
  split <;> rfl

/-- A capture whose read throws leaves at most an empty batch. -/
theorem capture_error (e : String) : (m.capture n id p (.error e)).2 = (m.batchFor n id).2 := by
  unfold capture
  simp only
  split <;> rfl

/-! ### The round trip through the session file -/

theorem batchFor_last {bs : List EditBatch} {b : EditBatch}
    (hlt : ∀ a ∈ bs, a.promptNumber < b.promptNumber) :
    (⟨bs ++ [b]⟩ : EditCheckpointManager).batchFor b.promptNumber b.promptId = (b, ⟨bs ++ [b]⟩) := by
  have hnone : bs.find? (·.promptNumber = b.promptNumber) = none := by
    refine List.find?_eq_none.mpr fun a ha => ?_
    simpa using ne_of_lt (hlt a ha)
  simp only [batchFor, List.find?_append, hnone, Option.none_or, List.find?_singleton, decide_true, ↓reduceIte]

theorem batchFor_new {bs : List EditBatch} (h : Sorted ⟨bs⟩) (hlt : ∀ a ∈ bs, a.promptNumber < n) :
    (⟨bs⟩ : EditCheckpointManager).batchFor n id =
      (⟨n, id, .empty⟩, ⟨bs ++ [⟨n, id, .empty⟩]⟩) := by
  have hnone : bs.find? (·.promptNumber = n) = none := by
    refine List.find?_eq_none.mpr fun a ha => ?_
    simpa using ne_of_lt (hlt a ha)
  have hsorted : (bs ++ [(⟨n, id, .empty⟩ : EditBatch)]).Pairwise NotAfter := by
    refine List.pairwise_append.mpr ⟨h.imp fun hab => le_of_lt hab, List.pairwise_singleton _ _, ?_⟩
    intro a ha b hb
    rw [List.mem_singleton.mp hb]
    exact le_of_lt (hlt a ha)
  simp only [batchFor, hnone, sortBatches, hsorted.insertionSort_eq]

theorem setFile_last {bs : List EditBatch} {b : EditBatch}
    (hlt : ∀ a ∈ bs, a.promptNumber < b.promptNumber) :
    (⟨bs ++ [b]⟩ : EditCheckpointManager).setFile b.promptNumber p pre =
      ⟨bs ++ [{ b with files := b.files.set p pre }]⟩ := by
  simp only [setFile, List.map_append, List.map_cons, List.map_nil, ↓reduceIte]
  congr 2
  conv_rhs => rw [← List.map_id bs]
  refine List.map_congr_left fun a ha => ?_
  rw [if_neg (ne_of_lt (hlt a ha)), id_eq]

/-- A file with a new path joins the last batch. -/
theorem restoreCapture_last {bs : List EditBatch} (hlt : ∀ a ∈ bs, a.promptNumber < n)
    {fs : List (String × PreImage)} {f : String × PreImage} (hnd : ((fs ++ [f]).map Prod.fst).Nodup)
    (hnd' : (fs.map Prod.fst).Nodup) :
    restoreCapture ⟨bs ++ [⟨n, id, ⟨fs, hnd'⟩⟩]⟩ n id f.1 f.2 = ⟨bs ++ [⟨n, id, ⟨fs ++ [f], hnd⟩⟩]⟩ := by
  have hf : f.1 ∉ (OrdMap.mk fs hnd').keys := by
    rw [List.map_append, List.map_singleton] at hnd
    exact fun hf => (List.nodup_append.mp hnd).2.2 _ hf _ (List.mem_singleton.mpr rfl) rfl
  have hset : (OrdMap.mk fs hnd').set f.1 f.2 = ⟨fs ++ [f], hnd⟩ := OrdMap.ext (OrdMap.pairs_set_new f.2 hf)
  have hhas : (OrdMap.mk fs hnd').has f.1 = false := by
    rw [Bool.eq_false_iff, ne_eq, OrdMap.has_iff]
    exact hf
  have hb := batchFor_last (b := ⟨n, id, ⟨fs, hnd'⟩⟩) hlt
  have hl := @setFile_last f.1 f.2 bs ⟨n, id, ⟨fs, hnd'⟩⟩ hlt
  simp only [restoreCapture, hb, hhas, Bool.false_eq_true, ↓reduceIte, hl, hset]

/-- Replaying the files of the last batch rebuilds it. -/
theorem foldl_restoreCapture {bs : List EditBatch} (h : Sorted ⟨bs⟩) (hlt : ∀ a ∈ bs, a.promptNumber < n) :
    ∀ (fs : List (String × PreImage)) (hnd : (fs.map Prod.fst).Nodup), fs ≠ [] →
      fs.foldl (fun m file => restoreCapture m n id file.1 file.2) ⟨bs⟩ =
        ⟨bs ++ [⟨n, id, ⟨fs, hnd⟩⟩]⟩ := by
  intro fs
  induction fs using List.reverseRecOn with
  | nil => exact fun _ hne => absurd rfl hne
  | append_singleton fs f ih =>
    intro hnd _
    have hnd' : (fs.map Prod.fst).Nodup := hnd.sublist ((List.sublist_append_left fs [f]).map _)
    rw [List.foldl_append, List.foldl_cons, List.foldl_nil]
    by_cases hfs : fs = []
    · subst hfs
      rw [List.foldl_nil, ← restoreCapture_last hlt hnd hnd', restoreCapture, restoreCapture,
        batchFor_new h hlt, batchFor_last (b := ⟨n, id, ⟨[], hnd'⟩⟩) hlt]
      rfl
    · rw [ih hnd' hfs, restoreCapture_last hlt hnd hnd']

/-- Serializing and hydrating forgets the empty batches and nothing else. -/
theorem hydrate_serialize (h : m.Sorted) :
    hydrate (some m.serialize) = ⟨m.batches.filter fun b => b.files.pairs ≠ []⟩ := by
  have key : ∀ rest bs : List EditBatch, Sorted ⟨bs ++ rest⟩ →
      (rest.map fun b => (⟨b.promptNumber, b.promptId, b.files.pairs⟩ : SerializedEditBatch)).foldl
        (fun m batch => batch.files.foldl
          (fun m file => m.restoreCapture batch.promptNumber batch.promptId file.1 file.2) m) ⟨bs⟩ =
      (⟨bs ++ rest.filter fun b => b.files.pairs ≠ []⟩ : EditCheckpointManager) := by
    intro rest
    induction rest with
    | nil => exact fun bs _ => by rw [List.map_nil, List.foldl_nil, List.filter_nil, List.append_nil]
    | cons b rest ih =>
      intro bs hs
      rw [List.map_cons, List.foldl_cons]
      have hsplit := List.pairwise_append.mp hs
      by_cases hb : b.files.pairs = []
      · rw [hb, List.foldl_nil, ih bs, List.filter_cons_of_neg (by simp [hb])]
        exact List.Pairwise.sublist ((List.sublist_cons_self b rest).append_left bs) hs
      · have hlt : ∀ a ∈ bs, a.promptNumber < b.promptNumber :=
          fun a ha => hsplit.2.2 a ha b List.mem_cons_self
        rw [foldl_restoreCapture hsplit.1 hlt _ b.files.nodup hb, ih (bs ++ [b]),
          List.filter_cons_of_pos (by simp [hb]), List.append_assoc, List.singleton_append]
        rwa [List.append_assoc, List.singleton_append]
  have := key m.batches [] (by simpa using h)
  simpa [hydrate, serialize] using this

theorem reload_facts (h : m.Sorted) :
    (hydrate (some m.serialize)).Sorted ∧
    (∀ n, (hydrate (some m.serialize)).Recorded n → m.Recorded n) ∧
    ∀ n p, (hydrate (some m.serialize)).getPreImage n p = m.getPreImage n p := by
  rw [hydrate_serialize h]
  have hs : Sorted ⟨m.batches.filter fun b => b.files.pairs ≠ []⟩ := List.Pairwise.filter _ h
  refine ⟨hs, fun n ⟨b, hb, hn⟩ => ⟨b, (List.mem_filter.mp hb).1, hn⟩, fun n p => Option.ext fun pre => ?_⟩
  rw [hs.getPreImage, h.getPreImage]
  constructor
  · rintro ⟨b, hb, hn, hp⟩
    exact ⟨b, (List.mem_filter.mp hb).1, hn, hp⟩
  · rintro ⟨b, hb, hn, hp⟩
    have hne : b.files.pairs ≠ [] := List.ne_nil_of_mem (OrdMap.get?_eq_some.mp hp)
    exact ⟨b, List.mem_filter.mpr ⟨hb, by simpa using hne⟩, hn, hp⟩

/-! ### Undoing -/

/-- Dropping the newest batches. -/
theorem take_facts (h : m.Sorted) (i : ℕ) :
    let m' : EditCheckpointManager := ⟨m.batches.take i⟩
    m'.Sorted ∧ (∀ n, m'.Recorded n → m.Recorded n) ∧
      ∀ n p, m'.Recorded n → m'.getPreImage n p = m.getPreImage n p := by
  intro m'
  have hs : m'.Sorted := h.take
  refine ⟨hs, fun n ⟨b, hb, hn⟩ => ⟨b, List.mem_of_mem_take hb, hn⟩, fun n p ⟨b, hb, hn⟩ => ?_⟩
  rw [getPreImage, getPreImage, hs.find?.mpr ⟨hb, hn⟩, h.find?.mpr ⟨List.mem_of_mem_take hb, hn⟩]

/-- The earliest pre-image is that of the first batch that has the path. -/
theorem get?_earliest (p : String) (toUndo : List EditBatch) :
    (earliest toUndo).get? p = toUndo.findSome? fun b => b.files.get? p := by
  have key : ∀ (l : List EditBatch) (acc : OrdMap String PreImage),
      (l.foldl (fun acc batch => batch.files.pairs.foldl OrdMap.setIfNew acc) acc).get? p =
        (acc.get? p).or (l.findSome? fun b => b.files.get? p) := by
    intro l
    induction l with
    | nil => exact fun acc => by rw [List.foldl_nil, List.findSome?_nil, Option.or_none]
    | cons b l ih =>
      intro acc
      rw [List.foldl_cons, ih, OrdMap.get?_foldl_setIfNew, Option.or_assoc, List.findSome?_cons]
      congr 1
      change (b.files.get? p).or _ = _
      cases b.files.get? p <;> rfl
  rw [earliest, key, OrdMap.get?_empty, Option.none_or]

theorem restore_apply (d : Files) (f : String × PreImage) (p : String) :
    restore d f p = if p = f.1 then f.2.file else d p := by
  obtain ⟨q, c | _⟩ := f <;> simp only [restore, Files.write, Files.remove, Function.update_apply, PreImage.file]

/-- Restoring writes each path of the map once and touches no other. -/
theorem foldl_restore (p : String) : ∀ (fs : List (String × PreImage)) (d : Files), (fs.map Prod.fst).Nodup →
    fs.foldl restore d p = (((fs.find? (·.1 = p)).map Prod.snd).map PreImage.file).getD (d p)
  | [], d, _ => rfl
  | f :: fs, d, hnd => by
    rw [List.map_cons, List.nodup_cons] at hnd
    rw [List.foldl_cons, foldl_restore p fs _ hnd.2, restore_apply]
    by_cases hp : p = f.1
    · subst hp
      have hnone : fs.find? (·.1 = f.1) = none :=
        List.find?_eq_none.mpr fun g hg he => hnd.1 (List.mem_map.mpr ⟨g, hg, by simpa using he⟩)
      rw [hnone, List.find?_cons_of_pos (by simp), if_pos rfl]
      rfl
    · rw [List.find?_cons_of_neg (by simpa using Ne.symm hp), if_neg hp]

/-- What `_undoSuffix` leaves of a file. -/
theorem undoSuffix_disk (m : EditCheckpointManager) (i : ℕ) (d : Files) (p : String) :
    (m.undoSuffix i d).2.2 p =
      (((m.batches.drop i).findSome? fun b => b.files.get? p).map PreImage.file).getD (d p) := by
  rw [← get?_earliest, OrdMap.get?, ← foldl_restore p _ d (earliest (m.batches.drop i)).nodup]
  rfl

/-- In increasing numbers, the batches from the first with a number at least `k`
are those with such a number. -/
theorem findIdx?_promptNumber (k : ℤ) : ∀ {l : List EditBatch}, Sorted ⟨l⟩ →
    match l.findIdx? (k ≤ ·.promptNumber) with
    | none => l.filter (·.promptNumber < k) = l ∧ l.filter (k ≤ ·.promptNumber) = []
    | some i => l.filter (·.promptNumber < k) = l.take i ∧ l.filter (k ≤ ·.promptNumber) = l.drop i
  | [], _ => ⟨rfl, rfl⟩
  | b :: l, h => by
    have hcons := List.pairwise_cons.mp h
    have ih := findIdx?_promptNumber k (l := l) hcons.2
    rw [List.findIdx?_cons]
    by_cases hb : k ≤ b.promptNumber
    · have hall : ∀ a ∈ l, k ≤ a.promptNumber := fun a ha => le_trans hb (le_of_lt (hcons.1 a ha))
      simp only [hb, decide_true, ↓reduceIte, List.take_zero, List.drop_zero]
      constructor
      · refine List.filter_eq_nil_iff.mpr fun a ha => ?_
        rcases List.mem_cons.mp ha with rfl | ha
        · simpa using hb
        · simpa using hall a ha
      · refine List.filter_eq_self.mpr fun a ha => ?_
        rcases List.mem_cons.mp ha with rfl | ha
        · simpa using hb
        · simpa using hall a ha
    · have hlt : b.promptNumber < k := by omega
      simp only [hb, decide_false, Bool.false_eq_true, ↓reduceIte]
      cases hf : l.findIdx? (k ≤ ·.promptNumber) with
      | none =>
        rw [hf] at ih
        simp only [Option.map_none, List.filter_cons, hlt, hb, decide_true, decide_false, ↓reduceIte,
          Bool.false_eq_true, ih, and_self]
      | some i =>
        rw [hf] at ih
        simp only [Option.map_some, List.filter_cons, hlt, hb, decide_true, decide_false, ↓reduceIte,
          Bool.false_eq_true, ih, List.take_succ_cons, List.drop_succ_cons, and_self]

end EditCheckpointManager
end Trek
