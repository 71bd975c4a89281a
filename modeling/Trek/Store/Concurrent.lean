/-
# Recording from several calls at once

`record` reads the manifest, awaits the writes of an artifact and of its
directory and then writes the manifest it read, with one record more. The
`afterToolCall`s of a parallel group run at the same time, so their file
operations interleave. A call whose manifest another call has replaced before
it writes its own takes that call's record away; when no two calls overlap so,
they record one after another.
-/
import Trek.Store.Log
import Trek.Lib.Interleave

namespace Trek

/-- The awaited file operations of `record`. -/
inductive RecordStep
  | readManifest | makeDir | writeArtifact | makeRoot | writeManifest
  deriving DecidableEq

/-- What `record` awaits, in order. -/
def recordProgram : List RecordStep := [.readManifest, .makeDir, .writeArtifact, .makeRoot, .writeManifest]

/-- Nothing is awaited for a path `record` does not take. -/
def recordSteps (options : RecordOptions) : List RecordStep :=
  if validRelPath options.relPath then recordProgram else []

/-- The store, and `manifest` of each call that has read it. -/
structure RecordWorld where
  store : TrekStore
  manifests : ℕ → Option TrekManifest

/-- One file operation of one call. -/
def recordStep (calls : List RecordOptions) (w : RecordWorld) (x : ℕ × RecordStep) : RecordWorld :=
  match x.2, calls[x.1]?, w.manifests x.1 with
  | .readManifest, some _, _ =>
    { w with manifests := Function.update w.manifests x.1 (some w.store.loadManifest) }
  | .writeArtifact, some options, some manifest =>
    { w with store := w.store.writeArtifact (manifest.newRecord options).artifact options.artifact }
  | .writeManifest, some options, some manifest =>
    { w with store := w.store.saveManifest (manifest.addRecord options) }
  | _, _, _ => w

/-- The calls as threads. -/
def recordThreads (calls : List RecordOptions) : List (List (ℕ × RecordStep)) :=
  calls.zipIdx.map fun c => (recordSteps c.1).map fun s => (c.2, s)

/-- The file operations of the calls under a schedule. -/
def recordTrace (schedule : List ℕ) (calls : List RecordOptions) : List (ℕ × RecordStep) :=
  interleave schedule (recordThreads calls)

/-- The store after them. -/
def recordAll (schedule : List ℕ) (calls : List RecordOptions) (s : TrekStore) : TrekStore :=
  ((recordTrace schedule calls).foldl (recordStep calls) ⟨s, fun _ => none⟩).store

/-- Between a call's reading of the manifest and its writing it no call writes it. -/
def Undisturbed (t : List (ℕ × RecordStep)) : Prop :=
  ∀ i j t₁ t₂ t₃, t = t₁ ++ (i, RecordStep.readManifest) :: t₂ ++ (i, RecordStep.writeManifest) :: t₃ → (j, .writeManifest) ∉ t₂

/-- The records of the manifest, each with its prompt. -/
def TrekManifest.entries (m : TrekManifest) : List (ℤ × FileVersionRecord) :=
  m.prompts.pairs.flatMap fun p => p.2.files.map fun f => (p.1, f)

namespace TrekStore

open TrekManifest

/-- The records have their own versions, the artifacts their names, and each record's
artifact can be read and is of the record. -/
structure Consistent (s : TrekStore) : Prop where
  named : ∀ f ∈ s.loadManifest.records, f.artifact = artifactRel f.path f.toVersion
  distinct : s.loadManifest.records.Pairwise fun f g => f.path = g.path → f.toVersion ≠ g.toVersion
  readable : ∀ e ∈ s.loadManifest.entries, ∃ a, s.artifacts e.2.artifact = some a ∧ a.promptNumber = e.1 ∧
    a.path = e.2.path ∧ a.kind = e.2.kind ∧ a.toPath = e.2.toPath

/-- The record and the artifact of a call. -/
def RecordedBy (s : TrekStore) (o : RecordOptions) (e : ℤ × FileVersionRecord) : Prop :=
  e.1 = o.promptNumber ∧ e.2.path = o.relPath ∧ e.2.kind = o.kind ∧ e.2.toPath = o.toRelPath ∧
    s.artifacts e.2.artifact = some o.artifact

/-- The manifest has one record for each call besides those it had, the versions of
a path differ and every record's artifact can be read. -/
structure NoneLost (s : TrekStore) (calls : List RecordOptions) (s' : TrekStore) : Prop where
  one : ∃ new, List.Forall₂ s'.RecordedBy calls new ∧ s'.loadManifest.entries.Perm (s.loadManifest.entries ++ new)
  consistent : s'.Consistent

end TrekStore

/-! ### One record -/

namespace TrekManifest

theorem records_eq (m : TrekManifest) : m.records = m.entries.map Prod.snd := by
  rw [records, entries, OrdMap.values, List.flatMap_map, List.map_flatMap]
  congr 1
  funext p
  rw [List.map_map]
  exact (List.map_id _).symm

theorem entries_addRecord (m : TrekManifest) (o : RecordOptions) :
    (m.addRecord o).entries.Perm (m.entries ++ [(o.promptNumber, m.newRecord o)]) := by
  unfold entries addRecord
  cases hg : m.prompts.get? o.promptNumber with
  | none =>
    rw [OrdMap.pairs_set_new _ (OrdMap.get?_eq_none.mp hg), List.flatMap_append, List.flatMap_singleton, recordEntry,
      hg]
    exact List.Perm.refl _
  | some entry =>
    obtain ⟨l₁, l₂, hl, hset⟩ := OrdMap.pairs_set_old (m.recordEntry o) hg
    rw [hset, hl]
    simp only [List.flatMap_append, List.flatMap_cons, recordEntry, hg, Option.getD_some, List.map_append,
      List.map_singleton, List.append_assoc]
    refine List.Perm.append_left _ (List.Perm.append_left _ ?_)
    exact List.perm_append_comm

theorem length_records_addRecord (m : TrekManifest) (o : RecordOptions) :
    (m.addRecord o).records.length = m.records.length + 1 := by
  rw [records_eq, records_eq, List.length_map, List.length_map, (entries_addRecord m o).length_eq,
    List.length_append]
  rfl

end TrekManifest

namespace TrekStore

open TrekManifest

/-- The artifact of the next record overwrites none. -/
theorem Consistent.artifacts_record {s : TrekStore} (h : s.Consistent) (o : RecordOptions)
    {e : ℤ × FileVersionRecord} (he : e ∈ s.loadManifest.entries) :
    (s.record o).1.artifacts e.2.artifact = s.artifacts e.2.artifact := by
  unfold record
  split
  · have hrec : e.2 ∈ s.loadManifest.records := by
      rw [records_eq]
      exact List.mem_map_of_mem he
    exact Function.update_of_ne (newRecord_artifact_ne hrec (h.named _ hrec)) _ _
  · rfl

theorem Consistent.record {s : TrekStore} (h : s.Consistent) {o : RecordOptions}
    (ho : validRelPath o.relPath = true) :
    (s.record o).1.Consistent ∧
    (s.record o).1.loadManifest.entries.Perm
      (s.loadManifest.entries ++ [(o.promptNumber, s.loadManifest.newRecord o)]) ∧
    (s.record o).1.RecordedBy o (o.promptNumber, s.loadManifest.newRecord o) := by
  have hkeep := fun e he => h.artifacts_record o (e := e) he
  have hman : (s.record o).1.loadManifest = s.loadManifest.addRecord o := by
    rw [TrekStore.record, if_pos ho]
    rfl
  have hnew : (s.record o).1.artifacts (s.loadManifest.newRecord o).artifact = some o.artifact := by
    rw [TrekStore.record, if_pos ho]
    exact Function.update_self _ _ _
  have hperm := entries_addRecord s.loadManifest o
  have hrecs : (s.loadManifest.addRecord o).records.Perm (s.loadManifest.records ++ [s.loadManifest.newRecord o]) := by
    have := hperm.map Prod.snd
    rwa [List.map_append, ← records_eq, ← records_eq] at this
  refine ⟨⟨fun f hf => ?_, ?_, fun e he => ?_⟩, by rwa [hman], rfl, rfl, rfl, rfl, hnew⟩
  · rw [hman] at hf
    rcases mem_records_addRecord hf with hf | rfl
    · exact h.named f hf
    · rfl
  · rw [hman, hrecs.pairwise_iff fun {f g} hfg he => Ne.symm (hfg he.symm)]
    refine List.pairwise_append.mpr ⟨h.distinct, List.pairwise_singleton _ _, fun f hf g hg => ?_⟩
    rw [List.mem_singleton.mp hg]
    intro hp
    have := le_latestVersion hf
    rw [hp] at this
    exact ne_of_lt (Nat.lt_succ_of_le this)
  · rw [hman] at he
    rcases List.mem_append.mp (hperm.mem_iff.mp he) with he | he
    · rw [hkeep e he]
      exact h.readable e he
    · rw [List.mem_singleton.mp he]
      exact ⟨o.artifact, hnew, rfl, rfl, rfl, rfl⟩

end TrekStore

/-! ### Calls that do not overlap -/

/-- The steps of one call in a trace. -/
def stepsOf (t : List (ℕ × RecordStep)) (i : ℕ) : List RecordStep := (t.filter (·.1 = i)).map Prod.snd

theorem stepsOf_append (t u : List (ℕ × RecordStep)) (i : ℕ) : stepsOf (t ++ u) i = stepsOf t i ++ stepsOf u i := by
  rw [stepsOf, List.filter_append, List.map_append]
  rfl

theorem stepsOf_cons_self (i : ℕ) (s : RecordStep) (t : List (ℕ × RecordStep)) :
    stepsOf ((i, s) :: t) i = s :: stepsOf t i := by
  rw [stepsOf, List.filter_cons_of_pos (by simp)]
  rfl

theorem stepsOf_cons_ne {i j : ℕ} (h : i ≠ j) (s : RecordStep) (t : List (ℕ × RecordStep)) :
    stepsOf ((i, s) :: t) j = stepsOf t j := by
  rw [stepsOf, List.filter_cons_of_neg (by simpa using h)]
  rfl

theorem mem_stepsOf {t : List (ℕ × RecordStep)} {i : ℕ} {s : RecordStep} : s ∈ stepsOf t i ↔ (i, s) ∈ t := by
  simp only [stepsOf, List.mem_map, List.mem_filter, decide_eq_true_eq]
  constructor
  · rintro ⟨⟨j, s⟩, ⟨h, rfl⟩, rfl⟩
    exact h
  · exact fun h => ⟨(i, s), ⟨h, rfl⟩, rfl⟩

theorem eq_map_stepsOf {i : ℕ} : ∀ {t : List (ℕ × RecordStep)}, (∀ x ∈ t, x.1 = i) →
    t = (stepsOf t i).map fun s => (i, s)
  | [], _ => rfl
  | (j, s) :: t, h => by
    obtain rfl : j = i := h (j, s) List.mem_cons_self
    rw [stepsOf_cons_self, List.map_cons, ← eq_map_stepsOf fun x hx => h x (List.mem_cons_of_mem _ hx)]

/-- Each call of `P` does its whole program and the others do nothing. -/
def Complete (P : ℕ → Bool) (t : List (ℕ × RecordStep)) : Prop :=
  ∀ i, stepsOf t i = if P i then recordProgram else []

/-- What stands before and after the last step of the program. -/
theorem program_split {l r : List RecordStep}
    (h : l ++ .writeManifest :: r = [.makeDir, .writeArtifact, .makeRoot, .writeManifest]) :
    l = [.makeDir, .writeArtifact, .makeRoot] ∧ r = [] := by
  rcases l with _ | ⟨a, _ | ⟨b, _ | ⟨c, _ | ⟨d, l⟩⟩⟩⟩
  · simp at h
  · simp at h
  · simp at h
  · simpa [and_assoc] using h
  · simp at h

/-- When none is disturbed, the call that goes first does all its steps first. -/
theorem first_block {P : ℕ → Bool} {t : List (ℕ × RecordStep)} (hc : Complete P t) (hu : Undisturbed t)
    (hne : t ≠ []) : ∃ i v, P i = true ∧ t = (recordProgram.map fun s => (i, s)) ++ v ∧
      Complete (Function.update P i false) v ∧ Undisturbed v := by
  obtain ⟨⟨i, s⟩, rest, rfl⟩ := List.exists_cons_of_ne_nil hne
  have hi := hc i
  rw [stepsOf_cons_self] at hi
  have hP : P i = true := by
    by_contra hno
    rw [if_neg hno] at hi
    cases hi
  rw [if_pos hP, recordProgram, List.cons.injEq] at hi
  obtain ⟨rfl, hrest⟩ := hi
  have hsave : (i, RecordStep.writeManifest) ∈ rest := mem_stepsOf.mp (by rw [hrest]; simp)
  obtain ⟨u, v, rfl⟩ := List.append_of_mem hsave
  rw [stepsOf_append, stepsOf_cons_self] at hrest
  obtain ⟨hui, hvi⟩ := program_split hrest
  -- another call with a step in `u` begins there, and ends either there or after `i`
  have hown : ∀ x ∈ u, x.1 = i := by
    intro ⟨j, s'⟩ hx
    by_contra hji
    have hji : i ≠ j := fun he => hji he.symm
    have hj := hc j
    rw [stepsOf_cons_ne hji, stepsOf_append, stepsOf_cons_ne hji] at hj
    obtain ⟨z, zs, hz⟩ := List.exists_cons_of_ne_nil (List.ne_nil_of_mem (mem_stepsOf.mpr hx))
    have hPj : P j = true := by
      by_contra hno
      rw [if_neg hno, hz] at hj
      cases hj
    rw [if_pos hPj] at hj
    have hmem : RecordStep.writeManifest ∈ stepsOf u j ++ stepsOf v j := by rw [hj]; decide
    have hload : (j, RecordStep.readManifest) ∈ u := by
      rw [hz, recordProgram, List.cons_append, List.cons.injEq] at hj
      rw [← mem_stepsOf, hz, hj.1]
      exact List.mem_cons_self
    rcases List.mem_append.mp hmem with hmem | hmem
    · exact hu i j [] u v rfl (mem_stepsOf.mp hmem)
    · obtain ⟨v₁, v₂, rfl⟩ := List.append_of_mem (mem_stepsOf.mp hmem)
      obtain ⟨u₁, u₂, rfl⟩ := List.append_of_mem hload
      refine hu j i ((i, .readManifest) :: u₁) (u₂ ++ (i, .writeManifest) :: v₁) v₂ ?_ (by simp)
      simp
  have heq : (i, RecordStep.readManifest) :: (u ++ (i, .writeManifest) :: v) =
      (recordProgram.map fun s => (i, s)) ++ v := by
    rw [eq_map_stepsOf hown, hui]
    rfl
  refine ⟨i, v, hP, heq, fun j => ?_, fun j k t₁ t₂ t₃ hv => ?_⟩
  · by_cases hji : j = i
    · subst hji
      rw [hvi, Function.update_self]
      rfl
    · have hj := hc j
      have hnil : stepsOf u j = [] := by
        rw [eq_map_stepsOf hown, hui]
        simp [stepsOf, Ne.symm hji]
      rw [stepsOf_cons_ne (Ne.symm hji), stepsOf_append, stepsOf_cons_ne (Ne.symm hji), hnil, List.nil_append] at hj
      rw [hj, Function.update_of_ne hji]
  · refine hu j k ((recordProgram.map fun s => (i, s)) ++ t₁) t₂ t₃ ?_
    rw [heq, hv]
    simp

/-- A call that goes through its program alone records. -/
theorem foldl_program {calls : List RecordOptions} {i : ℕ} {o : RecordOptions} (hi : calls[i]? = some o)
    (ho : validRelPath o.relPath = true) (w : RecordWorld) :
    ((recordProgram.map fun s => (i, s)).foldl (recordStep calls) w).store = (w.store.record o).1 := by
  have h : ∀ w', recordStep calls w' (i, .readManifest) =
      { w' with manifests := Function.update w'.manifests i (some w'.store.loadManifest) } := fun w' => by
    simp only [recordStep, hi]
  simp only [recordProgram, List.map_cons, List.map_nil, List.foldl_cons, List.foldl_nil, h]
  simp only [recordStep, hi, Function.update_self, TrekStore.record, ho, if_true]

/-- The calls whose records a trace saves, in that order. -/
def savedCalls (calls : List RecordOptions) (t : List (ℕ × RecordStep)) : List RecordOptions :=
  t.filterMap fun x => if x.2 = .writeManifest then calls[x.1]? else none

open TrekStore in
/-- Undisturbed calls record one after another. -/
theorem run_undisturbed (calls : List RecordOptions) : ∀ (n : ℕ) (P : ℕ → Bool) (t : List (ℕ × RecordStep)),
    t.length ≤ n → Complete P t → Undisturbed t →
    (∀ i, P i = true → ∃ o, calls[i]? = some o ∧ validRelPath o.relPath = true) →
    ∀ w : RecordWorld, w.store.Consistent →
      let w' := t.foldl (recordStep calls) w
      w'.store.Consistent ∧
      (∃ new, List.Forall₂ w'.store.RecordedBy (savedCalls calls t) new ∧
        w'.store.loadManifest.entries.Perm (w.store.loadManifest.entries ++ new)) ∧
      ∀ e ∈ w.store.loadManifest.entries, w'.store.artifacts e.2.artifact = w.store.artifacts e.2.artifact
  | n, P, [], _, _, _, _, w, hw => ⟨hw, ⟨[], List.Forall₂.nil, by rw [List.append_nil]; exact List.Perm.refl _⟩,
      fun _ _ => rfl⟩
  | 0, P, x :: t, hn, _, _, _, w, hw => by simp at hn
  | n + 1, P, x :: t, hn, hc, hu, hP, w, hw => by
    obtain ⟨i, v, hPi, heq, hcv, huv⟩ := first_block hc hu (List.cons_ne_nil x t)
    obtain ⟨o, hio, ho⟩ := hP i hPi
    have hlen : v.length ≤ n := by
      have := congrArg List.length heq
      simp only [List.length_cons, List.length_append, List.length_map, recordProgram] at this hn
      simp only [List.length_nil] at this
      omega
    have hP' : ∀ j, Function.update P i false j = true → ∃ o, calls[j]? = some o ∧ validRelPath o.relPath = true := by
      intro j hj
      by_cases hji : j = i
      · subst hji
        rw [Function.update_self] at hj
        cases hj
      · rw [Function.update_of_ne hji] at hj
        exact hP j hj
    intro w'
    have hw' : w' = v.foldl (recordStep calls) ((recordProgram.map fun s => (i, s)).foldl (recordStep calls) w) := by
      rw [← List.foldl_append, ← heq]
    have hstore := foldl_program hio ho w
    obtain ⟨hcons, hperm, hby⟩ := hw.record ho
    have hkeep := fun e he => hw.artifacts_record o (e := e) he
    rw [← hstore] at hcons hperm hby hkeep
    obtain ⟨hcons', ⟨new, hnew, hperm'⟩, hkeep'⟩ := run_undisturbed calls n _ v hlen hcv huv hP' _ hcons
    rw [← hw'] at hcons' hnew hperm' hkeep'
    have hsaved : savedCalls calls (x :: t) = o :: savedCalls calls v := by
      rw [heq, savedCalls, List.filterMap_append]
      simp [recordProgram, hio]
      rfl
    refine ⟨hcons', ⟨(o.promptNumber, w.store.loadManifest.newRecord o) :: new, ?_, hperm'.trans ?_⟩,
      fun e he => ?_⟩
    · rw [hsaved]
      refine List.Forall₂.cons ⟨hby.1, hby.2.1, hby.2.2.1, hby.2.2.2.1, ?_⟩ hnew
      rw [hkeep' _ (hperm.mem_iff.mpr (by simp)), hby.2.2.2.2]
    · refine (hperm.append_right new).trans ?_
      rw [List.append_assoc, List.singleton_append]
    · rw [hkeep' e (hperm.mem_iff.mpr (List.mem_append_left _ he)), hkeep e he]

/-! ### Calls that overlap -/

/-- How many manifests a trace writes. -/
def saves (t : List (ℕ × RecordStep)) : ℕ := t.countP (·.2 = .writeManifest)

theorem saves_append (t u : List (ℕ × RecordStep)) : saves (t ++ u) = saves t + saves u := List.countP_append

/-- The manifest of the store and those that calls have read have at most `b` records. -/
def AtMost (w : RecordWorld) (b : ℕ) : Prop :=
  w.store.loadManifest.records.length ≤ b ∧ ∀ i m, w.manifests i = some m → m.records.length ≤ b

theorem atMost_step {calls : List RecordOptions} {w : RecordWorld} {b : ℕ} (h : AtMost w b) (x : ℕ × RecordStep) :
    AtMost (recordStep calls w x) (b + saves [x]) := by
  have hsame : ∀ k, AtMost w (b + k) := fun k =>
    ⟨le_trans h.1 (Nat.le_add_right b k), fun i m hm => le_trans (h.2 i m hm) (Nat.le_add_right b k)⟩
  unfold recordStep
  split
  · refine ⟨(hsame _).1, fun i m hm => ?_⟩
    change Function.update w.manifests x.1 _ i = some m at hm
    by_cases hi : i = x.1
    · subst hi
      rw [Function.update_self, Option.some.injEq] at hm
      exact hm ▸ (hsame _).1
    · rw [Function.update_of_ne hi] at hm
      exact (hsame _).2 i m hm
  · exact hsame _
  · rename_i o m hx ho hm
    have hone : saves [x] = 1 := by simp [saves, hx]
    rw [hone]
    refine ⟨?_, (hsame 1).2⟩
    change (m.addRecord o).records.length ≤ b + 1
    rw [TrekManifest.length_records_addRecord]
    exact Nat.succ_le_succ (h.2 _ _ hm)
  · exact hsame _

theorem atMost_run {calls : List RecordOptions} : ∀ (t : List (ℕ × RecordStep)) {w : RecordWorld} {b : ℕ},
    AtMost w b → AtMost (t.foldl (recordStep calls) w) (b + saves t)
  | [], _, _, h => h
  | x :: t, w, b, h => by
    have := @atMost_run calls t _ _ (@atMost_step calls w b h x)
    rwa [List.foldl_cons, ← List.singleton_append, saves_append, ← Nat.add_assoc]

/-- A call keeps the manifest it has read until it reads again. -/
theorem manifests_run {calls : List RecordOptions} {i : ℕ} : ∀ {t : List (ℕ × RecordStep)} {w : RecordWorld},
    (i, RecordStep.readManifest) ∉ t → (t.foldl (recordStep calls) w).manifests i = w.manifests i
  | [], _, _ => rfl
  | x :: t, w, h => by
    rw [List.foldl_cons, manifests_run fun hx => h (List.mem_cons_of_mem _ hx)]
    unfold recordStep
    split
    · rename_i hx _
      refine Function.update_of_ne (fun hi => h ?_) _ _
      rw [hi, ← hx]
      exact List.mem_cons_self
    · rfl
    · rfl
    · rfl

/-- A call that is disturbed takes a record away. -/
theorem count_of_disturbed {calls : List RecordOptions} {P : ℕ → Bool} {t : List (ℕ × RecordStep)}
    (hc : Complete P t) (hP : ∀ i, P i = true → ∃ o, calls[i]? = some o) (hu : ¬ Undisturbed t)
    {w : RecordWorld} {b : ℕ} (h : AtMost w b) :
    (t.foldl (recordStep calls) w).store.loadManifest.records.length < b + saves t := by
  unfold Undisturbed at hu
  push Not at hu
  obtain ⟨i, j, t₁, t₂, t₃, rfl, hj⟩ := hu
  have hi := hc i
  have hPi : P i = true := by
    by_contra hno
    rw [if_neg hno] at hi
    have : RecordStep.readManifest ∈
        stepsOf (t₁ ++ (i, RecordStep.readManifest) :: t₂ ++ (i, RecordStep.writeManifest) :: t₃) i :=
      mem_stepsOf.mpr (by simp)
    rw [hi] at this
    cases this
  obtain ⟨o, ho⟩ := hP i hPi
  -- the call reads once, so it writes what it has read before `t₂`
  have hload : (i, RecordStep.readManifest) ∉ t₂ := by
    intro hmem
    rw [if_pos hPi, stepsOf_append, stepsOf_append, stepsOf_cons_self] at hi
    have hcount := congrArg (List.count RecordStep.readManifest) hi
    have hpos : 0 < (stepsOf t₂ i).count .readManifest := List.count_pos_iff.mpr (mem_stepsOf.mpr hmem)
    have hone : recordProgram.count .readManifest = 1 := by decide
    rw [hone, List.count_append, List.count_append, List.count_cons_self] at hcount
    omega
  have h₁ := @atMost_run calls t₁ w b h
  have hpos : 0 < saves t₂ := List.countP_pos_iff.mpr ⟨_, hj, by simp⟩
  have hone : saves [(i, RecordStep.writeManifest)] = 1 := rfl
  have hzero : saves [(i, RecordStep.readManifest)] = 0 := rfl
  have hsplit : ∀ t₂ t₃ : List (ℕ × RecordStep), t₁ ++ (i, RecordStep.readManifest) :: t₂ ++ (i, RecordStep.writeManifest) :: t₃ =
      (t₁ ++ [(i, RecordStep.readManifest)] ++ t₂) ++ ([(i, RecordStep.writeManifest)] ++ t₃) := fun t₂ t₃ => by simp
  rw [hsplit]
  simp only [List.foldl_append]
  set w₁ := t₁.foldl (recordStep calls) w with hw₁
  set w₂ := [(i, RecordStep.readManifest)].foldl (recordStep calls) w₁ with hw₂
  set w₃ := t₂.foldl (recordStep calls) w₂ with hw₃
  have hread : w₂.manifests i = some w₁.store.loadManifest := by
    rw [hw₂, List.foldl_cons, List.foldl_nil, recordStep]
    simp only [ho, Function.update_self]
  have hman : w₃.manifests i = some w₁.store.loadManifest := by
    rw [hw₃, manifests_run hload, hread]
  have h₃ : AtMost w₃ (b + saves t₁ + saves t₂) := by
    have := @atMost_run calls [(i, RecordStep.readManifest)] _ _ h₁
    rw [hzero, Nat.add_zero] at this
    exact atMost_run t₂ this
  have h₄ : AtMost ([(i, RecordStep.writeManifest)].foldl (recordStep calls) w₃) (b + saves t₁ + saves t₂) := by
    rw [List.foldl_cons, List.foldl_nil, recordStep]
    simp only [ho, hman]
    refine ⟨?_, h₃.2⟩
    change (w₁.store.loadManifest.addRecord o).records.length ≤ _
    rw [TrekManifest.length_records_addRecord]
    have := h₁.1
    omega
  have := (@atMost_run calls t₃ _ _ h₄).1
  simp only [saves_append, hone, hzero]
  omega

/-! ### Any calls -/

/-- The calls that do something. -/
def recording (calls : List RecordOptions) (i : ℕ) : Bool := calls[i]?.any fun o => validRelPath o.relPath

theorem getElem?_recordThreads (calls : List RecordOptions) (i : ℕ) :
    (recordThreads calls)[i]? = calls[i]?.map fun o => (recordSteps o).map fun s => (i, s) := by
  rw [recordThreads, List.getElem?_map, List.getElem?_zipIdx, Option.map_map, Nat.zero_add]
  rfl

theorem complete_recordTrace (schedule : List ℕ) (calls : List RecordOptions) :
    Complete (recording calls) (recordTrace schedule calls) := by
  have howner : ∀ (j : ℕ) (t : List (ℕ × RecordStep)), (recordThreads calls)[j]? = some t → ∀ x ∈ t, x.1 = j := by
    intro j t hj x hx
    rw [getElem?_recordThreads, Option.map_eq_some_iff] at hj
    obtain ⟨o, -, rfl⟩ := hj
    obtain ⟨s, -, rfl⟩ := List.mem_map.mp hx
    rfl
  intro i
  rw [stepsOf, recordTrace, interleave_filter i schedule _ howner, getElem?_recordThreads, recording]
  cases calls[i]? with
  | none => rfl
  | some o =>
    rw [Option.map_some, Option.getD_some, List.map_map, show Prod.snd ∘ (fun s : RecordStep => (i, s)) = id from rfl,
      List.map_id]
    rfl

theorem saves_recordThreads : ∀ (calls : List RecordOptions) (k : ℕ),
    saves ((calls.zipIdx k).map fun c => (recordSteps c.1).map fun s => (c.2, s)).flatten =
      calls.countP fun o => validRelPath o.relPath
  | [], _ => rfl
  | o :: calls, k => by
    rw [List.zipIdx_cons, List.map_cons, List.flatten_cons, saves_append, saves_recordThreads calls,
      List.countP_cons, Nat.add_comm]
    congr 1
    rw [recordSteps]
    split <;> rfl

/-- Every call that does something writes one manifest. -/
theorem saves_recordTrace (schedule : List ℕ) (calls : List RecordOptions) :
    saves (recordTrace schedule calls) = calls.countP fun o => validRelPath o.relPath :=
  ((interleave_perm schedule _).countP_eq _).trans (saves_recordThreads calls 0)

theorem savedCalls_recordTrace (schedule : List ℕ) {calls : List RecordOptions}
    (h : ∀ o ∈ calls, validRelPath o.relPath = true) :
    (savedCalls calls (recordTrace schedule calls)).Perm calls := by
  have key : savedCalls calls (recordThreads calls).flatten = calls := by
    have hone : ∀ c ∈ calls.zipIdx, savedCalls calls ((recordSteps c.1).map fun s => (c.2, s)) = [c.1] := by
      intro c hc
      have hget : calls[c.2]? = some c.1 := List.mem_zipIdx_iff_getElem?.mp hc
      rw [recordSteps, if_pos (h _ (List.mem_of_getElem? hget))]
      simp [savedCalls, recordProgram, hget]
    rw [recordThreads, ← List.flatMap_def, savedCalls, List.filterMap_flatMap]
    calc calls.zipIdx.flatMap (fun c => savedCalls calls ((recordSteps c.1).map fun s => (c.2, s)))
        = calls.zipIdx.flatMap (fun c => [c.1]) := List.flatMap_congr hone
      _ = calls.zipIdx.map Prod.fst := List.map_eq_flatMap.symm
      _ = calls := List.zipIdx_map_fst 0 calls
  have hperm : (savedCalls calls (recordTrace schedule calls)).Perm (savedCalls calls (recordThreads calls).flatten) :=
    (interleave_perm schedule (recordThreads calls)).filterMap _
  rwa [key] at hperm

/-- **No version record is lost exactly when no two calls overlap.** Of any calls on
a consistent store, under any interleaving of their file operations, the manifest
ends with one record per call, with different versions and readable artifacts, if
and only if `record` takes all their paths and between a call's reading of the
manifest and its writing it no call writes it. -/
theorem record_noneLost_iff (schedule : List ℕ) (calls : List RecordOptions) (s : TrekStore)
    (hs : s.Consistent) :
    TrekStore.NoneLost s calls (recordAll schedule calls s) ↔
      (∀ o ∈ calls, validRelPath o.relPath = true) ∧ Undisturbed (recordTrace schedule calls) := by
  have hc := complete_recordTrace schedule calls
  have hP : ∀ i, recording calls i = true → ∃ o, calls[i]? = some o ∧ validRelPath o.relPath = true :=
    fun i hi => (Option.any_eq_true _ _).mp hi
  constructor
  · rintro ⟨⟨new, hnew, hperm⟩, -⟩
    -- one record per call is more than the calls can have saved otherwise
    have hcount : (recordAll schedule calls s).loadManifest.records.length =
        s.loadManifest.records.length + calls.length := by
      rw [TrekManifest.records_eq, TrekManifest.records_eq, List.length_map, List.length_map, hperm.length_eq,
        List.length_append, hnew.length_eq]
    have hstart : AtMost ⟨s, fun _ => none⟩ s.loadManifest.records.length := ⟨le_refl _, fun _ _ h => by cases h⟩
    have hsaves := saves_recordTrace schedule calls
    have hle : saves (recordTrace schedule calls) ≤ calls.length := hsaves ▸ List.countP_le_length
    constructor
    · have hrun := (@atMost_run calls (recordTrace schedule calls) _ _ hstart).1
      change (recordAll schedule calls s).loadManifest.records.length ≤ _ at hrun
      have heq : calls.countP (fun o => validRelPath o.relPath) = calls.length := by omega
      exact List.countP_eq_length.mp heq
    · by_contra hu
      have hlt := count_of_disturbed hc (fun i hi => (hP i hi).imp fun _ h => h.1) hu hstart
      change (recordAll schedule calls s).loadManifest.records.length < _ at hlt
      omega
  · rintro ⟨hvalid, hu⟩
    obtain ⟨hcons, ⟨new, hnew, hperm⟩, -⟩ :=
      run_undisturbed calls _ _ _ (le_refl _) hc hu hP ⟨s, fun _ => none⟩ hs
    obtain ⟨new', hnew', hperm'⟩ := List.perm_comp_forall₂ (savedCalls_recordTrace schedule hvalid).symm hnew
    exact ⟨⟨new', hnew', hperm.trans (hperm'.symm.append_left _)⟩, hcons⟩

/-- A `write` of prompt 1 that makes a file. -/
def createCall (relPath : String) : RecordOptions :=
  ⟨1, "p1", some ("p1:" ++ relPath), relPath, .create, .absent, none⟩

theorem consistent_new : TrekStore.new.Consistent :=
  ⟨fun _ h => (nomatch h), List.Pairwise.nil, fun _ h => (nomatch h)⟩

/-- Two calls of a group both read the manifest before either has written it: one
record is lost. -/
theorem record_loses : TrekStore.new.Consistent ∧
    ¬ TrekStore.NoneLost .new [createCall "a.ts", createCall "b.ts"]
      (recordAll [0, 1] [createCall "a.ts", createCall "b.ts"] .new) := by
  refine ⟨consistent_new, fun h => ?_⟩
  obtain ⟨new, hnew, hperm⟩ := h.one
  have hlen := hperm.length_eq
  rw [List.length_append, ← hnew.length_eq] at hlen
  exact absurd hlen (by decide)

theorem undisturbed_of_saves {t : List (ℕ × RecordStep)} (h : saves t ≤ 1) : Undisturbed t := by
  rintro i j t₁ t₂ t₃ rfl hj
  have hpos : 0 < saves t₂ := List.countP_pos_iff.mpr ⟨_, hj, by simp⟩
  have hlast : 0 < saves ((i, .writeManifest) :: t₃) := List.countP_pos_iff.mpr ⟨_, List.mem_cons_self, by simp⟩
  have hmid : saves ((i, .readManifest) :: t₂) = saves t₂ := List.countP_cons_of_neg (by simp)
  rw [saves_append, saves_append, hmid] at h
  omega

theorem record_noneLost_iff_one :
    TrekStore.NoneLost .new [createCall "a.ts"] (recordAll [] [createCall "a.ts"] .new) :=
  (record_noneLost_iff [] [createCall "a.ts"] .new consistent_new).mpr
    ⟨by decide, undisturbed_of_saves (by decide)⟩

end Trek
