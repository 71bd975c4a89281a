/-
# Undoing edits is exact

Runs of a session: prompts capture and change files, the operator changes files
too, undoes batches, keeps them all or resumes the session from its file. What
an undo writes back is what was on disk before the first batch it undoes touched
the file. The invariant (`Exact`) says of every pre-image which state of the
run it shows; one step keeps it (`exact_step`) and so do runs (`exact_run`).
-/
import Trek.Undo.Checkpoints

namespace Trek

open EditCheckpointManager

/-- What can happen to the checkpoints and to the files. -/
inductive EditEvent
  /-- `capture`, its read succeeding. -/
  | capture (promptNumber : ℤ) (promptId path : String)
  /-- `capture`, its read throwing if it is made. -/
  | captureFails (promptNumber : ℤ) (promptId path : String)
  /-- A prompt's change: `none` deletes the file. -/
  | change (promptNumber : ℤ) (path : String) (content : Option String)
  /-- Anyone else's change. -/
  | outside (path : String) (content : Option String)
  /-- `hydrate(serialize())`, as when the session is resumed. -/
  | reload
  | undoToPrompt (m : ℤ)
  | undoLastBatches (n : ℤ)
  | keepAll

namespace EditEvent

/-- The prompt an event is of. -/
def prompt? : EditEvent → Option ℤ
  | capture n _ _ | captureFails n _ _ | change n _ _ => some n
  | _ => none

/-- The event may forget batches. -/
def drops : EditEvent → Bool
  | undoToPrompt _ | undoLastBatches _ | keepAll => true
  | _ => false

/-- The event is a capture or a change of the path by the prompt. -/
inductive Touches (n : ℤ) (p : String) : EditEvent → Prop
  | capture (id : String) : Touches n p (.capture n id p)
  | change (content : Option String) : Touches n p (.change n p content)

theorem Touches.prompt? {n : ℤ} {p : String} {e : EditEvent} (h : Touches n p e) : e.prompt? = some n := by
  cases h <;> rfl

end EditEvent

/-- The checkpoints and the files. -/
structure EditWorld where
  manager : EditCheckpointManager
  disk : Files

namespace EditWorld

/-- One event. -/
def step (w : EditWorld) : EditEvent → EditWorld
  | .capture n id path => { w with manager := (w.manager.capture n id path (.ok (w.disk path))).2 }
  | .captureFails n id path => { w with manager := (w.manager.capture n id path (.error "EISDIR")).2 }
  | .change _ path content | .outside path content => { w with disk := Function.update w.disk path content }
  | .reload => { w with manager := hydrate (some w.manager.serialize) }
  | .undoToPrompt m => let r := w.manager.undoToPrompt m w.disk; ⟨r.2.1, r.2.2⟩
  | .undoLastBatches n => let r := w.manager.undoLastBatches n w.disk; ⟨r.2.1, r.2.2⟩
  | .keepAll => { w with manager := EditCheckpointManager.keepAll }

/-- A run. -/
def run (w : EditWorld) (es : List EditEvent) : EditWorld := es.foldl step w

theorem run_append (w : EditWorld) (es es' : List EditEvent) : w.run (es ++ es') = (w.run es).run es' :=
  List.foldl_append

@[simp] theorem run_snoc (w : EditWorld) (es : List EditEvent) (x : EditEvent) :
    w.run (es ++ [x]) = (w.run es).step x := by
  rw [run_append]
  rfl

/-- No checkpoints yet. -/
def fresh (d : Files) : EditWorld := ⟨⟨[]⟩, d⟩

end EditWorld

open EditWorld

/-- Prompt numbers never decrease, and a change of a path by a prompt comes after
a capture of the path by the prompt, with no undo and no Keep All in between. -/
structure Captured (es : List EditEvent) : Prop where
  ordered : (es.filterMap EditEvent.prompt?).Pairwise (· ≤ ·)
  captured : ∀ es₁ n p c es₂, es = es₁ ++ EditEvent.change n p c :: es₂ →
    ∃ a id, ∃ b : List EditEvent, es₁ = a ++ EditEvent.capture n id p :: b ∧ ∀ e ∈ b, e.drops = false

/-- After the events `before` of the run `es` the path was touched by the prompt
`n`, and the prompt's batch has been recorded ever since. -/
def Touched (w : EditWorld) (es : List EditEvent) (n : ℤ) (p : String) (before : List EditEvent) : Prop :=
  ∃ e : EditEvent, ∃ after, es = before ++ e :: after ∧ e.Touches n p ∧
    ∀ a, a <+: after → (w.run (before ++ e :: a)).manager.Recorded n

/-- After the events `before` a batch in `undone` touched the path, and none did
earlier. -/
def FirstTouched (w : EditWorld) (es : List EditEvent) (undone : List EditBatch) (p : String)
    (before : List EditEvent) : Prop :=
  (∃ b ∈ undone, Touched w es b.promptNumber p before) ∧
    ∀ b ∈ undone, ∀ before', Touched w es b.promptNumber p before' → before.length ≤ before'.length

/-- The undo that ends the run `es` in `w'` is exact. -/
structure UndoneExactly (w : EditWorld) (es : List EditEvent) (undone older : List EditBatch)
    (w' : EditWorld) : Prop where
  /-- Exactly the older batches stay recorded. -/
  batches : w'.manager.batches = older
  /-- A captured path gets what was there before an undone batch first touched it. -/
  restored : ∀ p, (∃ b ∈ undone, b.files.has p = true) →
    ∃ before, FirstTouched w es undone p before ∧ w'.disk p = (w.run before).disk p
  /-- The other files stay. -/
  others : ∀ p, (∀ b ∈ undone, b.files.has p = false) → w'.disk p = (w.run es).disk p
  /-- The undone batches have captured all they touched. -/
  captured : ∀ p before, ∀ b ∈ undone, Touched w es b.promptNumber p before → b.files.has p = true

/-- The events of a tool call that changes one file: `beforeToolCall` captures,
then the tool changes. -/
def EditEvent.ofCall (n : ℤ) (id p : String) (content : Option String) : List EditEvent :=
  [.capture n id p, .change n p content]

/-- Calls one after another capture what they change. -/
theorem captured_calls : ∀ {calls : List (ℤ × String × String × Option String)},
    (calls.map Prod.fst).Pairwise (· ≤ ·) →
    Captured (calls.flatMap fun c => EditEvent.ofCall c.1 c.2.1 c.2.2.1 c.2.2.2)
  | [], _ => ⟨List.Pairwise.nil, fun es₁ _ _ _ _ he => by simp at he⟩
  | (n, id, p, c) :: calls, h => by
    rw [List.map_cons, List.pairwise_cons] at h
    have ih := captured_calls h.2
    have hmem : ∀ m ∈ (calls.flatMap fun c => EditEvent.ofCall c.1 c.2.1 c.2.2.1 c.2.2.2).filterMap
        EditEvent.prompt?, n ≤ m := by
      intro m hm
      simp only [List.mem_filterMap, List.mem_flatMap, EditEvent.ofCall, List.mem_cons, List.not_mem_nil,
        or_false] at hm
      obtain ⟨e, ⟨call, hcall, rfl | rfl⟩, he⟩ := hm <;>
      · obtain rfl : call.1 = m := by simpa [EditEvent.prompt?] using he
        exact h.1 _ (List.mem_map.mpr ⟨call, hcall, rfl⟩)
    refine ⟨?_, fun es₁ n' p' c' es₂ he => ?_⟩
    · rw [List.flatMap_cons, EditEvent.ofCall]
      simp only [List.cons_append, List.nil_append, List.filterMap_cons, EditEvent.prompt?, List.pairwise_cons,
        List.mem_cons, forall_eq_or_imp, le_refl, true_and]
      exact ⟨hmem, hmem, ih.ordered⟩
    · rw [List.flatMap_cons, EditEvent.ofCall] at he
      rcases es₁ with _ | ⟨e₁, _ | ⟨e₂, es₁⟩⟩
      · simp at he
      · simp only [List.cons_append, List.nil_append, List.cons.injEq, EditEvent.change.injEq] at he
        obtain ⟨rfl, ⟨rfl, rfl, rfl⟩, -⟩ := he
        exact ⟨[], id, [], rfl, fun e he => by simp at he⟩
      · simp only [List.cons_append, List.nil_append, List.cons.injEq] at he
        obtain ⟨rfl, rfl, he⟩ := he
        obtain ⟨a, id', b, rfl, hb⟩ := ih.captured es₁ n' p' c' es₂ he
        exact ⟨_ :: _ :: a, id', b, rfl, hb⟩

/-! ### One event -/

/-- The pre-image an event records if there is none yet. -/
def EditEvent.records (d : Files) (n : ℤ) (p : String) : EditEvent → Option PreImage
  | .capture n' _ p' => if n = n' ∧ p = p' then some (.ofRead (d p)) else none
  | _ => none

theorem EditEvent.records_eq_some {d : Files} {n : ℤ} {p : String} {x : EditEvent} {pre : PreImage}
    (h : x.records d n p = some pre) : x.Touches n p ∧ pre.file = d p := by
  cases x with
  | capture n' id p' =>
    simp only [records] at h
    split at h
    · rename_i he
      obtain ⟨rfl, rfl⟩ := he
      rw [← Option.some.inj h]
      exact ⟨.capture id, PreImage.file_ofRead _⟩
    · cases h
  | _ => cases h

/-- What one event does to the batches. -/
structure StepFacts (w w' : EditWorld) (x : EditEvent) : Prop where
  sorted : w'.manager.Sorted
  recorded : ∀ n, w'.manager.Recorded n → w.manager.Recorded n ∨ x.prompt? = some n
  pre : ∀ n p, w'.manager.Recorded n →
    w'.manager.getPreImage n p = (w.manager.getPreImage n p).or (x.records w.disk n p)
  kept : x.drops = false → ∀ n p, (w.manager.getPreImage n p).isSome → (w'.manager.getPreImage n p).isSome

/-- Undoing forgets a suffix of the batches. -/
theorem undo_eq_take (m : EditCheckpointManager) (d : Files) :
    (∀ k, ∃ i, (m.undoToPrompt k d).2.1 = ⟨m.batches.take i⟩) ∧
    ∀ k, ∃ i, (m.undoLastBatches k d).2.1 = ⟨m.batches.take i⟩ := by
  have hself : m = ⟨m.batches.take m.batches.length⟩ := by rw [List.take_length]
  constructor
  · intro k
    unfold undoToPrompt
    split
    · exact ⟨_, hself⟩
    · exact ⟨_, rfl⟩
  · intro k
    unfold undoLastBatches
    split
    · exact ⟨_, hself⟩
    · exact ⟨_, rfl⟩

theorem step_facts {w : EditWorld} (h : w.manager.Sorted) (x : EditEvent) : StepFacts w (w.step x) x := by
  have hsame : ∀ y : EditEvent, (∀ d n p, y.records d n p = none) → ∀ m' : EditCheckpointManager, ∀ d,
      m'.Sorted → (∀ n, m'.Recorded n → w.manager.Recorded n ∨ y.prompt? = some n) →
      (∀ n p, m'.getPreImage n p = w.manager.getPreImage n p) → StepFacts w ⟨m', d⟩ y :=
    fun y hy m' d hs hr hp => ⟨hs, hr, fun n p _ => by rw [hp, hy, Option.or_none],
      fun _ n p hsome => by rwa [hp]⟩
  have htake : ∀ y : EditEvent, (∀ d n p, y.records d n p = none) → y.drops = true → ∀ i d,
      StepFacts w ⟨⟨w.manager.batches.take i⟩, d⟩ y := fun y hy hd i d => by
    obtain ⟨hs, hr, hp⟩ := take_facts h i
    exact ⟨hs, fun n hn => Or.inl (hr n hn), fun n p hn => by rw [hy, Option.or_none]; exact hp n p hn,
      fun hno => absurd hd (by rw [hno]; decide)⟩
  cases x with
  | capture n id p =>
    obtain ⟨hs, hr, hp⟩ := restoreCapture_facts h n id p (.ofRead (w.disk p))
    simp only [step, capture_ok]
    refine ⟨hs, fun n' hn' => ((hr n').mp hn').imp_right fun he => by rw [he]; rfl, fun n' p' _ => ?_,
      fun _ n' p' hsome => ?_⟩
    · simp only [hp, EditEvent.records]
      split
      · rename_i he
        obtain ⟨rfl, rfl⟩ := he
        cases w.manager.getPreImage n' p' <;> rfl
      · rw [Option.or_none]
    · simp only [hp]
      split
      · rfl
      · exact hsome
  | captureFails n id p =>
    obtain ⟨hs, -, -, hr, hp⟩ := batchFor_facts h n id
    simp only [step, capture_error]
    exact hsame _ (fun _ _ _ => rfl) _ _ hs (fun n' hn' => ((hr n').mp hn').imp_right fun he => by rw [he]; rfl) hp
  | change n p c => exact hsame _ (fun _ _ _ => rfl) _ _ h (fun _ hn => Or.inl hn) fun _ _ => rfl
  | outside p c => exact hsame _ (fun _ _ _ => rfl) _ _ h (fun _ hn => Or.inl hn) fun _ _ => rfl
  | reload =>
    obtain ⟨hs, hr, hp⟩ := reload_facts h
    exact hsame _ (fun _ _ _ => rfl) _ _ hs (fun n hn => Or.inl (hr n hn)) hp
  | undoToPrompt k =>
    obtain ⟨i, hi⟩ := (undo_eq_take w.manager w.disk).1 k
    simp only [step, hi]
    exact htake _ (fun _ _ _ => rfl) rfl i _
  | undoLastBatches k =>
    obtain ⟨i, hi⟩ := (undo_eq_take w.manager w.disk).2 k
    simp only [step, hi]
    exact htake _ (fun _ _ _ => rfl) rfl i _
  | keepAll =>
    have := htake .keepAll (fun _ _ _ => rfl) rfl 0 w.disk
    rwa [List.take_zero] at this

/-! ### Runs -/

theorem run_sorted (d : Files) (es : List EditEvent) : ((fresh d).run es).manager.Sorted := by
  induction es using List.reverseRecOn with
  | nil => exact sorted_empty
  | append_singleton es x ih =>
    rw [run_snoc]
    exact (step_facts ih x).sorted

/-- A captured path stays captured until batches are dropped. -/
theorem getPreImage_run {w : EditWorld} {n : ℤ} {p : String} : ∀ {es : List EditEvent},
    (∀ es₁, es₁ <+: es → (w.run es₁).manager.Sorted) → (∀ e ∈ es, e.drops = false) →
    (w.manager.getPreImage n p).isSome → ((w.run es).manager.getPreImage n p).isSome := by
  intro es
  induction es using List.reverseRecOn with
  | nil => exact fun _ _ h => h
  | append_singleton es x ih =>
    intro hs hd h
    rw [run_snoc]
    have hsub : es <+: es ++ [x] := List.prefix_append es [x]
    exact (step_facts (hs es hsub) x).kept (hd x (by simp)) n p
      (ih (fun es₁ h₁ => hs es₁ (h₁.trans hsub)) (fun e he => hd e (List.mem_append_left _ he)) h)

/-- What a longer run adds to the touches. -/
theorem touched_snoc {w : EditWorld} {es : List EditEvent} {x : EditEvent} {n : ℤ} {p : String}
    {before : List EditEvent} : Touched w (es ++ [x]) n p before ↔
      (Touched w es n p before ∨ before = es ∧ x.Touches n p) ∧ (w.run (es ++ [x])).manager.Recorded n := by
  constructor
  · rintro ⟨e, after, he, ht, hrec⟩
    have hlast : (w.run (es ++ [x])).manager.Recorded n := by
      have := hrec after (List.prefix_refl _)
      rwa [← he] at this
    refine ⟨?_, hlast⟩
    rcases List.eq_nil_or_concat after with rfl | ⟨after', y, rfl⟩
    · obtain ⟨rfl, hx⟩ := List.append_inj' he rfl
      obtain rfl : x = e := by simpa using hx
      exact Or.inr ⟨rfl, ht⟩
    · rw [List.concat_eq_append, ← List.cons_append, ← List.append_assoc] at he
      obtain ⟨rfl, -⟩ := List.append_inj' he rfl
      refine Or.inl ⟨e, after', rfl, ht, fun a ha => hrec a (ha.trans ?_)⟩
      rw [List.concat_eq_append]
      exact List.prefix_append _ _
  · rintro ⟨⟨e, after, rfl, ht, hrec⟩ | ⟨rfl, ht⟩, hlast⟩
    · refine ⟨e, after ++ [x], by simp, ht, fun a ha => ?_⟩
      rcases List.prefix_concat_iff.mp ha with rfl | ha
      · simpa using hlast
      · exact hrec a ha
    · refine ⟨x, [], rfl, ht, fun a ha => ?_⟩
      rw [List.prefix_nil.mp ha]
      exact hlast

theorem Touched.lt {w : EditWorld} {es : List EditEvent} {n : ℤ} {p : String} {before : List EditEvent}
    (h : Touched w es n p before) : before.length < es.length := by
  obtain ⟨e, after, rfl, -⟩ := h
  simp

theorem Touched.prompt_mem {w : EditWorld} {es : List EditEvent} {n : ℤ} {p : String} {before : List EditEvent}
    (h : Touched w es n p before) : n ∈ es.filterMap EditEvent.prompt? := by
  obtain ⟨e, after, rfl, ht, -⟩ := h
  exact List.mem_filterMap.mpr ⟨e, by simp, ht.prompt?⟩

theorem Captured.of_snoc {es : List EditEvent} {x : EditEvent} (h : Captured (es ++ [x])) : Captured es := by
  refine ⟨?_, fun es₁ n p c es₂ he => h.captured es₁ n p c (es₂ ++ [x]) (by rw [he]; simp)⟩
  have := h.ordered
  rw [List.filterMap_append] at this
  exact (List.pairwise_append.mp this).1

/-- Every pre-image shows its file before the prompt, or a later one, first touched
it, and every path a recorded batch touched has one. -/
structure Exact (w : EditWorld) (es : List EditEvent) : Prop where
  pre : ∀ n p pre, (w.run es).manager.getPreImage n p = some pre →
    ∃ before, Touched w es n p before ∧ pre.file = (w.run before).disk p ∧
      ∀ n' before', n ≤ n' → Touched w es n' p before' → before.length ≤ before'.length
  touched : ∀ n p before, Touched w es n p before → ((w.run es).manager.getPreImage n p).isSome

theorem exact_step {d : Files} {es : List EditEvent} {x : EditEvent} (h : Captured (es ++ [x]))
    (ih : Exact (fresh d) es) : Exact (fresh d) (es ++ [x]) := by
  have hf := step_facts (run_sorted d es) x
  rw [← run_snoc] at hf
  have hold : ∀ n p, ((fresh d).run (es ++ [x])).manager.Recorded n →
      (((fresh d).run es).manager.getPreImage n p).isSome →
      (((fresh d).run (es ++ [x])).manager.getPreImage n p).isSome := fun n p hn hsome => by
    obtain ⟨pre, hpre⟩ := Option.isSome_iff_exists.mp hsome
    rw [hf.pre n p hn, hpre]
    rfl
  refine ⟨fun n p pre hpre => ?_, fun n p before ht => ?_⟩
  · have hn := recorded_of_getPreImage hpre
    rw [hf.pre n p hn, Option.or_eq_some_iff] at hpre
    rcases hpre with hpre | ⟨hnone, hrec⟩
    · -- an older pre-image: the new event comes after all older touches
      obtain ⟨before, ht, hfile, hmin⟩ := ih.pre n p pre hpre
      refine ⟨before, touched_snoc.mpr ⟨Or.inl ht, hn⟩, hfile, fun n' before' hle ht' => ?_⟩
      rcases (touched_snoc.mp ht').1 with h' | ⟨rfl, -⟩
      · exact hmin n' before' hle h'
      · exact le_of_lt ht.lt
    · -- a new one: an older touch by this prompt or a later one would be this prompt's
      obtain ⟨htx, hfile⟩ := EditEvent.records_eq_some hrec
      refine ⟨es, touched_snoc.mpr ⟨Or.inr ⟨rfl, htx⟩, hn⟩, hfile, fun n' before' hle ht' => ?_⟩
      rcases (touched_snoc.mp ht').1 with h' | ⟨rfl, -⟩
      · have hord := h.ordered
        rw [List.filterMap_append, List.filterMap_cons_some htx.prompt?] at hord
        have hle' : n' ≤ n := (List.pairwise_append.mp hord).2.2 n' h'.prompt_mem n (by simp)
        obtain rfl : n = n' := le_antisymm hle hle'
        rw [← Option.not_isSome_iff_eq_none] at hnone
        exact absurd (ih.touched n p before' h') hnone
      · exact le_refl _
  · obtain ⟨ht | ⟨rfl, htx⟩, hn⟩ := touched_snoc.mp ht
    · exact hold n p hn (ih.touched n p before ht)
    · cases htx with
      | capture id =>
        rw [hf.pre n p hn, EditEvent.records, if_pos ⟨rfl, rfl⟩]
        cases ((fresh d).run before).manager.getPreImage n p <;> rfl
      | change c =>
        refine hold n p hn ?_
        obtain ⟨a, id, b, rfl, hb⟩ := h.captured before n p c [] rfl
        rw [List.append_cons, run_append]
        refine getPreImage_run (fun es₁ h₁ => ?_) hb ?_
        · rw [← run_append]
          exact run_sorted d _
        · rw [run_snoc]
          obtain ⟨-, hr, hp⟩ := restoreCapture_facts (run_sorted d a) n id p (.ofRead (((fresh d).run a).disk p))
          simp only [step, capture_ok, hp, and_self, ↓reduceIte, Option.isSome_some]

theorem exact_run {d : Files} {es : List EditEvent} (h : Captured es) : Exact (fresh d) es := by
  induction es using List.reverseRecOn with
  | nil =>
    refine ⟨fun n p pre hpre => (nomatch hpre), fun n p before ht => ?_⟩
    exact absurd ht.lt (Nat.not_lt_zero _)
  | append_singleton es x ih => exact exact_step h (ih h.of_snoc)

/-! ### The undo -/

theorem undoneExactly_nil {w : EditWorld} {es : List EditEvent} :
    UndoneExactly w es [] (w.run es).manager.batches (w.run es) :=
  ⟨rfl, fun _ h => by simp at h, fun _ _ => rfl, fun _ _ _ h => by simp at h⟩

/-- Undoing any suffix of the batches is exact. -/
theorem undoSuffix_exact {d : Files} {es : List EditEvent} (h : Captured es) (i : ℕ) :
    let w := (fresh d).run es
    UndoneExactly (fresh d) es (w.manager.batches.drop i) (w.manager.batches.take i)
      ⟨(w.manager.undoSuffix i w.disk).2.1, (w.manager.undoSuffix i w.disk).2.2⟩ := by
  intro w
  have hs : w.manager.Sorted := run_sorted d es
  have hex : Exact (fresh d) es := exact_run h
  have hcap : ∀ p before, ∀ b ∈ w.manager.batches.drop i, Touched (fresh d) es b.promptNumber p before →
      b.files.has p = true := by
    intro p before b hb ht
    have := hex.touched _ _ _ ht
    rwa [getPreImage, hs.find?.mpr ⟨List.mem_of_mem_drop hb, rfl⟩] at this
  refine ⟨rfl, fun p hp => ?_, fun p hp => ?_, hcap⟩
  · change ∃ before, _ ∧ (w.manager.undoSuffix i w.disk).2.2 p = _
    obtain ⟨b₀, hb₀, hhas⟩ := hp
    -- the first batch of the window that has the path
    obtain ⟨pre, hpre⟩ : ∃ pre, (w.manager.batches.drop i).findSome? (fun b => b.files.get? p) = some pre := by
      rw [← Option.isSome_iff_exists, List.findSome?_isSome_iff]
      exact ⟨b₀, hb₀, hhas⟩
    obtain ⟨l₁, b, l₂, hl, hget, hnone⟩ := List.findSome?_eq_some_iff.mp hpre
    have hb : b ∈ w.manager.batches.drop i := by rw [hl]; simp
    have hpb : w.manager.getPreImage b.promptNumber p = some pre :=
      hs.getPreImage.mpr ⟨b, List.mem_of_mem_drop hb, rfl, hget⟩
    obtain ⟨before, ht, hfile, hmin⟩ := hex.pre _ _ _ hpb
    refine ⟨before, ⟨⟨b, hb, ht⟩, fun b' hb' before' ht' => hmin _ _ ?_ ht'⟩, ?_⟩
    · have hord : (l₁ ++ b :: l₂).Pairwise fun a b => a.promptNumber < b.promptNumber := by
        rw [← hl]
        exact hs.drop
      have hmem := hb'
      rw [hl, List.mem_append, List.mem_cons] at hmem
      rcases hmem with h₁ | rfl | h₂
      · have hno := hnone b' h₁
        have hyes := hcap p before' b' hb' ht'
        rw [OrdMap.has, hno] at hyes
        cases hyes
      · exact le_refl _
      · exact le_of_lt ((List.pairwise_cons.mp (List.pairwise_append.mp hord).2.1).1 b' h₂)
    · rw [undoSuffix_disk, hpre, Option.map_some, Option.getD_some, hfile]
  · change (w.manager.undoSuffix i w.disk).2.2 p = w.disk p
    have hnone : (w.manager.batches.drop i).findSome? (fun b => b.files.get? p) = none := by
      refine List.findSome?_eq_none_iff.mpr fun b hb => ?_
      have := hp b hb
      rwa [OrdMap.has, Option.isSome_eq_false_iff, Option.isNone_iff_eq_none] at this
    rw [undoSuffix_disk, hnone]
    rfl

/-- **Undo is exact.** After any run in which prompts capture what they change,
with reloads, undos and changes by others at any point, the batches are in the
order of their prompts, and undoing back to a prompt, or the newest batches,
gives every path the undone batches captured the content it had before the
first of them touched it, leaves the other files and keeps the older batches. -/
theorem undo_exact (d : Files) (es : List EditEvent) (h : Captured es) :
    let w := (fresh d).run es
    (w.manager.batches.map EditBatch.promptNumber).Pairwise (· < ·) ∧
    (∀ m : ℤ, UndoneExactly (fresh d) es (w.manager.batches.filter (m ≤ ·.promptNumber))
      (w.manager.batches.filter (·.promptNumber < m)) (w.step (.undoToPrompt m))) ∧
    ∀ k : ℤ, UndoneExactly (fresh d) es (w.manager.batches.drop (w.manager.batches.length - k.toNat))
      (w.manager.batches.take (w.manager.batches.length - k.toNat)) (w.step (.undoLastBatches k)) := by
  intro w
  have hs : w.manager.Sorted := run_sorted d es
  refine ⟨List.pairwise_map.mpr hs, fun m => ?_, fun k => ?_⟩
  · have hidx := findIdx?_promptNumber m hs
    simp only [step, undoToPrompt]
    split at hidx
    · rename_i hf
      rw [hf, hidx.1, hidx.2]
      exact undoneExactly_nil
    · rename_i i hf
      rw [hf, hidx.1, hidx.2]
      exact undoSuffix_exact h i
  · simp only [step, undoLastBatches]
    split
    · rename_i hk
      have hlen : w.manager.batches.length - k.toNat = w.manager.batches.length := by omega
      rw [hlen, List.drop_length, List.take_length]
      exact undoneExactly_nil
    · have hidx : (max 0 ((w.manager.batches.length : ℤ) - k)).toNat = w.manager.batches.length - k.toNat := by
        omega
      rw [hidx]
      exact undoSuffix_exact h _

/-- Prompt 1 changes a file, prompt 2 deletes it and makes another. -/
def changeThenDelete : List EditEvent :=
  EditEvent.ofCall 1 "p1" "a.txt" (some "B") ++ EditEvent.ofCall 2 "p2" "a.txt" none ++
    EditEvent.ofCall 2 "p2" "b.txt" (some "C")

/-- There is one file. -/
def oneFile : Files := Files.write (fun _ => none) "a.txt" "A"

theorem undo_exact_changeThenDelete :
    let w := (fresh oneFile).run changeThenDelete
    UndoneExactly (fresh oneFile) changeThenDelete w.manager.batches [] (w.step (.undoToPrompt 1)) ∧
    (w.disk "a.txt", w.disk "b.txt") = (none, some "C") ∧
    ((w.step (.undoToPrompt 1)).disk "a.txt", (w.step (.undoToPrompt 1)).disk "b.txt") = (some "A", none) ∧
    ((w.step (.undoLastBatches 1)).disk "a.txt", (w.step (.undoLastBatches 1)).disk "b.txt") =
      (some "B", none) := by
  have hc : Captured changeThenDelete := @captured_calls
    [(1, "p1", "a.txt", some "B"), (2, "p2", "a.txt", none), (2, "p2", "b.txt", some "C")] (by decide)
  refine ⟨(undo_exact oneFile changeThenDelete hc).2.1 1, ?_, ?_, ?_⟩ <;> decide

end Trek
