/-
# Traces of the reflective loop

`runPromptCycle` takes the next cycle number, goes through its phases and writes the trace of the cycle and a
checkpoint with its number, in one go, at each of its exits: blocked by the policy, stopped by the effort
regulator, closed by the operator mode, or done. A new controller goes on from the last checkpoint of the
session. Numbers go up and ids stay apart whatever happens; a cycle has its trace and its checkpoint if and
only if no callback of it throws (`cycle_traced_iff`).
-/
import Trek.Lib.Text

namespace Trek.Trace

/-! ### Entries -/

/-- `text.padStart(length, c)`. -/
def padStart (length : ℕ) (c : Char) (text : List Char) : List Char := List.replicate (length - text.length) c ++ text

/-- `createCycleId`. -/
def createCycleId (cycleNumber : ℕ) : String := "c-" ++ String.ofList (padStart 4 '0' (Nat.toDigits 10 cycleNumber))

/-- `ReflectiveCycleTrace`: its number and id, its prompt, and why it was blocked or skipped. -/
structure ReflectiveCycleTrace where
  cycleId : String
  cycleNumber : ℕ
  promptId : Option String
  intendBlock : Option (Option String)
  actBlock : Option String
  deriving DecidableEq

/-- `CycleCheckpoint`. -/
structure CycleCheckpoint where
  cycleId : String
  cycleNumber : ℕ
  promptId : Option String
  deriving DecidableEq

/-- What an entry of a session holds. -/
inductive EntryData
  | reflectiveCycle (trace : ReflectiveCycleTrace)
  | cycleCheckpoint (checkpoint : CycleCheckpoint)
  | other
  deriving DecidableEq

/-- `SessionEntry`. -/
structure SessionEntry where
  id : String
  data : EntryData
  deriving DecidableEq

/-- `LocatedCycleTrace`. -/
structure LocatedCycleTrace where
  entryId : String
  trace : ReflectiveCycleTrace
  deriving DecidableEq

/-- The trace that an entry holds, with the id of the entry. -/
def SessionEntry.located? (entry : SessionEntry) : Option LocatedCycleTrace :=
  match entry.data with
  | .reflectiveCycle trace => some ⟨entry.id, trace⟩
  | _ => none

/-- The checkpoint that an entry holds. -/
def SessionEntry.checkpoint? (entry : SessionEntry) : Option CycleCheckpoint :=
  match entry.data with
  | .cycleCheckpoint checkpoint => some checkpoint
  | _ => none

/-- `locateCycleTraces`. -/
def locateCycleTraces (entries : List SessionEntry) : List LocatedCycleTrace := entries.filterMap SessionEntry.located?

/-- The checkpoints of a session. -/
def checkpoints (entries : List SessionEntry) : List CycleCheckpoint := entries.filterMap SessionEntry.checkpoint?

/-- `getLatestCycleCheckpoint`. -/
def getLatestCycleCheckpoint (entries : List SessionEntry) : Option CycleCheckpoint := (checkpoints entries).getLast?

/-- `getReflectiveCycleCount`. -/
def getReflectiveCycleCount (entries : List SessionEntry) : ℕ :=
  match getLatestCycleCheckpoint entries with
  | some checkpoint => checkpoint.cycleNumber
  | none => (locateCycleTraces entries).length

/-- `findCycleTrace`. `positiveInteger` is `Number(needle)`, if it is an integer above zero. -/
def findCycleTrace (positiveInteger : String → Option ℕ) (entries : List SessionEntry) (selector : String) : Option LocatedCycleTrace :=
  let needle := jsTrim selector
  if needle = "" then none
  else
    let located := locateCycleTraces entries
    match located.find? (·.trace.cycleId = needle) with
    | some item => some item
    | none =>
      match located.find? (·.entryId = needle) with
      | some item => some item
      | none =>
        if needle.toList.head? = some '#' then located.find? (·.trace.promptId = some needle)
        else (positiveInteger needle).bind fun number => located.find? (·.trace.cycleNumber = number)

/-! ### Cycles -/

/-- A session and the counter of its controller. -/
structure Controller where
  entries : List SessionEntry
  cycleSeq : Option ℕ

/-- What a callback does to the session: the entries that it adds, and the error that it throws. -/
structure Callback where
  entryIds : List String
  error : Option String

/-- `RunPromptCycleOptions`, with what the checks and callbacks of the cycle say and the ids of the entries that it
writes. -/
structure CycleOptions where
  promptId : Option String
  /-- The error of `selectForTurn`. -/
  selection : Option String
  /-- The reason of the policy, which may be missing, if it blocks the task. -/
  policy : Option (Option String)
  /-- `effortRegulator.stopReason()`. -/
  effortStop : Option String
  /-- `phaseAllowed("act")`. -/
  actAllowed : Bool
  /-- The error of `onDomainSelected`. -/
  onDomainSelected : Option String
  act : Callback
  traceEntryId : String
  checkpointEntryId : String

/-- `CHECKPOINT_ACT_REASON`. -/
def CHECKPOINT_ACT_REASON : String := "Checkpoint: the act phase is closed. Open it before the agent runs."

namespace Controller

/-- The number that the next cycle takes. -/
def nextCycleNumber (c : Controller) : ℕ := c.cycleSeq.getD (getReflectiveCycleCount c.entries) + 1

/-- `persistCycleBoundary`. -/
def persistCycleBoundary (c : Controller) (options : CycleOptions) (trace : ReflectiveCycleTrace) : Controller :=
  { c with entries := c.entries ++
      [⟨options.traceEntryId, .reflectiveCycle trace⟩,
        ⟨options.checkpointEntryId, .cycleCheckpoint ⟨trace.cycleId, trace.cycleNumber, trace.promptId⟩⟩] }

/-- Other entries. -/
def append (c : Controller) (ids : List String) : Controller :=
  { c with entries := c.entries ++ ids.map fun id => ⟨id, .other⟩ }

/-- `runPromptCycle`. -/
def runPromptCycle (c : Controller) (options : CycleOptions) : Controller × Except String ReflectiveCycleTrace :=
  let cycleNumber := c.nextCycleNumber
  let c := { c with cycleSeq := some cycleNumber }
  let trace : ReflectiveCycleTrace := ⟨createCycleId cycleNumber, cycleNumber, options.promptId, none, none⟩
  match options.selection with
  | some error => (c, .error error)
  | none =>
    match options.policy with
    | some reason =>
      (c.persistCycleBoundary options { trace with intendBlock := some reason }, .error (reason.getD "Blocked by policy constraints."))
    | none =>
      match options.effortStop with
      | some reason => (c.persistCycleBoundary options { trace with actBlock := some reason }, .error reason)
      | none =>
        if !options.actAllowed then
          (c.persistCycleBoundary options { trace with actBlock := some CHECKPOINT_ACT_REASON }, .error CHECKPOINT_ACT_REASON)
        else
          match options.onDomainSelected with
          | some error => (c, .error error)
          | none =>
            match options.act.error with
            | some error => (c.append options.act.entryIds, .error error)
            | none => ((c.append options.act.entryIds).persistCycleBoundary options trace, .ok trace)

end Controller

/-- What happens to a session. -/
inductive Op
  /-- `runPromptCycle` is called. -/
  | cycle (options : CycleOptions)
  /-- Entries are added outside of cycles. -/
  | append (ids : List String)
  /-- The session is opened by a new controller; without its entries, if none of them was written to the file yet. -/
  | reopen (written : Bool)

/-- One step. -/
def step (c : Controller) : Op → Controller
  | .cycle options => (c.runPromptCycle options).1
  | .append ids => c.append ids
  | .reopen written => ⟨if written then c.entries else [], none⟩

/-- A run from a new session. -/
def run (ops : List Op) : Controller := ops.foldl step ⟨[], none⟩

/-- The call has added exactly one trace and one checkpoint, both with the number it took. -/
def Traced (c c' : Controller) : Prop :=
  ∃ (located : LocatedCycleTrace) (checkpoint : CycleCheckpoint),
    locateCycleTraces c'.entries = locateCycleTraces c.entries ++ [located] ∧
    checkpoints c'.entries = checkpoints c.entries ++ [checkpoint] ∧
      located.trace.cycleNumber = c.nextCycleNumber ∧ checkpoint.cycleNumber = c.nextCycleNumber

/-- No callback of the cycle throws, as far as it gets. -/
def CycleOptions.Returns (options : CycleOptions) : Prop :=
  options.selection = none ∧
    (options.policy = none → options.effortStop = none → options.actAllowed = true →
      options.onDomainSelected = none ∧ options.act.error = none)

/-! ### Ids -/

theorem ofDigitChars_padStart (length n : ℕ) : Nat.ofDigitChars 10 (padStart length '0' (Nat.toDigits 10 n)) 0 = n := by
  rw [padStart, Nat.ofDigitChars_append, Nat.ofDigitChars_replicate_zero, Nat.mul_zero, Nat.ofDigitChars_ten_toDigits]

/-- Cycles with different numbers have different ids. -/
theorem createCycleId_injective : Function.Injective createCycleId := by
  intro m n h
  have hlist := congrArg String.toList h
  simp only [createCycleId, String.toList_append, String.toList_ofList] at hlist
  have hdigits := congrArg (Nat.ofDigitChars 10 · 0) (List.append_cancel_left hlist)
  simp only [ofDigitChars_padStart] at hdigits
  exact hdigits

theorem createCycleId_toList (n : ℕ) :
    ∃ front, ∃ last : Char, (createCycleId n).toList = 'c' :: front ++ [last] ∧ last.isDigit = true := by
  obtain ⟨front, last, hsplit⟩ := List.eq_nil_or_concat' (Nat.toDigits 10 n) |>.resolve_left Nat.toDigits_ne_nil
  refine ⟨'-' :: List.replicate (4 - (Nat.toDigits 10 n).length) '0' ++ front, last, ?_, ?_⟩
  · rw [createCycleId, String.toList_append, String.toList_ofList, padStart]
    simp [hsplit]
  · exact @Nat.isDigit_of_mem_toDigits 10 n last (by decide) (by decide) (by rw [hsplit]; simp)

theorem isJsSpace_of_isDigit {c : Char} (h : c.isDigit = true) : isJsSpace c = false := by
  have hrange : 0x30 ≤ c.toNat ∧ c.toNat ≤ 0x39 := by
    rw [Char.isDigit, Bool.and_eq_true, decide_eq_true_eq, decide_eq_true_eq] at h
    exact h
  unfold isJsSpace
  simp
  omega

/-- A cycle id is not trimmed. -/
theorem jsTrim_createCycleId (n : ℕ) : jsTrim (createCycleId n) = createCycleId n := by
  obtain ⟨front, last, hlist, hdigit⟩ := createCycleId_toList n
  have hlast : isJsSpace last = false := isJsSpace_of_isDigit hdigit
  have hfirst : isJsSpace 'c' = false := by decide
  unfold jsTrim
  rw [hlist, List.cons_append, List.dropWhile_cons_of_neg (by simp [hfirst]), ← List.cons_append, List.reverse_append,
    List.reverse_singleton, List.singleton_append, List.dropWhile_cons_of_neg (by simp [hlast]), ← List.singleton_append,
    ← List.reverse_singleton, ← List.reverse_append, List.reverse_reverse, ← hlist, String.ofList_toList]

theorem createCycleId_ne_empty (n : ℕ) : createCycleId n ≠ "" := by
  obtain ⟨front, last, hlist, -⟩ := createCycleId_toList n
  intro hempty
  rw [hempty] at hlist
  cases hlist

/-! ### Entries that are added -/

variable {entries more : List SessionEntry} {ids : List String}

theorem locateCycleTraces_append (entries more : List SessionEntry) :
    locateCycleTraces (entries ++ more) = locateCycleTraces entries ++ locateCycleTraces more := List.filterMap_append

theorem checkpoints_append (entries more : List SessionEntry) : checkpoints (entries ++ more) = checkpoints entries ++ checkpoints more :=
  List.filterMap_append

theorem locateCycleTraces_others (ids : List String) : locateCycleTraces (ids.map fun id => ⟨id, .other⟩) = [] := by
  rw [locateCycleTraces, List.filterMap_map]
  exact List.filterMap_eq_nil_iff.mpr fun _ _ => rfl

theorem checkpoints_others (ids : List String) : checkpoints (ids.map fun id => ⟨id, .other⟩) = [] := by
  rw [checkpoints, List.filterMap_map]
  exact List.filterMap_eq_nil_iff.mpr fun _ _ => rfl

namespace Controller

@[simp] theorem locate_append (c : Controller) (ids : List String) :
    locateCycleTraces (c.append ids).entries = locateCycleTraces c.entries := by
  rw [append, locateCycleTraces_append, locateCycleTraces_others, List.append_nil]

@[simp] theorem checkpoints_append (c : Controller) (ids : List String) : checkpoints (c.append ids).entries = checkpoints c.entries := by
  rw [append, Trace.checkpoints_append, checkpoints_others, List.append_nil]

@[simp] theorem locate_persist (c : Controller) (options : CycleOptions) (trace : ReflectiveCycleTrace) :
    locateCycleTraces (c.persistCycleBoundary options trace).entries =
      locateCycleTraces c.entries ++ [⟨options.traceEntryId, trace⟩] := by
  rw [persistCycleBoundary, locateCycleTraces_append]
  rfl

@[simp] theorem checkpoints_persist (c : Controller) (options : CycleOptions) (trace : ReflectiveCycleTrace) :
    checkpoints (c.persistCycleBoundary options trace).entries =
      checkpoints c.entries ++ [⟨trace.cycleId, trace.cycleNumber, trace.promptId⟩] := by
  rw [persistCycleBoundary, Trace.checkpoints_append]
  rfl

/-- What a cycle does: it takes its number, and adds its trace and its checkpoint if no callback throws, else nothing
that counts. -/
theorem runPromptCycle_cases (c : Controller) (options : CycleOptions) :
    (c.runPromptCycle options).1.cycleSeq = some c.nextCycleNumber ∧
      (options.Returns ∧ (∃ intendBlock actBlock,
          locateCycleTraces (c.runPromptCycle options).1.entries = locateCycleTraces c.entries ++
            [⟨options.traceEntryId, ⟨createCycleId c.nextCycleNumber, c.nextCycleNumber, options.promptId, intendBlock, actBlock⟩⟩]) ∧
          checkpoints (c.runPromptCycle options).1.entries =
            checkpoints c.entries ++ [⟨createCycleId c.nextCycleNumber, c.nextCycleNumber, options.promptId⟩] ∨
        ¬ options.Returns ∧ locateCycleTraces (c.runPromptCycle options).1.entries = locateCycleTraces c.entries ∧
          checkpoints (c.runPromptCycle options).1.entries = checkpoints c.entries) := by
  unfold runPromptCycle CycleOptions.Returns
  dsimp only
  cases hselection : options.selection with
  | some error => exact ⟨rfl, Or.inr ⟨(fun h => by cases h.1), rfl, rfl⟩⟩
  | none =>
    cases hpolicy : options.policy with
    | some reason =>
      dsimp only
      refine ⟨rfl, Or.inl ⟨⟨rfl, fun h => by cases h⟩, ⟨_, _, locate_persist _ _ _⟩, checkpoints_persist _ _ _⟩⟩
    | none =>
      cases heffort : options.effortStop with
      | some reason =>
        dsimp only
        refine ⟨rfl, Or.inl ⟨⟨rfl, fun _ h => by cases h⟩, ⟨_, _, locate_persist _ _ _⟩, checkpoints_persist _ _ _⟩⟩
      | none =>
        dsimp only
        cases hallowed : options.actAllowed with
        | false =>
          refine ⟨rfl, Or.inl ⟨⟨rfl, fun _ _ h => by cases h⟩, ⟨_, _, locate_persist _ _ _⟩, checkpoints_persist _ _ _⟩⟩
        | true =>
          cases hdomain : options.onDomainSelected with
          | some error => exact ⟨rfl, Or.inr ⟨(fun h => by cases (h.2 rfl rfl rfl).1), rfl, rfl⟩⟩
          | none =>
            cases hact : options.act.error with
            | some error =>
              refine ⟨rfl, Or.inr ⟨(fun h => by cases (h.2 rfl rfl rfl).2), ?_, ?_⟩⟩
              · exact locate_append _ _
              · exact checkpoints_append _ _
            | none =>
              refine ⟨rfl, Or.inl ⟨⟨rfl, fun _ _ _ => ⟨rfl, rfl⟩⟩, ⟨none, none, ?_⟩, ?_⟩⟩
              · exact (locate_persist _ _ _).trans (congrArg (· ++ _) (locate_append _ _))
              · exact (checkpoints_persist _ _ _).trans (congrArg (· ++ _) (checkpoints_append _ _))

end Controller

/-! ### Numbers and ids of a run -/

/-- The cycles of a session are numbered upwards, up to the counter, each with its checkpoint and the id of its number. -/
structure Ordered (c : Controller) : Prop where
  numbers : (locateCycleTraces c.entries).Pairwise (·.trace.cycleNumber < ·.trace.cycleNumber)
  checkpoints : (checkpoints c.entries).map (·.cycleNumber) = (locateCycleTraces c.entries).map (·.trace.cycleNumber)
  ids : ∀ item ∈ locateCycleTraces c.entries, item.trace.cycleId = createCycleId item.trace.cycleNumber
  counter : ∀ n ∈ c.cycleSeq, ∀ item ∈ locateCycleTraces c.entries, item.trace.cycleNumber ≤ n

namespace Ordered

variable {c : Controller}

/-- The last checkpoint has the highest number. -/
theorem le_count (h : Ordered c) : ∀ item ∈ locateCycleTraces c.entries, item.trace.cycleNumber ≤ getReflectiveCycleCount c.entries := by
  intro item hitem
  have hmap := congrArg List.getLast? h.checkpoints
  rw [List.getLast?_map, List.getLast?_map] at hmap
  unfold getReflectiveCycleCount getLatestCycleCheckpoint
  rcases List.eq_nil_or_concat' (locateCycleTraces c.entries) with hnil | ⟨front, last, hsplit⟩
  · rw [hnil] at hitem
    cases hitem
  · rw [hsplit, List.getLast?_concat, Option.map_some] at hmap
    obtain ⟨checkpoint, hlast, hnumber⟩ := Option.map_eq_some_iff.mp hmap
    have hnumbers := h.numbers
    rw [hlast]
    dsimp only
    rw [hnumber]
    rw [hsplit] at hitem hnumbers
    rcases List.mem_append.mp hitem with hfront | hlast
    · exact Nat.le_of_lt ((List.pairwise_append.mp hnumbers).2.2 item hfront last (List.mem_singleton_self last))
    · exact Nat.le_of_eq (congrArg (·.trace.cycleNumber) (List.mem_singleton.mp hlast))

/-- The next number is higher than all numbers of the session. -/
theorem lt_next (h : Ordered c) : ∀ item ∈ locateCycleTraces c.entries, item.trace.cycleNumber < c.nextCycleNumber := by
  intro item hitem
  unfold Controller.nextCycleNumber
  cases hseq : c.cycleSeq with
  | none => exact Nat.lt_succ_of_le (h.le_count item hitem)
  | some n => exact Nat.lt_succ_of_le (h.counter n hseq item hitem)

theorem new (entries : List SessionEntry) (h : locateCycleTraces entries = []) (h' : Trace.checkpoints entries = []) (seq : Option ℕ) :
    Ordered ⟨entries, seq⟩ := by
  refine ⟨?_, ?_, ?_, ?_⟩
  · dsimp only
    rw [h]
    exact .nil
  · dsimp only
    rw [h, h']
    rfl
  · dsimp only
    rw [h]
    exact nofun
  · dsimp only
    rw [h]
    exact nofun

theorem cycle (h : Ordered c) (options : CycleOptions) : Ordered (c.runPromptCycle options).1 := by
  obtain ⟨hseq, ⟨-, ⟨intendBlock, actBlock, hlocate⟩, hcheckpoints⟩ | ⟨-, hlocate, hcheckpoints⟩⟩ := c.runPromptCycle_cases options
  · refine ⟨?_, ?_, ?_, ?_⟩
    · rw [hlocate]
      refine List.pairwise_append.mpr ⟨h.numbers, List.pairwise_singleton _ _, fun item hitem item' hitem' => ?_⟩
      rw [List.mem_singleton.mp hitem']
      exact h.lt_next item hitem
    · rw [hlocate, hcheckpoints, List.map_append, List.map_append, h.checkpoints]
      rfl
    · rw [hlocate]
      refine List.forall_mem_append.mpr ⟨h.ids, List.forall_mem_singleton.mpr rfl⟩
    · intro n hn
      obtain rfl := Option.some.inj (hseq.symm.trans hn)
      rw [hlocate]
      exact List.forall_mem_append.mpr ⟨fun item hitem => Nat.le_of_lt (h.lt_next item hitem), List.forall_mem_singleton.mpr (Nat.le_refl _)⟩
  · refine ⟨hlocate ▸ h.numbers, ?_, hlocate ▸ h.ids, ?_⟩
    · rw [hlocate, hcheckpoints, h.checkpoints]
    · intro n hn
      obtain rfl := Option.some.inj (hseq.symm.trans hn)
      rw [hlocate]
      exact fun item hitem => Nat.le_of_lt (h.lt_next item hitem)

theorem step (h : Ordered c) (op : Op) : Ordered (step c op) := by
  cases op with
  | cycle options => exact h.cycle options
  | append ids =>
    refine ⟨?_, ?_, ?_, ?_⟩ <;> simp only [Trace.step, Controller.locate_append, Controller.checkpoints_append]
    · exact h.numbers
    · exact h.checkpoints
    · exact h.ids
    · exact h.counter
  | reopen written =>
    cases written with
    | false => exact new [] rfl rfl none
    | true => exact ⟨h.numbers, h.checkpoints, h.ids, nofun⟩

/-- A run keeps the order. -/
theorem foldl (ops : List Op) : ∀ {c : Controller}, Ordered c → Ordered (ops.foldl Trace.step c) := by
  induction ops with
  | nil => exact fun h => h
  | cons op ops ih => exact fun h => ih (h.step op)

theorem run (ops : List Op) : Ordered (run ops) := foldl ops (new [] rfl rfl none)

end Ordered

/-! ### Finding a trace -/

/-- No two traces have one id. -/
theorem Ordered.pairwise_ne {c : Controller} (h : Ordered c) :
    (locateCycleTraces c.entries).Pairwise fun a b => a.trace.cycleNumber ≠ b.trace.cycleNumber ∧ a.trace.cycleId ≠ b.trace.cycleId := by
  refine h.numbers.imp_of_mem fun ha hb hlt => ⟨Nat.ne_of_lt hlt, fun heq => Nat.ne_of_lt hlt (createCycleId_injective ?_)⟩
  exact (h.ids _ ha).symm.trans (heq.trans (h.ids _ hb))

/-- The only element of a list with a property is found. -/
theorem find?_eq_of_unique {α : Type*} {p : α → Bool} {a : α} : ∀ {xs : List α}, a ∈ xs → p a = true →
    (xs.Pairwise fun x y => p x = true → p y = true → False) → xs.find? p = some a
  | x :: xs, hmem, ha, hpair => by
    rcases List.mem_cons.mp hmem with rfl | hmem
    · exact List.find?_cons_of_pos ha
    · rw [List.find?_cons_of_neg fun hx => (List.pairwise_cons.mp hpair).1 a hmem hx ha]
      exact find?_eq_of_unique hmem ha (List.pairwise_cons.mp hpair).2

variable {positiveInteger : String → Option ℕ} {c : Controller} {item : LocatedCycleTrace}

/-- A trace is found by its cycle id. -/
theorem find_by_id (h : Ordered c) (hitem : item ∈ locateCycleTraces c.entries) :
    findCycleTrace positiveInteger c.entries item.trace.cycleId = some item := by
  have hfind : (locateCycleTraces c.entries).find? (·.trace.cycleId = item.trace.cycleId) = some item := by
    refine find?_eq_of_unique hitem (decide_eq_true rfl) (h.pairwise_ne.imp fun hne ha hb => hne.2 ?_)
    rw [of_decide_eq_true ha, of_decide_eq_true hb]
  have hid := h.ids item hitem
  unfold findCycleTrace
  dsimp only
  rw [hid] at hfind ⊢
  rw [jsTrim_createCycleId, if_neg (createCycleId_ne_empty _), hfind]

/-- A trace is found by its number, if the number as a text is no cycle id and no id of an entry. -/
theorem find_by_number (h : Ordered c) (hitem : item ∈ locateCycleTraces c.entries) {needle : String} (htrim : jsTrim needle = needle)
    (hne : needle ≠ "") (hhash : needle.toList.head? ≠ some '#') (hnumber : positiveInteger needle = some item.trace.cycleNumber)
    (hids : ∀ other ∈ locateCycleTraces c.entries, other.trace.cycleId ≠ needle ∧ other.entryId ≠ needle) :
    findCycleTrace positiveInteger c.entries needle = some item := by
  have hid : (locateCycleTraces c.entries).find? (·.trace.cycleId = needle) = none :=
    List.find?_eq_none.mpr fun other hother hdecide => (hids other hother).1 (of_decide_eq_true hdecide)
  have hentry : (locateCycleTraces c.entries).find? (·.entryId = needle) = none :=
    List.find?_eq_none.mpr fun other hother hdecide => (hids other hother).2 (of_decide_eq_true hdecide)
  have hfind : (locateCycleTraces c.entries).find? (·.trace.cycleNumber = item.trace.cycleNumber) = some item := by
    refine find?_eq_of_unique hitem (decide_eq_true rfl) (h.pairwise_ne.imp fun hne ha hb => hne.1 ?_)
    rw [of_decide_eq_true ha, of_decide_eq_true hb]
  unfold findCycleTrace
  dsimp only
  rw [htrim, if_neg hne, hid, hentry]
  dsimp only
  rw [if_neg hhash, hnumber, Option.bind_some, hfind]

/-- **Every cycle leaves one trace** and one checkpoint with its number if no callback of it throws, and only then, after
every run; numbers go up, no id occurs twice, and a trace is found by its id and by its number. -/
theorem cycle_traced_iff (positiveInteger : String → Option ℕ) (ops : List Op) :
    (∀ options, Traced (run ops) ((run ops).runPromptCycle options).1 ↔ options.Returns) ∧
      (locateCycleTraces (run ops).entries).Pairwise (·.trace.cycleNumber < ·.trace.cycleNumber) ∧
      (checkpoints (run ops).entries).map (·.cycleNumber) = (locateCycleTraces (run ops).entries).map (·.trace.cycleNumber) ∧
      ((locateCycleTraces (run ops).entries).map (·.trace.cycleId)).Nodup ∧
      ∀ item ∈ locateCycleTraces (run ops).entries,
        findCycleTrace positiveInteger (run ops).entries item.trace.cycleId = some item ∧
          ∀ needle, jsTrim needle = needle → needle ≠ "" → needle.toList.head? ≠ some '#' →
            positiveInteger needle = some item.trace.cycleNumber →
            (∀ other ∈ locateCycleTraces (run ops).entries, other.trace.cycleId ≠ needle ∧ other.entryId ≠ needle) →
              findCycleTrace positiveInteger (run ops).entries needle = some item := by
  have hordered := Ordered.run ops
  refine ⟨fun options => ?_, hordered.numbers, hordered.checkpoints, ?_, fun item hitem => ⟨find_by_id hordered hitem, ?_⟩⟩
  · obtain ⟨-, ⟨hreturns, ⟨_, _, hlocate⟩, hcheckpoints⟩ | ⟨hthrows, hlocate, -⟩⟩ := (run ops).runPromptCycle_cases options
    · exact iff_of_true ⟨_, _, hlocate, hcheckpoints, rfl, rfl⟩ hreturns
    · refine iff_of_false ?_ hthrows
      rintro ⟨located, checkpoint, hadded, -⟩
      rw [hlocate] at hadded
      simpa using congrArg List.length hadded
  · exact List.pairwise_map.mpr (hordered.pairwise_ne.imp fun hne => hne.2)
  · exact fun needle htrim hne hhash hnumber hids => find_by_number hordered hitem htrim hne hhash hnumber hids

/-- The first cycle of a session, whose act throws. -/
theorem cycle_untraced_act : ¬ ∀ (ops : List Op) (options : CycleOptions), Traced (run ops) ((run ops).runPromptCycle options).1 := by
  intro h
  obtain ⟨located, checkpoint, hadded, -⟩ := h [] ⟨none, none, none, none, true, none, ⟨["m1"], some "act failed"⟩, "e1", "e2"⟩
  exact nomatch (show ([] : List LocatedCycleTrace) = [located] from hadded)

end Trek.Trace
