/-
# The session writes of an agent harness

`setModel`, `setThinkingLevel`, `setActiveTools` and `appendMessage` of `AgentHarness`
write to the session when the harness is idle, and else queue what they write until a run
flushes it. A run flushes, a compaction does not: what was queued during it waits for the
next run, and a direct write in between overtakes it. Where a direct write finds nothing on
its way, the session has the writes in the order of the calls, and once all are flushed it
gives the settings of the harness (`run_recorded`).
-/
import Trek.Harness.Lifecycle
import Trek.Harness.Appends

namespace Trek

/-! ### Settings -/

/-- The settings of the harness that its session records. -/
structure HarnessSettings where
  provider : String
  modelId : String
  thinkingLevel : String
  activeToolNames : List String
  deriving DecidableEq

/-- `thinkingLevel`, `model` and `activeToolNames` of a `SessionContext`. -/
structure ContextSettings where
  thinkingLevel : String
  model : Option (String × String)
  activeToolNames : Option (List String)
  deriving DecidableEq

/-- What `buildSessionContext` notes of an entry. -/
def ContextSettings.note (c : ContextSettings) : TreeBody → ContextSettings
  | .thinkingLevelChange thinkingLevel => { c with thinkingLevel }
  | .modelChange provider modelId => { c with model := some (provider, modelId) }
  | .message (.assistant m) => { c with model := some (m.provider, m.model) }
  | .activeToolsChange activeToolNames => { c with activeToolNames := some activeToolNames }
  | _ => c

/-- The settings that `buildSessionContext` rebuilds from the entries of a branch. -/
def settingsOfPath (path : List TreeBody) : ContextSettings := path.foldl .note ⟨"off", none, none⟩

/-- An entry that says what the model is. -/
def setsModel : TreeBody → Bool
  | .modelChange _ _ | .message (.assistant _) => true
  | _ => false

theorem settingsOfPath_append (path bodies : List TreeBody) :
    settingsOfPath (path ++ bodies) = bodies.foldl .note (settingsOfPath path) := List.foldl_append

/-- Another model before some entries is seen after them unless one of them sets it. -/
theorem foldl_note_model (model : Option (String × String)) : ∀ (bodies : List TreeBody) (c : ContextSettings),
    bodies.foldl ContextSettings.note { c with model } =
      if bodies.any setsModel then bodies.foldl .note c else { bodies.foldl ContextSettings.note c with model }
  | [], c => rfl
  | body :: bodies, c => by
    rw [List.foldl_cons, List.foldl_cons, List.any_cons]
    cases hb : setsModel body with
    | true =>
      have hsame : ({ c with model } : ContextSettings).note body = c.note body := by
        cases body with
        | message m =>
          cases m with
          | assistant a => rfl
          | _ => cases hb
        | modelChange provider modelId => rfl
        | _ => cases hb
      rw [hsame]
      rfl
    | false =>
      have hother : ({ c with model } : ContextSettings).note body = { c.note body with model } := by
        cases body with
        | message m =>
          cases m with
          | assistant a => cases hb
          | _ => rfl
        | modelChange provider modelId => cases hb
        | _ => rfl
      rw [hother, foldl_note_model model bodies (c.note body), Bool.false_or]

/-- The context that says what the settings are. -/
def HarnessSettings.context (s : HarnessSettings) : ContextSettings :=
  ⟨s.thinkingLevel, some (s.provider, s.modelId), some s.activeToolNames⟩

/-! ### Calls -/

/-- A call that writes to the session. -/
inductive WriteCall
  | setModel (provider modelId : String)
  | setThinkingLevel (level : String)
  | setActiveTools (toolNames : List String)
  | appendMessage (message : AgentMessage)
  deriving DecidableEq

namespace WriteCall

/-- What the call writes. -/
def write : WriteCall → SessionAppend
  | .setModel provider modelId => .modelChange provider modelId
  | .setThinkingLevel level => .thinkingLevelChange level
  | .setActiveTools toolNames => .activeToolsChange toolNames
  | .appendMessage message => .message message

/-- The settings after the call. -/
def apply (s : HarnessSettings) : WriteCall → HarnessSettings
  | .setModel provider modelId => { s with provider, modelId }
  | .setThinkingLevel thinkingLevel => { s with thinkingLevel }
  | .setActiveTools activeToolNames => { s with activeToolNames }
  | .appendMessage _ => s

/-- The call says nothing of the model that the settings do not. -/
def keeps (s : HarnessSettings) : WriteCall → Prop
  | .appendMessage (.assistant m) => m.provider = s.provider ∧ m.model = s.modelId
  | _ => True

theorem note_write {s : HarnessSettings} {what : WriteCall} (h : what.keeps s) :
    s.context.note what.write.body = (what.apply s).context := by
  cases what with
  | appendMessage message =>
    cases message with
    | assistant m =>
      obtain ⟨h1, h2⟩ := h
      simp only [write, SessionAppend.body, ContextSettings.note, apply, HarnessSettings.context, h1, h2]
    | _ => rfl
  | _ => rfl

end WriteCall

/-- A write of the `call`-th call. -/
structure SessionWrite where
  call : ℕ
  what : WriteCall
  deriving DecidableEq

/-- The entry of a write. -/
def SessionWrite.body (w : SessionWrite) : TreeBody := w.what.write.body

/-- `validateToolNames`. -/
def validateToolNames (tools toolNames : List String) : Bool :=
  toolNames.Nodup && toolNames.all (· ∈ tools)

/-- What awaits an append: a call in an idle harness, `flushPendingSessionWrites` of a run,
`message_end` of a run, and `appendCompaction` or the summary of `moveTo`. -/
inductive AppendOwner
  | direct (w : SessionWrite)
  | flush (i : ℕ)
  | message (i : ℕ)
  | summary (i : ℕ)
  deriving DecidableEq

/-- An append on its way: the entry, the call that it records, and the branch it goes to once it
has the leaf. -/
structure Appending where
  owner : AppendOwner
  call : Option ℕ
  body : TreeBody
  parent : Option (List TreeBody)
  deriving DecidableEq

namespace Appending

/-- The write of a call in an idle harness. -/
def direct? (a : Appending) : Option SessionWrite :=
  match a.owner with
  | .direct w => some w
  | _ => none

/-- The operation that awaits the append. -/
def operation? (a : Appending) : Option ℕ :=
  match a.owner with
  | .direct _ => none
  | .flush i | .message i | .summary i => some i

end Appending

/-- A step of the harness. -/
inductive WriteStep
  | life (input : LifeStep)
  | call (what : WriteCall)
  /-- The loop of `flushPendingSessionWrites` comes to the first pending write. -/
  | flushNext (i : ℕ)
  /-- `message_end`. -/
  | message (i : ℕ) (message : AgentMessage)
  /-- `appendCompaction`, or the summary of `moveTo`. -/
  | summary (i : ℕ) (body : TreeBody)
  /-- `setLeafId` in `moveTo`: the path to the new leaf. -/
  | setLeafId (i : ℕ) (path : List TreeBody)
  /-- The `k`-th append on its way gets the leaf. -/
  | getLeafId (k : ℕ)
  /-- It resolves or rejects, and what awaits it goes on. -/
  | settle (k : ℕ) (ok : Bool)

/-- The harness, as far as it writes to its session. `entries` are those of the storage in the
order they were appended, with the call that recorded each, and `path` is the branch of the
leaf. -/
structure HarnessWrites where
  life : Lifecycle
  tools : List String
  settings : HarnessSettings
  pendingSessionWrites : List SessionWrite
  entries : List (Option ℕ × TreeBody)
  path : List TreeBody
  calls : ℕ
  appending : List Appending
  deriving DecidableEq

namespace HarnessWrites

/-- A harness over a session. -/
def new (tools : List String) (settings : HarnessSettings) (entries path : List TreeBody) : HarnessWrites where
  life := .new
  tools := tools
  settings := settings
  pendingSessionWrites := []
  entries := entries.map (none, ·)
  path := path
  calls := 0
  appending := []

/-- An append begins. -/
def append (s : HarnessWrites) (owner : AppendOwner) (call : Option ℕ) (body : TreeBody) : HarnessWrites :=
  { s with appending := s.appending ++ [⟨owner, call, body, none⟩] }

/-- A call: it writes when the harness is idle, and queues what it writes else. -/
def accept (s : HarnessWrites) (what : WriteCall) : HarnessWrites :=
  let w : SessionWrite := ⟨s.calls, what⟩
  let s := { s with calls := s.calls + 1 }
  if s.life.phase = .idle then s.append (.direct w) (some w.call) w.body
  else { s with
    pendingSessionWrites := s.pendingSessionWrites ++ [w]
    settings := what.apply s.settings }

/-- The stage of a run. -/
def stageOf (s : HarnessWrites) (i : ℕ) : Option Stage :=
  match s.life.operations[i]? with
  | some (.run stage) => some stage
  | _ => none

/-- An operation goes on after its appends, and leaves `agent_end` and `executeTurn` with nothing
pending. -/
def blocks (s : HarnessWrites) : LifeStep → Bool
  | .agentEnd i => s.appending.any (·.operation? = some i) || !s.pendingSessionWrites.isEmpty
  | .flush i ok => s.appending.any (·.operation? = some i) || (ok && !s.pendingSessionWrites.isEmpty)
  | .throw i | .finishLoop i | .finishStructural i => s.appending.any (·.operation? = some i)
  | _ => false

/-- What goes on when an append has resolved. -/
def resolved (s : HarnessWrites) : AppendOwner → HarnessWrites
  | .direct w => { s with settings := w.what.apply s.settings }
  | .flush _ => { s with pendingSessionWrites := s.pendingSessionWrites.tail }
  | _ => s

/-- What an operation does when its append has rejected. -/
def rejected (s : HarnessWrites) : AppendOwner → Option LifeStep
  | .direct _ => none
  | .flush i | .message i =>
    match s.stageOf i with
    | some (.flushing _) => some (.flush i false)
    | _ => some (.throw i)
  | .summary i => some (.finishStructural i)

/-- One step. -/
def step (s : HarnessWrites) : WriteStep → Option HarnessWrites
  | .life input => if s.blocks input then none else (s.life.step input).map ({ s with life := · })
  | .call what =>
    match what with
    | .setActiveTools toolNames => some (if validateToolNames s.tools toolNames then s.accept what else s)
    | _ => some (s.accept what)
  | .flushNext i =>
    match s.stageOf i, s.pendingSessionWrites with
    | some stage, w :: _ =>
      if s.appending.any (·.operation? = some i) then none
      else if stage = .looping ∨ stage = .failing ∨ stage = .flushing true ∨ stage = .flushing false then
        some (s.append (.flush i) (some w.call) w.body)
      else none
    | _, _ => none
  | .message i message =>
    match s.stageOf i with
    | some stage =>
      if s.appending.any (·.operation? = some i) then none
      else if stage = .looping ∨ stage = .failing then some (s.append (.message i) none (.message message))
      else none
    | none => none
  | .summary i body =>
    if s.appending.any (·.operation? = some i) then none
    else
      match s.life.operations[i]?, body with
      | some (.structural .compaction false), .compaction .. => some (s.append (.summary i) none body)
      | some (.structural .branchSummary false), .branchSummary .. => some (s.append (.summary i) none body)
      | _, _ => none
  | .setLeafId i path =>
    if s.appending.any (·.operation? = some i) then none
    else
      match s.life.operations[i]? with
      | some (.structural .branchSummary false) => some { s with path }
      | _ => none
  | .getLeafId k =>
    match s.appending[k]? with
    | some a => some { s with appending := s.appending.set k { a with parent := some s.path } }
    | none => none
  | .settle k ok =>
    match s.appending[k]? with
    | some ⟨owner, call, body, some parent⟩ =>
      let s := { s with appending := s.appending.eraseIdx k }
      if ok then some ({ s with entries := s.entries ++ [(call, body)], path := parent ++ [body] }.resolved owner)
      else
        match s.rejected owner with
        | some input => (s.life.step input).map ({ s with life := · })
        | none => some s
    | _ => none

/-- A run of the harness. -/
def run (s : HarnessWrites) (steps : List WriteStep) : Option HarnessWrites := steps.foldlM step s

/-! ### What the session should say -/

/-- The calls that recorded the entries come in their order, and with no write on its way the
session gives the settings. -/
structure Recorded (s : HarnessWrites) : Prop where
  inOrder : (s.entries.filterMap Prod.fst).Pairwise (· < ·)
  rebuilt : s.pendingSessionWrites = [] → s.appending = [] → settingsOfPath s.path = s.settings.context

/-- When a step leaves the order of the writes and the settings right. A call finds no direct
write on its way, and in an idle harness nothing pending and no append; a run and a structural
operation append when nothing else is on its way; an assistant message has the model of the
harness, or a pending write sets the model; and the tree is left for a branch that gives the
settings once the pending writes are flushed. -/
def Keeps (s : HarnessWrites) : WriteStep → Prop
  | .call what => (∀ a ∈ s.appending, a.direct? = none) ∧ what.keeps s.settings ∧
      (s.life.phase = .idle → s.appending = [] ∧ s.pendingSessionWrites = [])
  | .flushNext _ | .summary _ _ => s.appending = []
  | .message _ message => s.appending = [] ∧
      ∀ m, message = .assistant m → m.provider = s.settings.provider ∧ m.model = s.settings.modelId ∨
        ∃ w ∈ s.pendingSessionWrites, setsModel w.body = true
  | .setLeafId _ path => s.appending = [] ∧
      settingsOfPath (path ++ s.pendingSessionWrites.map SessionWrite.body) = s.settings.context
  | _ => True

/-- Every step of a run is such a step. -/
def KeepsAll : HarnessWrites → List WriteStep → Prop
  | _, [] => True
  | s, input :: steps => s.Keeps input ∧ ∀ s', s.step input = some s' → KeepsAll s' steps

/-! ### The writes on their way -/

/-- The writes of calls that are not in the session yet. -/
def outstanding (s : HarnessWrites) : List SessionWrite :=
  s.appending.filterMap Appending.direct? ++ s.pendingSessionWrites

/-- What an append on its way is for. -/
def Awaits (s : HarnessWrites) (a : Appending) : Prop :=
  match a.owner with
  | .direct w => s.pendingSessionWrites = [] ∧ a.body = w.body ∧ a.call = some w.call ∧ w.what.keeps s.settings
  | .flush _ => ∃ w rest, s.pendingSessionWrites = w :: rest ∧ a.body = w.body ∧ a.call = some w.call
  | _ => a.call = none ∧
      settingsOfPath (s.path ++ a.body :: s.pendingSessionWrites.map SessionWrite.body) = s.settings.context

/-- What every step keeps: the writes come in the order of the calls, those that are not in the
session last; the branch with the pending writes gives the settings; and one append at a time is
on its way, to the leaf. -/
structure Tracked (s : HarnessWrites) : Prop where
  inOrder : (s.entries.filterMap Prod.fst ++ s.outstanding.map (·.call)).Pairwise (· < ·)
  bound : ∀ c ∈ s.entries.filterMap Prod.fst ++ s.outstanding.map (·.call), c < s.calls
  rebuilt : settingsOfPath (s.path ++ s.pendingSessionWrites.map SessionWrite.body) = s.settings.context
  flight : s.appending = [] ∨ ∃ a, s.appending = [a] ∧ (a.parent = none ∨ a.parent = some s.path) ∧ s.Awaits a

theorem Tracked.recorded {s : HarnessWrites} (h : s.Tracked) : s.Recorded := by
  refine ⟨(List.pairwise_append.mp h.inOrder).1, fun hp _ => ?_⟩
  have := h.rebuilt
  rwa [hp, List.map_nil, List.append_nil] at this

theorem tracked_new {tools : List String} {settings : HarnessSettings} {entries path : List TreeBody}
    (h : settingsOfPath path = settings.context) : (new tools settings entries path).Tracked := by
  have hnone : (entries.map fun b => ((none : Option ℕ), b)).filterMap Prod.fst = [] := by
    rw [List.filterMap_eq_nil_iff]
    intro p hp
    obtain ⟨b, -, rfl⟩ := List.mem_map.mp hp
    rfl
  refine ⟨?_, ?_, ?_, Or.inl rfl⟩
  · show (List.filterMap Prod.fst (entries.map fun b => ((none : Option ℕ), b)) ++ []).Pairwise _
    rw [hnone]
    exact List.Pairwise.nil
  · show ∀ c ∈ List.filterMap Prod.fst (entries.map fun b => ((none : Option ℕ), b)) ++ [], _
    rw [hnone]
    intro c hc
    cases hc
  · show settingsOfPath (path ++ []) = _
    rw [List.append_nil, h]
    rfl

/-- An append that records no call begins. -/
theorem Tracked.begin {s : HarnessWrites} (h : s.Tracked) (hnone : s.appending = []) {owner : AppendOwner}
    {call : Option ℕ} {body : TreeBody} (hdirect : ∀ w, owner ≠ .direct w)
    (hawaits : s.Awaits ⟨owner, call, body, none⟩) : (s.append owner call body).Tracked := by
  have hout : (s.append owner call body).outstanding = s.outstanding := by
    unfold outstanding append
    rw [hnone]
    cases owner with
    | direct w => exact absurd rfl (hdirect w)
    | _ => rfl
  refine ⟨?_, ?_, h.rebuilt, Or.inr ⟨⟨owner, call, body, none⟩, ?_, Or.inl rfl, hawaits⟩⟩
  · rw [hout]
    exact h.inOrder
  · rw [hout]
    exact h.bound
  · show s.appending ++ _ = _
    rw [hnone]
    rfl

/-- A write of the next call comes after those before it. -/
theorem Tracked.next {s : HarnessWrites} (h : s.Tracked) :
    (s.entries.filterMap Prod.fst ++ (s.outstanding.map (·.call) ++ [s.calls])).Pairwise (· < ·) ∧
      ∀ c ∈ s.entries.filterMap Prod.fst ++ (s.outstanding.map (·.call) ++ [s.calls]), c < s.calls + 1 := by
  rw [← List.append_assoc]
  refine ⟨List.pairwise_append.mpr ⟨h.inOrder, List.pairwise_singleton _ _, fun a ha b hb => ?_⟩, fun c hc => ?_⟩
  · obtain rfl := List.mem_singleton.mp hb
    exact h.bound a ha
  · rcases List.mem_append.mp hc with hc | hc
    · exact Nat.lt_succ_of_lt (h.bound c hc)
    · obtain rfl := List.mem_singleton.mp hc
      exact Nat.lt_succ_self _

theorem outstanding_of_nil {s : HarnessWrites} (h : s.appending = []) : s.outstanding = s.pendingSessionWrites := by
  unfold outstanding
  rw [h]
  rfl

theorem Tracked.accept {s : HarnessWrites} (h : s.Tracked) {what : WriteCall}
    (hdirect : ∀ a ∈ s.appending, a.direct? = none) (hkeeps : what.keeps s.settings)
    (hidle : s.life.phase = .idle → s.appending = [] ∧ s.pendingSessionWrites = []) : (s.accept what).Tracked := by
  obtain ⟨horder, hbound⟩ := h.next
  unfold HarnessWrites.accept
  simp only
  by_cases hphase : s.life.phase = .idle
  · obtain ⟨hnone, hpending⟩ := hidle hphase
    rw [if_pos hphase]
    have hout := outstanding_of_nil hnone
    rw [hout, hpending] at horder hbound
    have hout' : outstanding ({ s with calls := s.calls + 1 }.append (.direct ⟨s.calls, what⟩) (some s.calls)
        (SessionWrite.body ⟨s.calls, what⟩)) = [⟨s.calls, what⟩] := by
      unfold outstanding append
      simp only
      rw [hnone, hpending]
      rfl
    refine ⟨?_, ?_, h.rebuilt, Or.inr
      ⟨⟨.direct ⟨s.calls, what⟩, some s.calls, what.write.body, none⟩, ?_, Or.inl rfl, ?_⟩⟩
    · rw [hout']
      exact horder
    · rw [hout']
      exact hbound
    · show s.appending ++ _ = _
      rw [hnone]
      rfl
    · exact ⟨hpending, rfl, rfl, hkeeps⟩
  · -- the write is pending, and the settings are set at once
    rw [if_neg hphase]
    have hfilter : s.appending.filterMap Appending.direct? = [] := by
      rw [List.filterMap_eq_nil_iff]
      exact hdirect
    have hbody : ∀ b : List TreeBody, settingsOfPath b = s.settings.context →
        settingsOfPath (b ++ [SessionWrite.body ⟨s.calls, what⟩]) = (what.apply s.settings).context := by
      intro b hb
      rw [settingsOfPath_append, hb]
      exact WriteCall.note_write hkeeps
    have hout' : ∀ settings, outstanding { s with
        calls := s.calls + 1
        pendingSessionWrites := s.pendingSessionWrites ++ [⟨s.calls, what⟩]
        settings } = s.outstanding ++ [⟨s.calls, what⟩] := by
      intro settings
      unfold outstanding
      simp only
      rw [List.append_assoc]
    refine ⟨?_, ?_, ?_, ?_⟩
    · rw [hout', List.map_append]
      exact horder
    · rw [hout', List.map_append]
      exact hbound
    · show settingsOfPath (s.path ++ (s.pendingSessionWrites ++ [(⟨s.calls, what⟩ : SessionWrite)]).map SessionWrite.body) = _
      rw [List.map_append, ← List.append_assoc]
      exact hbody _ h.rebuilt
    · rcases h.flight with hnone | ⟨a, ha, hparent, hawaits⟩
      · exact Or.inl hnone
      · refine Or.inr ⟨a, ha, hparent, ?_⟩
        unfold Awaits at hawaits ⊢
        cases howner : a.owner with
        | direct w =>
          have := hdirect a (by rw [ha]; exact List.mem_singleton_self a)
          unfold Appending.direct? at this
          rw [howner] at this
          cases this
        | flush i =>
          rw [howner] at hawaits
          obtain ⟨w, rest, hpending, hb, hc⟩ := hawaits
          refine ⟨w, rest ++ [⟨s.calls, what⟩], ?_, hb, hc⟩
          rw [hpending]
          rfl
        | message i =>
          rw [howner] at hawaits
          refine ⟨hawaits.1, ?_⟩
          show settingsOfPath (s.path ++
            a.body :: (s.pendingSessionWrites ++ [(⟨s.calls, what⟩ : SessionWrite)]).map SessionWrite.body) = _
          rw [List.map_append, ← List.cons_append, ← List.append_assoc]
          exact hbody _ hawaits.2
        | summary i =>
          rw [howner] at hawaits
          refine ⟨hawaits.1, ?_⟩
          show settingsOfPath (s.path ++
            a.body :: (s.pendingSessionWrites ++ [(⟨s.calls, what⟩ : SessionWrite)]).map SessionWrite.body) = _
          rw [List.map_append, ← List.cons_append, ← List.append_assoc]
          exact hbody _ hawaits.2

/-- An entry of a run goes before the pending writes. -/
theorem Tracked.message_awaits {s : HarnessWrites} (h : s.Tracked) {i : ℕ} {message : AgentMessage}
    (hmodel : ∀ m, message = .assistant m → m.provider = s.settings.provider ∧ m.model = s.settings.modelId ∨
      ∃ w ∈ s.pendingSessionWrites, setsModel w.body = true) :
    s.Awaits ⟨.message i, none, .message message, none⟩ := by
  have hrebuilt := h.rebuilt
  rw [settingsOfPath_append] at hrebuilt
  refine ⟨rfl, ?_⟩
  rw [settingsOfPath_append]
  cases message with
  | assistant m =>
    show List.foldl ContextSettings.note { settingsOfPath s.path with model := some (m.provider, m.model) } _ = _
    rw [foldl_note_model, hrebuilt]
    split
    · rfl
    · rename_i hnone
      rcases hmodel m rfl with ⟨h1, h2⟩ | ⟨w, hw, hsets⟩
      · rw [h1, h2]
        rfl
      · exact absurd (List.any_eq_true.mpr ⟨w.body, List.mem_map_of_mem hw, hsets⟩) hnone
  | _ => exact hrebuilt

theorem Tracked.summary_awaits {s : HarnessWrites} (h : s.Tracked) {i : ℕ} {body : TreeBody}
    (hnote : ∀ c : ContextSettings, c.note body = c) : s.Awaits ⟨.summary i, none, body, none⟩ := by
  have hrebuilt := h.rebuilt
  rw [settingsOfPath_append] at hrebuilt
  refine ⟨rfl, ?_⟩
  rw [settingsOfPath_append]
  show List.foldl ContextSettings.note ((settingsOfPath s.path).note body) _ = _
  rw [hnote]
  exact hrebuilt

/-- The append on its way rejects. -/
theorem Tracked.drop {s : HarnessWrites} (h : s.Tracked) (life : Lifecycle) :
    ({ s with appending := [], life } : HarnessWrites).Tracked := by
  have hsub : (s.entries.filterMap Prod.fst ++ s.pendingSessionWrites.map (·.call)).Sublist
      (s.entries.filterMap Prod.fst ++ s.outstanding.map (·.call)) := by
    unfold outstanding
    rw [List.map_append]
    exact (List.Sublist.refl _).append (List.sublist_append_right _ _)
  exact ⟨h.inOrder.sublist hsub, fun c hc => h.bound c (hsub.subset hc), h.rebuilt, Or.inl rfl⟩

/-- An entry that records no call is appended. -/
theorem Tracked.appended {s : HarnessWrites} (h : s.Tracked) (hdirect : s.outstanding = s.pendingSessionWrites)
    {body : TreeBody} (hafter : settingsOfPath (s.path ++ body :: s.pendingSessionWrites.map SessionWrite.body) =
      s.settings.context) :
    ({ s with appending := [], entries := s.entries ++ [(none, body)], path := s.path ++ [body] } :
      HarnessWrites).Tracked := by
  have htags : (s.entries ++ [((none : Option ℕ), body)]).filterMap Prod.fst = s.entries.filterMap Prod.fst := by
    rw [List.filterMap_append]
    simp
  have hinOrder := h.inOrder
  have hbound := h.bound
  rw [hdirect] at hinOrder hbound
  refine ⟨?_, ?_, ?_, Or.inl rfl⟩
  · show List.Pairwise _ ((s.entries ++ [((none : Option ℕ), body)]).filterMap Prod.fst ++
      s.pendingSessionWrites.map SessionWrite.call)
    rw [htags]
    exact hinOrder
  · show ∀ c ∈ (s.entries ++ [((none : Option ℕ), body)]).filterMap Prod.fst ++
      s.pendingSessionWrites.map SessionWrite.call, _
    rw [htags]
    exact hbound
  · show settingsOfPath (s.path ++ [body] ++ s.pendingSessionWrites.map SessionWrite.body) = s.settings.context
    rw [List.append_assoc]
    exact hafter

/-- The append on its way resolves. -/
theorem Tracked.resolved {s : HarnessWrites} (h : s.Tracked) {a : Appending} (ha : s.appending = [a])
    (hawaits : s.Awaits a) :
    ({ s with appending := [], entries := s.entries ++ [(a.call, a.body)], path := s.path ++ [a.body] }.resolved
      a.owner).Tracked := by
  have hinOrder := h.inOrder
  have hbound := h.bound
  have hrebuilt := h.rebuilt
  unfold outstanding at hinOrder hbound
  rw [ha] at hinOrder hbound
  obtain ⟨owner, call, body, parent⟩ := a
  unfold Awaits at hawaits
  cases owner with
  | direct w =>
    obtain ⟨hpending, hb, hc, hkeeps⟩ := hawaits
    simp only at hb hc
    subst hb hc
    rw [hpending] at hinOrder hbound hrebuilt
    have htags : (s.entries ++ [(some w.call, w.body)]).filterMap Prod.fst ++ List.map SessionWrite.call [] =
        s.entries.filterMap Prod.fst ++ List.map SessionWrite.call ([w] ++ []) := by
      rw [List.filterMap_append]
      simp
    refine ⟨?_, ?_, ?_, Or.inl rfl⟩
    · show List.Pairwise _ ((s.entries ++ [(some w.call, w.body)]).filterMap Prod.fst ++
        List.map SessionWrite.call s.pendingSessionWrites)
      rw [hpending, htags]
      exact hinOrder
    · show ∀ c ∈ (s.entries ++ [(some w.call, w.body)]).filterMap Prod.fst ++
        List.map SessionWrite.call s.pendingSessionWrites, _
      rw [hpending, htags]
      exact hbound
    · show settingsOfPath (s.path ++ [w.body] ++ s.pendingSessionWrites.map SessionWrite.body) =
        (w.what.apply s.settings).context
      rw [List.map_nil, List.append_nil] at hrebuilt
      rw [hpending, List.map_nil, List.append_nil, settingsOfPath_append, hrebuilt]
      exact WriteCall.note_write hkeeps
  | flush i =>
    obtain ⟨w, rest, hpending, hb, hc⟩ := hawaits
    simp only at hb hc
    subst hb hc
    rw [hpending] at hinOrder hbound hrebuilt
    have htags : (s.entries ++ [(some w.call, w.body)]).filterMap Prod.fst ++ rest.map SessionWrite.call =
        s.entries.filterMap Prod.fst ++ List.map SessionWrite.call ([] ++ w :: rest) := by
      rw [List.filterMap_append]
      simp
    refine ⟨?_, ?_, ?_, Or.inl rfl⟩
    · show List.Pairwise _ ((s.entries ++ [(some w.call, w.body)]).filterMap Prod.fst ++
        s.pendingSessionWrites.tail.map SessionWrite.call)
      rw [hpending, List.tail_cons, htags]
      exact hinOrder
    · show ∀ c ∈ (s.entries ++ [(some w.call, w.body)]).filterMap Prod.fst ++
        s.pendingSessionWrites.tail.map SessionWrite.call, _
      rw [hpending, List.tail_cons, htags]
      exact hbound
    · show settingsOfPath (s.path ++ [w.body] ++ s.pendingSessionWrites.tail.map SessionWrite.body) = s.settings.context
      rw [hpending, List.tail_cons, List.append_assoc]
      exact hrebuilt
  | message i =>
    obtain ⟨rfl, hafter⟩ := hawaits
    refine h.appended ?_ hafter
    rw [outstanding, ha]
    rfl
  | summary i =>
    obtain ⟨rfl, hafter⟩ := hawaits
    refine h.appended ?_ hafter
    rw [outstanding, ha]
    rfl

/-- **What every step keeps.** -/
theorem Tracked.step {s s' : HarnessWrites} {input : WriteStep} (h : s.Tracked) (hkeeps : s.Keeps input)
    (hs : s.step input = some s') : s'.Tracked := by
  cases input with
  | life input =>
    simp only [HarnessWrites.step] at hs
    split at hs
    · cases hs
    · obtain ⟨life, -, rfl⟩ := Option.map_eq_some_iff.mp hs
      exact ⟨h.inOrder, h.bound, h.rebuilt, h.flight⟩
  | call what =>
    obtain ⟨hdirect, hmodel, hidle⟩ := hkeeps
    have haccept := h.accept hdirect hmodel hidle
    cases what with
    | setActiveTools toolNames =>
      obtain rfl := Option.some.inj hs
      split
      · exact haccept
      · exact h
    | _ =>
      obtain rfl := Option.some.inj hs
      exact haccept
  | flushNext i =>
    simp only [HarnessWrites.step] at hs
    split at hs
    · rename_i stage w rest _ hpending
      split at hs
      · cases hs
      · split at hs
        · obtain rfl := Option.some.inj hs
          exact h.begin hkeeps (fun w' => by simp) ⟨w, rest, hpending, rfl, rfl⟩
        · cases hs
    · cases hs
  | message i message =>
    simp only [HarnessWrites.step] at hs
    split at hs
    · split at hs
      · cases hs
      · split at hs
        · obtain rfl := Option.some.inj hs
          exact h.begin hkeeps.1 (fun w' => by simp) (h.message_awaits hkeeps.2)
        · cases hs
    · cases hs
  | summary i body =>
    simp only [HarnessWrites.step] at hs
    split at hs
    · cases hs
    · split at hs
      · obtain rfl := Option.some.inj hs
        exact h.begin hkeeps (fun w' => by simp) (h.summary_awaits fun c => rfl)
      · obtain rfl := Option.some.inj hs
        exact h.begin hkeeps (fun w' => by simp) (h.summary_awaits fun c => rfl)
      · cases hs
  | setLeafId i path =>
    simp only [HarnessWrites.step] at hs
    split at hs
    · cases hs
    · split at hs
      · obtain rfl := Option.some.inj hs
        exact ⟨h.inOrder, h.bound, hkeeps.2, Or.inl hkeeps.1⟩
      · cases hs
  | getLeafId k =>
    rcases h.flight with hnone | ⟨a, ha, -, hawaits⟩
    · simp only [HarnessWrites.step, hnone, List.getElem?_nil] at hs
      cases hs
    · cases k with
      | zero =>
        simp only [HarnessWrites.step, ha, List.getElem?_cons_zero] at hs
        obtain rfl := Option.some.inj hs
        have hout : List.filterMap Appending.direct? [{ a with parent := some s.path }] =
            s.appending.filterMap Appending.direct? := by
          rw [ha]
          rfl
        refine ⟨?_, ?_, h.rebuilt, Or.inr ⟨_, rfl, Or.inr rfl, hawaits⟩⟩
        · show List.Pairwise _ (_ ++ List.map _ (List.filterMap _ [{ a with parent := some s.path }] ++ _))
          rw [hout]
          exact h.inOrder
        · show ∀ c ∈ (_ ++ List.map _ (List.filterMap _ [{ a with parent := some s.path }] ++ _)), _
          rw [hout]
          exact h.bound
      | succ k =>
        simp only [HarnessWrites.step, ha, List.getElem?_cons_succ, List.getElem?_nil] at hs
        cases hs
  | settle k ok =>
    rcases h.flight with hnone | ⟨a, ha, hparent, hawaits⟩
    · simp only [HarnessWrites.step, hnone, List.getElem?_nil] at hs
      cases hs
    · cases k with
      | zero =>
        obtain ⟨owner, call, body, parent⟩ := a
        cases parent with
        | none =>
          simp only [HarnessWrites.step, ha, List.getElem?_cons_zero] at hs
          cases hs
        | some parent =>
          obtain rfl : parent = s.path := by
            rcases hparent with hparent | hparent
            · cases hparent
            · exact Option.some.inj hparent
          simp only [HarnessWrites.step, ha, List.getElem?_cons_zero, List.eraseIdx_cons_zero] at hs
          cases ok with
          | true =>
            obtain rfl := Option.some.inj hs
            exact h.resolved ha hawaits
          | false =>
            simp only [Bool.false_eq_true, if_false] at hs
            split at hs
            · obtain ⟨life, -, rfl⟩ := Option.map_eq_some_iff.mp hs
              exact h.drop life
            · obtain rfl := Option.some.inj hs
              exact h.drop s.life
      | succ k =>
        simp only [HarnessWrites.step, ha, List.getElem?_cons_succ, List.getElem?_nil] at hs
        cases hs

theorem run_cons (s : HarnessWrites) (input : WriteStep) (steps : List WriteStep) :
    s.run (input :: steps) = (s.step input).bind (·.run steps) := rfl

theorem Tracked.run : ∀ (steps : List WriteStep) {s s' : HarnessWrites}, s.Tracked → s.KeepsAll steps →
    s.run steps = some s' → s'.Tracked
  | [], _, _, h, _, hs => by
    obtain rfl := Option.some.inj hs
    exact h
  | _ :: steps, _, _, h, hkeeps, hs => by
    rw [run_cons] at hs
    obtain ⟨s₁, h₁, hs⟩ := Option.bind_eq_some_iff.mp hs
    exact Tracked.run steps (h.step hkeeps.1 h₁) (hkeeps.2 s₁ h₁) hs

/-- **The session has the writes of the calls in their order, and gives the settings once none is
on its way, in every state of a run whose steps keep it so**, over a session that gives the
settings the harness is constructed with. -/
theorem run_recorded (tools : List String) (settings : HarnessSettings) (entries path : List TreeBody)
    (steps : List WriteStep) {s : HarnessWrites} (hsession : settingsOfPath path = settings.context)
    (hrun : (new tools settings entries path).run steps = some s)
    (hkeeps : (new tools settings entries path).KeepsAll steps) : s.Recorded :=
  ((tracked_new hsession).run steps hkeeps hrun).recorded

/-- A session that has its settings. -/
def recordedSession : List TreeBody :=
  [.modelChange "anthropic" "opus", .thinkingLevelChange "off", .activeToolsChange []]

/-- A thinking level that is set while the harness is idle. -/
theorem run_recorded_set : ∃ s, (new [] ⟨"anthropic", "opus", "off", []⟩ recordedSession recordedSession).run
    [.call (.setThinkingLevel "high"), .getLeafId 0, .settle 0 true] = some s ∧ s.Recorded :=
  ⟨_, rfl, run_recorded [] ⟨"anthropic", "opus", "off", []⟩ recordedSession recordedSession
    [.call (.setThinkingLevel "high"), .getLeafId 0, .settle 0 true] rfl rfl
    ⟨⟨(fun a ha => by cases ha), trivial, fun _ => ⟨rfl, rfl⟩⟩, fun _ _ => ⟨trivial, fun _ _ => ⟨trivial, fun _ _ => trivial⟩⟩⟩⟩

/-- A thinking level that is set during a compaction is flushed by the next run, after the one
that was set in between. -/
theorem run_not_recorded : ∃ s, (new [] ⟨"anthropic", "opus", "off", []⟩ recordedSession recordedSession).run
    [.life .compact, .call (.setThinkingLevel "high"), .life (.finishStructural 0),
      .call (.setThinkingLevel "low"), .getLeafId 0, .settle 0 true,
      .life .prompt, .life (.turnState 1 .ready), .life (.beforeAgentStart 1 true),
      .flushNext 1, .getLeafId 0, .settle 0 true] = some s ∧
    s.entries.filterMap Prod.fst = [1, 0] ∧ s.settings.thinkingLevel = "low" ∧
      (settingsOfPath s.path).thinkingLevel = "high" ∧ ¬s.Recorded := by
  refine ⟨_, rfl, rfl, rfl, rfl, fun h => ?_⟩
  have hrebuilt := congrArg ContextSettings.thinkingLevel (h.rebuilt rfl rfl)
  revert hrebuilt
  decide

end HarnessWrites

end Trek
