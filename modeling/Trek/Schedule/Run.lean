/-
# A batch of tool calls under the schedule

`runToolSchedule` of `core/algebra/process-schedule.ts` compiles the groups of a batch to processes and runs
them: one group after the other, the calls of a group in any order. A call that starts leaves its inverse on a
stack, which a revert takes from the top, and its value under its id. A batch of one call goes past the
compilation, and with it past the guard of the call; and a value is found by its id alone. These two apart, the
schedule is right in every state of every run (`runToolSchedule_right_iff`).
-/
import Mathlib.Logic.Function.Basic
import Mathlib.Data.List.Nodup
import Mathlib.Data.List.Perm.Basic
import Trek.Lib.Machine
import Trek.Schedule.Groups

namespace Trek.Schedule

variable {T I : Type*}

/-! ### The code -/

/-- What `memberProcess` returns, with the inverse that its run leaves. -/
inductive Process (I : Type*)
  | forward (inverse : Option I)
  | ifThenElse (when : Bool) (inverse : Option I)
  | invertible (inverse : I)

/-- Whether the process runs its call. -/
def Process.runs : Process I → Bool
  | .ifThenElse when _ => when
  | .forward _ | .invertible _ => true

/-- What the process pushes on `undos` before it runs its call. -/
def Process.inverse : Process I → Option I
  | .forward inverse | .ifThenElse _ inverse => inverse
  | .invertible inverse => some inverse

/-- `memberProcess`. -/
def memberProcess (inverseFor : ScheduledCall → Option I) (call : ScheduledCall) : Process I :=
  match call.when with
  | some when => .ifThenElse when (inverseFor call)
  | none =>
    match inverseFor call with
    | none => .forward none
    | some inverse => .invertible inverse

/-- A call of the batch, its place there and its process. -/
structure Member (I : Type*) where
  index : ℕ
  call : ScheduledCall
  process : Process I

/-- The groups with the places of their calls in the batch. -/
def numberGroups (inverseFor : ScheduledCall → Option I) : ℕ → List (List ScheduledCall) → List (List (Member I))
  | _, [] => []
  | n, group :: groups =>
    group.mapIdx (fun i call => ⟨n + i, call, memberProcess inverseFor call⟩) ::
      numberGroups inverseFor (n + group.length) groups

/-- The processes of a batch: a single call is run as it is. -/
def schedule (inverseFor : ScheduledCall → Option I) (calls : List ScheduledCall) : List (List (Member I)) :=
  if calls.length ≤ 1 then calls.mapIdx fun i call => [⟨i, call, .forward (inverseFor call)⟩]
  else numberGroups inverseFor 0 (planToolGroups calls)

/-- How far the schedule is. -/
inductive Status
  | live | finished | thrown
  deriving DecidableEq

/-- A schedule that runs: the groups to come, the current group with its calls that wait and those that run,
`undos` and `byId`, and the calls that have started, in their order. -/
structure State (T I : Type*) where
  status : Status
  todo : List (List (Member I))
  parallel : Bool
  pending : List (Member I)
  running : List (Member I)
  failed : Bool
  undos : List I
  byId : String → Option T
  started : List ℕ

/-- A schedule before its first group. -/
def State.new (inverseFor : ScheduledCall → Option I) (calls : List ScheduledCall) : State T I :=
  ⟨.live, schedule inverseFor calls, false, [], [], false, [], fun _ => none, []⟩

/-- What happens: a call that waits starts, a call that runs settles, a group has ended. -/
inductive Input
  | start (k : ℕ)
  | settle (k : ℕ)
  | next

section

/-! `outcome` is the value of each call, `none` where it throws, and `swallows` whether the parallel map reports a
call that throws in its results only. -/

variable (outcome : ℕ → Option T) (swallows : Bool)

/-- One step. -/
def State.step (s : State T I) : Input → Option (State T I)
  | .start k =>
    match s.pending[k]? with
    | none => none
    | some m =>
      let s := { s with pending := s.pending.eraseIdx k }
      if m.process.runs then
        some { s with
          running := s.running ++ [m]
          undos := s.undos ++ m.process.inverse.toList
          started := s.started ++ [m.index] }
      else some s
  | .settle k =>
    match s.running[k]? with
    | none => none
    | some m =>
      let s := { s with running := s.running.eraseIdx k }
      match outcome m.index with
      | some value => some { s with byId := Function.update s.byId m.call.id (some value) }
      | none => some { s with failed := true }
  | .next =>
    if s.status = .live ∧ s.pending.isEmpty ∧ s.running.isEmpty then
      if s.failed && !(s.parallel && swallows) then some { s with status := .thrown }
      else
        match s.todo with
        | [] => some { s with status := .finished }
        | group :: todo => some { s with todo, pending := group, parallel := 1 < group.length, failed := false }
    else none

end

/-- `orderedValues`. -/
def State.orderedValues (s : State T I) (calls : List ScheduledCall) : List (Option T) :=
  calls.map fun call => s.byId call.id

/-- What a revert does. -/
inductive Effect (I : Type*)
  | inverse (inverse : I)
  | trek
  | git

/-- `revert`, for the steps `trek` and `git` that there are. -/
def State.revert (s : State T I) (trek git : Bool) : List (Effect I) :=
  s.undos.reverse.map Effect.inverse ++ (if trek then [Effect.trek] else []) ++ (if git then [Effect.git] else [])

/-! ### What a schedule is to do -/

/-- A call whose guard, if it has one, is true. -/
def isOpen (call : ScheduledCall) : Bool := call.when ≠ some false

/-- No call with a false guard has started and none has twice, a revert runs the inverses of those that have,
the last one first, and the results are those of the calls in their order. -/
structure Right (inverseFor : ScheduledCall → Option I) (calls : List ScheduledCall) (outcome : ℕ → Option T) (s : State T I) :
    Prop where
  guards : ∀ i ∈ s.started, ∃ call, calls[i]? = some call ∧ isOpen call = true
  once : s.started.Nodup
  revert : ∀ trek git, s.revert trek git =
    (s.started.filterMap fun i => calls[i]?.bind inverseFor).reverse.map Effect.inverse ++
      (if trek then [Effect.trek] else []) ++ (if git then [Effect.git] else [])
  values : s.status = .finished →
    s.orderedValues calls = calls.mapIdx fun i call => if isOpen call then outcome i else none

/-- No two calls share an id, unless neither of them is to run. -/
def IdsApart (calls : List ScheduledCall) : Prop :=
  ∀ (i j : ℕ) (a b : ScheduledCall), calls[i]? = some a → calls[j]? = some b → i ≠ j → a.id = b.id → isOpen a = false ∧ isOpen b = false

/-! ### The members -/

@[simp] theorem memberProcess_inverse (inverseFor : ScheduledCall → Option I) (call : ScheduledCall) :
    (memberProcess inverseFor call).inverse = inverseFor call := by
  unfold memberProcess
  split
  · rfl
  · split
    · rename_i h
      exact h.symm
    · rename_i h
      exact h.symm

@[simp] theorem memberProcess_runs (inverseFor : ScheduledCall → Option I) (call : ScheduledCall) :
    (memberProcess inverseFor call).runs = isOpen call := by
  unfold memberProcess isOpen
  cases hwhen : call.when with
  | some when => cases when <;> rfl
  | none =>
    simp only
    split <;> rfl

theorem numberGroups_flatten (inverseFor : ScheduledCall → Option I) : ∀ (groups : List (List ScheduledCall)) (n : ℕ),
    (numberGroups inverseFor n groups).flatten =
      groups.flatten.mapIdx fun i call => ⟨n + i, call, memberProcess inverseFor call⟩
  | [], _ => rfl
  | group :: groups, n => by
    rw [numberGroups, List.flatten_cons, List.flatten_cons, List.mapIdx_append, numberGroups_flatten inverseFor groups]
    congr 1
    refine List.mapIdx_eq_mapIdx_iff.mpr fun i hi => ?_
    rw [Nat.add_assoc, Nat.add_comm group.length]

/-- The calls still to start or to settle. -/
def State.remaining (s : State T I) : List (Member I) := s.running ++ s.pending ++ s.todo.flatten

/-- The calls of a batch, in their order, each with a process that runs it if its guard lets it. -/
theorem schedule_flatten (inverseFor : ScheduledCall → Option I) {calls : List ScheduledCall}
    (hsingle : ∀ call, calls = [call] → isOpen call = true) :
    ∃ process : ScheduledCall → Process I, (∀ call ∈ calls, (process call).runs = isOpen call ∧
        (process call).inverse = inverseFor call) ∧
      (schedule inverseFor calls).flatten = calls.mapIdx fun i call => ⟨i, call, process call⟩ := by
  unfold schedule
  split
  · rename_i hlen
    refine ⟨fun call => .forward (inverseFor call), fun call hcall => ⟨?_, rfl⟩, ?_⟩
    · cases calls with
      | nil => cases hcall
      | cons a calls =>
        obtain rfl : calls = [] := List.eq_nil_of_length_eq_zero (Nat.le_zero.mp (Nat.le_of_succ_le_succ hlen))
        obtain rfl := List.mem_singleton.mp hcall
        exact (hsingle call rfl).symm
    · cases calls with
      | nil => rfl
      | cons a calls =>
        obtain rfl : calls = [] := List.eq_nil_of_length_eq_zero (Nat.le_zero.mp (Nat.le_of_succ_le_succ hlen))
        rfl
  · refine ⟨memberProcess inverseFor, fun call _ => ⟨memberProcess_runs _ _, memberProcess_inverse _ _⟩, ?_⟩
    rw [numberGroups_flatten, planToolGroups, planLoop_flatten, List.nil_append]
    simp only [Nat.zero_add]

/-! ### The invariant -/

/-- The invariant: which calls remain, what the others have left on the stack and under their ids. -/
structure ScheduleInv (inverseFor : ScheduledCall → Option I) (calls : List ScheduledCall) (outcome : ℕ → Option T)
    (s : State T I) : Prop where
  known : ∀ m ∈ s.remaining, calls[m.index]? = some m.call ∧ m.process.runs = isOpen m.call ∧
    m.process.inverse = inverseFor m.call
  nodup : (s.remaining.map Member.index).Nodup
  running : ∀ m ∈ s.running, isOpen m.call = true
  waiting : ∀ m ∈ s.pending ++ s.todo.flatten, m.index ∉ s.started
  guards : ∀ i ∈ s.started, ∃ call, calls[i]? = some call ∧ isOpen call = true
  once : s.started.Nodup
  undos : s.undos = s.started.filterMap fun i => calls[i]?.bind inverseFor
  values : ∀ (i : ℕ) call, calls[i]? = some call →
    s.byId call.id = if isOpen call = true ∧ i ∉ s.remaining.map Member.index then outcome i else none
  finished : s.status = .finished → s.remaining = []

/-- A member taken out of a list. -/
theorem eraseIdx_perm {members : List (Member I)} {k : ℕ} {m : Member I} (h : members[k]? = some m) :
    members.Perm (m :: members.eraseIdx k) := by
  obtain ⟨hk, rfl⟩ := List.getElem?_eq_some_iff.mp h
  exact (List.getElem_cons_eraseIdx_perm hk).symm

namespace ScheduleInv

variable {inverseFor : ScheduledCall → Option I} {calls : List ScheduledCall} {outcome : ℕ → Option T} {swallows : Bool}
  {s s' : State T I}

theorem right (h : ScheduleInv inverseFor calls outcome s) : Right inverseFor calls outcome s where
  guards := h.guards
  once := h.once
  revert trek git := by rw [State.revert, h.undos]
  values hfinished := by
    refine List.ext_getElem? fun i => ?_
    rw [State.orderedValues, List.getElem?_map, List.getElem?_mapIdx]
    cases hcall : calls[i]? with
    | none => rfl
    | some call =>
      have hvalue := h.values i call hcall
      rw [h.finished hfinished] at hvalue
      simp only [List.map_nil, List.not_mem_nil, not_false_eq_true, and_true] at hvalue
      rw [Option.map_some, Option.map_some, hvalue]

theorem new (hsingle : ∀ call, calls = [call] → isOpen call = true) :
    ScheduleInv inverseFor calls outcome (State.new inverseFor calls) := by
  obtain ⟨process, hprocess, hflatten⟩ := schedule_flatten inverseFor hsingle
  have hremaining : (State.new inverseFor calls : State T I).remaining =
      calls.mapIdx fun i call => ⟨i, call, process call⟩ := hflatten
  have hindex : ((State.new inverseFor calls : State T I).remaining.map Member.index) = List.range calls.length := by
    rw [hremaining]
    refine List.ext_getElem (by simp) fun i h1 h2 => ?_
    simp
  refine ⟨?_, ?_, fun m hm => ?_, fun m _ => List.not_mem_nil, fun i hi => ?_, List.nodup_nil, rfl, ?_, fun hne => ?_⟩
  · intro m hm
    rw [hremaining, List.mem_mapIdx] at hm
    obtain ⟨i, hi, rfl⟩ := hm
    obtain ⟨hruns, hinverse⟩ := hprocess _ (List.getElem_mem hi)
    exact ⟨List.getElem?_eq_getElem hi, hruns, hinverse⟩
  · rw [hindex]
    exact List.nodup_range
  · cases hm
  · cases hi
  · intro i call hcall
    obtain ⟨hi, -⟩ := List.getElem?_eq_some_iff.mp hcall
    rw [hindex, if_neg]
    · rfl
    · rintro ⟨-, hno⟩
      exact hno (List.mem_range.mpr hi)
  · cases hne

/-- A call that starts goes from those that wait to those that run. -/
theorem start {k : ℕ} {m : Member I} (h : ScheduleInv inverseFor calls outcome s) (hm : s.pending[k]? = some m)
    (hruns : m.process.runs = true) :
    ScheduleInv inverseFor calls outcome
      { s with
        pending := s.pending.eraseIdx k
        running := s.running ++ [m]
        undos := s.undos ++ m.process.inverse.toList
        started := s.started ++ [m.index] } := by
  have hpending := eraseIdx_perm hm
  have hperm : (s.running ++ [m] ++ s.pending.eraseIdx k ++ s.todo.flatten).Perm s.remaining := by
    rw [List.append_assoc s.running, List.singleton_append]
    exact (hpending.symm.append_left _).append_right _
  have hmem : m ∈ s.pending := List.mem_of_getElem? hm
  obtain ⟨hcall, hopen, hinverse⟩ := h.known m (by simp [State.remaining, hmem])
  rw [hopen] at hruns
  have hnew : m.index ∉ s.started := h.waiting m (List.mem_append_left _ hmem)
  -- the calls that wait on are others
  have hother : m.index ∉ (s.pending.eraseIdx k ++ s.todo.flatten).map Member.index := by
    have hnodup := ((hpending.append_left s.running).append_right s.todo.flatten).map Member.index |>.nodup_iff.mp h.nodup
    rw [List.append_assoc, List.map_append, List.cons_append, List.map_cons] at hnodup
    exact (List.nodup_cons.mp hnodup.of_append_right).1
  refine ⟨fun x hx => h.known x (hperm.mem_iff.mp hx), (hperm.map _).nodup_iff.mpr h.nodup, ?_, ?_, ?_, ?_, ?_, ?_, ?_⟩
  · intro x hx
    rcases List.mem_append.mp hx with hx | hx
    · exact h.running x hx
    · rw [List.mem_singleton.mp hx]
      exact hruns
  · intro x hx hstarted
    rcases List.mem_append.mp hstarted with hstarted | hstarted
    · refine h.waiting x ?_ hstarted
      rcases List.mem_append.mp hx with hx | hx
      · exact List.mem_append_left _ (List.mem_of_mem_eraseIdx hx)
      · exact List.mem_append_right _ hx
    · exact hother (List.mem_map.mpr ⟨x, hx, List.mem_singleton.mp hstarted⟩)
  · intro i hi
    rcases List.mem_append.mp hi with hi | hi
    · exact h.guards i hi
    · rw [List.mem_singleton.mp hi]
      exact ⟨m.call, hcall, hruns⟩
  · refine List.nodup_append.mpr ⟨h.once, List.nodup_singleton _, fun a ha b hb => ?_⟩
    rw [List.mem_singleton.mp hb]
    rintro rfl
    exact hnew ha
  · rw [List.filterMap_append, h.undos, hinverse]
    simp only [List.filterMap_cons, List.filterMap_nil, hcall, Option.bind_some]
    cases inverseFor m.call <;> rfl
  · intro i call hi
    rw [h.values i call hi]
    exact if_congr (and_congr_right' (not_congr (hperm.map Member.index).mem_iff.symm)) rfl rfl
  · intro hfinished
    have hnone := h.finished hfinished
    rw [hnone] at hperm
    exact hperm.eq_nil

/-- A call that is done with: it leaves its value, or nothing. -/
theorem leave {m : Member I} (h : ScheduleInv inverseFor calls outcome s) (hperm : s.remaining.Perm (m :: s'.remaining))
    (hstatus : s'.status = s.status) (hstarted : s'.started = s.started) (hundos : s'.undos = s.undos)
    (hrunning : ∀ x ∈ s'.running, x ∈ s.running)
    (hwaiting : ∀ x ∈ s'.pending ++ s'.todo.flatten, x ∈ s.pending ++ s.todo.flatten)
    (hvalue : ∀ (i : ℕ) call, calls[i]? = some call → s'.byId call.id =
      if i = m.index then (if isOpen call = true then outcome i else none) else s.byId call.id) :
    ScheduleInv inverseFor calls outcome s' := by
  have hnodup := (hperm.map Member.index).nodup_iff.mp h.nodup
  rw [List.map_cons, List.nodup_cons] at hnodup
  refine ⟨fun x hx => h.known x (hperm.mem_iff.mpr (List.mem_cons_of_mem _ hx)), hnodup.2, fun x hx => h.running x (hrunning x hx),
    fun x hx => hstarted ▸ h.waiting x (hwaiting x hx), hstarted ▸ h.guards, hstarted ▸ h.once, ?_, ?_, ?_⟩
  · rw [hundos, hstarted, h.undos]
  · intro i call hi
    rw [hvalue i call hi]
    by_cases hm : i = m.index
    · rw [if_pos hm]
      refine if_congr ?_ rfl rfl
      rw [hm]
      exact (and_iff_left hnodup.1).symm
    · rw [if_neg hm, h.values i call hi]
      refine if_congr (and_congr_right' (not_congr ?_)) rfl rfl
      rw [(hperm.map Member.index).mem_iff, List.map_cons, List.mem_cons, or_iff_right hm]
  · intro hfinished
    have hnone := h.finished (hstatus ▸ hfinished)
    rw [hnone] at hperm
    cases hperm.nil_eq

/-- A call that a false guard keeps from its run is done with. -/
theorem skip {k : ℕ} {m : Member I} (h : ScheduleInv inverseFor calls outcome s) (hm : s.pending[k]? = some m)
    (hruns : m.process.runs = false) : ScheduleInv inverseFor calls outcome { s with pending := s.pending.eraseIdx k } := by
  have hperm : s.remaining.Perm (m :: (s.running ++ s.pending.eraseIdx k ++ s.todo.flatten)) := by
    have hpending := ((eraseIdx_perm hm).append_left s.running).append_right s.todo.flatten
    exact hpending.trans (List.perm_middle.append_right _)
  obtain ⟨hcall, hopen, -⟩ := h.known m (hperm.mem_iff.mpr List.mem_cons_self)
  refine h.leave hperm rfl rfl rfl (fun x hx => hx) ?_ ?_
  · intro x hx
    rcases List.mem_append.mp hx with hx | hx
    · exact List.mem_append_left _ (List.mem_of_mem_eraseIdx hx)
    · exact List.mem_append_right _ hx
  · intro i call hi
    split
    · rename_i heq
      rw [heq, hcall] at hi
      obtain rfl := Option.some.inj hi
      rw [h.values m.index m.call hcall, ← hopen, hruns]
      rfl
    · rfl

/-- The value of a call goes under its id, which no other call that runs has. -/
theorem settle {k : ℕ} {m : Member I} (failed : Bool) (hids : IdsApart calls) (h : ScheduleInv inverseFor calls outcome s)
    (hm : s.running[k]? = some m) :
    ScheduleInv inverseFor calls outcome
      { s with
        running := s.running.eraseIdx k
        failed
        byId := if (outcome m.index).isSome then Function.update s.byId m.call.id (outcome m.index) else s.byId } := by
  have hperm : s.remaining.Perm (m :: (s.running.eraseIdx k ++ s.pending ++ s.todo.flatten)) :=
    ((eraseIdx_perm hm).append_right s.pending).append_right s.todo.flatten
  obtain ⟨hcall, -, -⟩ := h.known m (hperm.mem_iff.mpr List.mem_cons_self)
  have hopen := h.running m (List.mem_of_getElem? hm)
  refine h.leave hperm rfl rfl rfl (fun x hx => List.mem_of_mem_eraseIdx hx) (fun x hx => hx) fun i call hi => ?_
  by_cases heq : i = m.index
  · rw [if_pos heq]
    rw [heq, hcall] at hi
    obtain rfl := Option.some.inj hi
    rw [heq, if_pos hopen]
    split
    · exact Function.update_self ..
    · rename_i hnone
      have hbefore := h.values m.index m.call hcall
      have hmem : m.index ∈ s.remaining.map Member.index :=
        List.mem_map_of_mem (hperm.mem_iff.mpr List.mem_cons_self)
      rw [if_neg fun hand => hand.2 hmem] at hbefore
      rw [hbefore]
      exact (Option.not_isSome_iff_eq_none.mp hnone).symm
  · rw [if_neg heq]
    have hid : call.id ≠ m.call.id := by
      intro hid
      have hclosed := (hids i m.index call m.call hi hcall heq hid).2
      rw [hopen] at hclosed
      cases hclosed
    split
    · exact Function.update_of_ne hid ..
    · rfl

/-- **One step** of a batch whose calls have their own ids. -/
theorem step (hids : IdsApart calls) {input : Input} (h : ScheduleInv inverseFor calls outcome s)
    (hs : s.step outcome swallows input = some s') : ScheduleInv inverseFor calls outcome s' := by
  cases input with
  | start k =>
    simp only [State.step] at hs
    split at hs
    · cases hs
    · rename_i m hm
      split at hs
      · rename_i hruns
        obtain rfl := Option.some.inj hs
        exact h.start hm hruns
      · rename_i hruns
        obtain rfl := Option.some.inj hs
        exact h.skip hm (Bool.eq_false_iff.mpr hruns)
  | settle k =>
    simp only [State.step] at hs
    split at hs
    · cases hs
    · rename_i m hm
      split at hs
      · rename_i value hvalue
        have hsettle := h.settle s.failed hids hm
        rw [hvalue] at hsettle
        obtain rfl := Option.some.inj hs
        exact hsettle
      · rename_i hvalue
        have hsettle := h.settle true hids hm
        rw [hvalue] at hsettle
        obtain rfl := Option.some.inj hs
        exact hsettle
  | next =>
    simp only [State.step] at hs
    split at hs
    · rename_i hdone
      obtain ⟨hlive, hpending, hrunning⟩ := hdone
      rw [List.isEmpty_iff] at hpending hrunning
      split at hs
      · obtain rfl := Option.some.inj hs
        exact ⟨h.known, h.nodup, h.running, h.waiting, h.guards, h.once, h.undos, h.values, fun hne => by cases hne⟩
      · split at hs
        · rename_i htodo
          obtain rfl := Option.some.inj hs
          refine ⟨h.known, h.nodup, h.running, h.waiting, h.guards, h.once, h.undos, h.values, fun _ => ?_⟩
          show s.running ++ s.pending ++ s.todo.flatten = []
          rw [hpending, hrunning, htodo]
          rfl
        · rename_i group todo htodo
          obtain rfl := Option.some.inj hs
          have hremaining : s.remaining = s.running ++ group ++ todo.flatten := by
            rw [State.remaining, hpending, htodo, List.append_nil, List.flatten_cons, List.append_assoc]
          have hwaiting := h.waiting
          rw [hpending, htodo, List.nil_append, List.flatten_cons] at hwaiting
          have hknown := h.known
          have hnodup := h.nodup
          have hvalues := h.values
          rw [hremaining] at hknown hnodup hvalues
          exact ⟨hknown, hnodup, h.running, hwaiting, h.guards, h.once, h.undos, hvalues, fun hne => by
            rw [hlive] at hne
            cases hne⟩
    · cases hs

end ScheduleInv

/-! ### Runs to the end -/

section

variable {outcome : ℕ → Option T} (houtcome : ∀ i, (outcome i).isSome = true) (swallows : Bool)

include houtcome

/-- The calls of a group, one after the other. -/
theorem exists_run_group : ∀ (pending : List (Member I)) {s : State T I}, s.pending = pending → s.running = [] →
    s.failed = false → ∃ inputs s', Machine.run (State.step outcome swallows) s inputs = some s' ∧ s'.status = s.status ∧
      s'.todo = s.todo ∧ s'.pending = [] ∧ s'.running = [] ∧ s'.failed = false
  | [], s, hpending, hrunning, hfailed => ⟨[], s, rfl, rfl, rfl, hpending, hrunning, hfailed⟩
  | m :: pending, s, hpending, hrunning, hfailed => by
    by_cases hruns : m.process.runs = true
    · obtain ⟨value, hvalue⟩ := Option.isSome_iff_exists.mp (houtcome m.index)
      obtain ⟨inputs, s', hrun, hrest⟩ := exists_run_group pending
        (s := { s with
          pending
          running := []
          undos := s.undos ++ m.process.inverse.toList
          started := s.started ++ [m.index]
          byId := Function.update s.byId m.call.id (some value) }) rfl rfl hfailed
      refine ⟨.start 0 :: .settle 0 :: inputs, s', ?_, hrest⟩
      have hstart : s.step outcome swallows (.start 0) = some { s with
          pending
          running := [m]
          undos := s.undos ++ m.process.inverse.toList
          started := s.started ++ [m.index] } := by
        simp [State.step, hpending, hrunning, hruns]
      rw [Machine.run_cons, hstart, Option.bind_some, Machine.run_cons]
      simp only [State.step, hvalue, List.getElem?_cons_zero, List.eraseIdx_cons_zero, Option.bind_some]
      exact hrun
    · obtain ⟨inputs, s', hrun, hrest⟩ := exists_run_group pending (s := { s with pending }) rfl hrunning hfailed
      refine ⟨.start 0 :: inputs, s', ?_, hrest⟩
      rw [Machine.run_cons]
      simp only [State.step, hpending, List.getElem?_cons_zero, List.eraseIdx_cons_zero, Option.bind_some,
        if_neg hruns]
      exact hrun

/-- A batch whose calls all return runs to its end. -/
theorem exists_run_todo : ∀ (todo : List (List (Member I))) {s : State T I}, s.todo = todo → s.status = .live →
    s.pending = [] → s.running = [] → s.failed = false →
    ∃ inputs s', Machine.run (State.step outcome swallows) s inputs = some s' ∧ s'.status = .finished
  | [], s, htodo, hlive, hpending, hrunning, hfailed => by
    refine ⟨[.next], { s with status := .finished }, ?_, rfl⟩
    rw [Machine.run_singleton]
    simp [State.step, hlive, hpending, hrunning, hfailed, htodo]
  | group :: todo, s, htodo, hlive, hpending, hrunning, hfailed => by
    obtain ⟨inputs, s', hrun, hstatus, htodo', hpending', hrunning', hfailed'⟩ := exists_run_group houtcome swallows group
      (s := { s with todo, pending := group, parallel := 1 < group.length, failed := false }) rfl hrunning rfl
    obtain ⟨inputs', s'', hrun', hfinished⟩ :=
      exists_run_todo todo htodo' (hstatus.trans hlive) hpending' hrunning' hfailed'
    refine ⟨.next :: (inputs ++ inputs'), s'', ?_, hfinished⟩
    rw [Machine.run_cons, show s.step outcome swallows .next =
      some { s with todo, pending := group, parallel := 1 < group.length, failed := false } by
        simp [State.step, hlive, hpending, hrunning, hfailed, htodo]]
    exact Machine.run_append_eq_some.mpr ⟨s', hrun, hrun'⟩

end

/-! ### When the schedule is right -/

/-- **The schedule is right exactly where a single call has no false guard and no two calls share an id.** In every
state of every run, whatever the calls return and whatever order the calls of a group take, no call has run
against its guard, a revert runs the inverses of the calls that have started, and the results are those of the calls. -/
theorem runToolSchedule_right_iff [Nontrivial T] (inverseFor : ScheduledCall → Option I) (calls : List ScheduledCall) :
    (∀ (outcome : ℕ → Option T) swallows inputs s,
      Machine.run (State.step outcome swallows) (State.new inverseFor calls) inputs = some s →
        Right inverseFor calls outcome s) ↔
      (∀ call, calls = [call] → isOpen call = true) ∧ IdsApart calls := by
  constructor
  · intro h
    refine ⟨?_, ?_⟩
    · -- the single call is run at once
      rintro call rfl
      obtain ⟨value, -⟩ := exists_pair_ne T
      have hrun : Machine.run (State.step (fun _ => some value) true) (State.new inverseFor [call]) [.next, .start 0] =
          some ⟨.live, [], false, [], [⟨0, call, .forward (inverseFor call)⟩], false, (inverseFor call).toList, fun _ => none,
            [0]⟩ := rfl
      obtain ⟨other, hother, hopen⟩ := (h _ _ _ _ hrun).guards 0 (List.mem_singleton_self 0)
      obtain rfl : call = other := Option.some.inj hother
      exact hopen
    · -- two calls of one id, where the first is to return its own value
      have hclosed : ∀ (i j : ℕ) (a b : ScheduledCall), calls[i]? = some a → calls[j]? = some b → i ≠ j → a.id = b.id →
          isOpen a = false := by
        intro i j a b ha hb hne hid
        obtain ⟨v, w, hvw⟩ := exists_pair_ne T
        have hsome : ∀ k, (if k = i then some v else some w).isSome = true := by
          intro k
          split <;> rfl
        obtain ⟨inputs, s, hrun, hfinished⟩ := exists_run_todo hsome true _
          (s := State.new inverseFor calls) rfl rfl rfl rfl rfl
        have hvalues := (h _ _ _ _ hrun).values hfinished
        have hat : ∀ (k : ℕ) call, calls[k]? = some call →
            s.byId call.id = if isOpen call = true then (if k = i then some v else some w) else none := by
          intro k call hcall
          have hk := congrArg (·[k]?) hvalues
          simp only [State.orderedValues, List.getElem?_map, List.getElem?_mapIdx, hcall, Option.map_some] at hk
          exact Option.some.inj hk
        by_contra hopen
        have hfirst := hat i a ha
        rw [if_pos ((Bool.not_eq_false _).mp hopen), if_pos rfl, hid, hat j b hb, if_neg hne.symm] at hfirst
        split at hfirst
        · exact hvw (Option.some.inj hfirst).symm
        · cases hfirst
      exact fun i j a b ha hb hne hid => ⟨hclosed i j a b ha hb hne hid, hclosed j i b a hb ha hne.symm hid.symm⟩
  · rintro ⟨hsingle, hids⟩ outcome swallows inputs s hrun
    exact (Machine.inv_run (fun _ _ _ h hs => h.step hids hs) inputs (ScheduleInv.new hsingle) hrun).right

/-- Two edits, the second behind a false guard. -/
def guardedBatch : List ScheduledCall := [⟨"1", "edit", .obj [("path", .str "a.txt")], none⟩, ⟨"2", "edit", .obj [("path", .str "b.txt")], some false⟩]

theorem guardedBatch_right : ∃ s : State ℕ String, Machine.run (State.step some false)
      (State.new (fun call => some call.id) guardedBatch) [.next, .start 1, .start 0, .settle 0, .next] = some s ∧
    s.status = .finished ∧ Right (fun call => some call.id) guardedBatch some s := by
  have hids : IdsApart guardedBatch := by
    intro i j a b ha hb hne hid
    rcases i with _ | _ | i <;> rcases j with _ | _ | j <;> simp only [guardedBatch, List.getElem?_cons_zero,
      List.getElem?_cons_succ, List.getElem?_nil, Option.some.injEq, reduceCtorEq] at ha hb
    · exact absurd rfl hne
    · subst ha hb
      exact absurd hid (by decide)
    · subst ha hb
      exact absurd hid (by decide)
    · exact absurd rfl hne
  refine ⟨_, rfl, rfl, ?_⟩
  exact (runToolSchedule_right_iff (fun call => some call.id) guardedBatch).mpr ⟨fun call h => (by cases h), hids⟩
    some false [.next, .start 1, .start 0, .settle 0, .next] _ rfl

/-- A single call runs although its guard is false. -/
theorem runToolSchedule_not_right : ¬ ∀ (inverseFor : ScheduledCall → Option String) (calls : List ScheduledCall)
    (outcome : ℕ → Option ℕ) (swallows : Bool) (inputs : List Input) (s : State ℕ String),
    Machine.run (State.step outcome swallows) (State.new inverseFor calls) inputs = some s →
      Right inverseFor calls outcome s := by
  intro h
  obtain ⟨call, hcall, hopen⟩ := (h (fun call => some call.id) [⟨"1", "edit", .obj [("path", .str "a.txt")], some false⟩]
    (fun _ => some 0) false [.next, .start 0] _ rfl).guards 0 (List.mem_singleton_self 0)
  obtain rfl := Option.some.inj hcall
  cases hopen

end Trek.Schedule
