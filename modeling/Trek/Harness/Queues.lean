/-
# The queued messages of an agent harness

`steer`, `followUp` and `nextTurn` of `AgentHarness` queue messages, `abort` clears two of
the queues, and runs take messages and append them to the session. What a run has taken is
in its own variables: when it throws before all of it is appended, or when the queue it
would put messages back into has been replaced, they are gone. Where that does not happen
every accepted message is in one place, and the session has those of one queue in the order
they were accepted (`run_conserved`).
-/
import Mathlib.Algebra.Order.Group.Multiset
import Mathlib.Tactic.Abel
import Trek.Agent.Events
import Trek.Harness.Lifecycle

namespace Trek

/-- The queues of the harness. -/
inductive QueueName
  | steer | followUp | nextTurn
  deriving DecidableEq

/-- A message that was accepted: its number, and the queue it was accepted into. -/
structure QueuedMessage (α : Type*) where
  id : ℕ
  queue : QueueName
  message : α

/-- The variables of a run: the messages it has taken and is to append, and the ones that
`drainQueuedMessages` has taken from an array while it awaits the queue update. -/
structure Taken (α : Type*) where
  messages : List (QueuedMessage α)
  draining : Option (QueueName × ℕ × List (QueuedMessage α))

namespace Taken

variable {α : Type*}

/-- Nothing taken. -/
def nothing : Taken α := ⟨[], none⟩

/-- Everything a run has taken. -/
def all (t : Taken α) : List (QueuedMessage α) :=
  (match t.draining with
    | some (_, _, messages) => messages
    | none => []) ++ t.messages

end Taken

/-- A step of the harness. -/
inductive QueueStep (α : Type*)
  | life (input : LifeStep)
  /-- `steer`, `followUp` and `nextTurn`. -/
  | accept (queue : QueueName) (message : α)
  /-- `setSteeringMode` and `setFollowUpMode`. -/
  | setMode (queue : QueueName) (mode : QueueMode)
  /-- `createTurnState`, and the start of `executeTurn`. -/
  | turnState (i : ℕ) (ok : Bool)
  /-- The queue update in `executeTurn`. -/
  | queueUpdate (i : ℕ) (ok : Bool)
  | beforeAgentStart (i : ℕ) (ok : Bool)
  /-- `message_end` of a message that was taken. -/
  | deliver (i : ℕ)
  /-- `getSteeringMessages` and `getFollowUpMessages`. -/
  | drain (i : ℕ) (queue : QueueName)
  /-- The queue update in `drainQueuedMessages`. -/
  | drained (i : ℕ) (ok : Bool)
  | agentEnd (i : ℕ)
  | throw (i : ℕ)
  | abort

/-- The harness, as far as it queues messages. `steerQueue`, `followUpQueue` and `nextTurnQueue`
are the queues by their names, `array` says how often one was replaced by another array, and
`cleared` is what `abort` calls report. `accepted` are all messages, in order. -/
structure HarnessQueues (α : Type*) where
  life : Lifecycle
  mode : QueueName → QueueMode
  queue : QueueName → List (QueuedMessage α)
  array : QueueName → ℕ
  taken : ℕ → Taken α
  session : List (QueuedMessage α)
  cleared : List (QueuedMessage α)
  accepted : List (QueuedMessage α)

namespace HarnessQueues

variable {α : Type*}

/-- A harness as it is constructed. -/
def new (steeringMode followUpMode : QueueMode) : HarnessQueues α where
  life := .new
  mode := fun
    | .steer => steeringMode
    | .followUp => followUpMode
    | .nextTurn => .all
  queue := fun _ => []
  array := fun _ => 0
  taken := fun _ => .nothing
  session := []
  cleared := []
  accepted := []

/-- What a run takes. -/
def take (s : HarnessQueues α) (i : ℕ) (t : Taken α) : HarnessQueues α := { s with taken := Function.update s.taken i t }

/-- The messages of a queue. -/
def setQueue (s : HarnessQueues α) (k : QueueName) (messages : List (QueuedMessage α)) : HarnessQueues α :=
  { s with queue := Function.update s.queue k messages }

/-- `queue.splice(0)` or `queue.splice(0, 1)`: what is taken, and what is left. -/
def splice (mode : QueueMode) (queue : List (QueuedMessage α)) : List (QueuedMessage α) × List (QueuedMessage α) :=
  match mode with
  | .all => (queue, [])
  | .oneAtATime => (queue.take 1, queue.drop 1)

/-- A step of the runs that the queues have no part in. -/
def lifeStep (s : HarnessQueues α) (input : LifeStep) : Option (HarnessQueues α) :=
  (s.life.step input).map ({ s with life := · })

/-- One step. -/
def step (s : HarnessQueues α) : QueueStep α → Option (HarnessQueues α)
  | .life input =>
    match input with
    | .prompt | .compact | .navigateTree | .waitForIdle | .finishLoop _ | .flush _ _ | .finishPrompt _
    | .finishStructural _ => s.lifeStep input
    | _ => none
  | .accept k message =>
    -- `steer` and `followUp` throw in an idle harness
    some (if k ≠ .nextTurn ∧ s.life.phase = .idle then s
      else
        let q : QueuedMessage α := ⟨s.accepted.length, k, message⟩
        { s.setQueue k (s.queue k ++ [q]) with accepted := s.accepted ++ [q] })
  | .setMode k mode => some { s with mode := Function.update s.mode k mode }
  | .turnState i ok =>
    if ok then
      if (s.queue .nextTurn).isEmpty then s.lifeStep (.turnState i .ready)
      else ((s.take i ⟨s.queue .nextTurn, none⟩).setQueue .nextTurn []).lifeStep (.turnState i .queued)
    else s.lifeStep (.turnState i .thrown)
  | .queueUpdate i ok =>
    if ok then s.lifeStep (.queueUpdate i true)
    else ((s.take i .nothing).setQueue .nextTurn ((s.taken i).messages ++ s.queue .nextTurn)).lifeStep
      (.queueUpdate i false)
  | .beforeAgentStart i ok =>
    if ok then s.lifeStep (.beforeAgentStart i true) else (s.take i .nothing).lifeStep (.beforeAgentStart i false)
  | .deliver i =>
    match s.life.operations[i]?, s.taken i with
    | some (.run .looping), ⟨q :: messages, none⟩ => some { s.take i ⟨messages, none⟩ with session := s.session ++ [q] }
    | _, _ => none
  | .drain i k =>
    match s.life.operations[i]?, s.taken i with
    | some (.run .looping), ⟨[], none⟩ =>
      if k = .nextTurn then none
      else
        let (messages, rest) := splice (s.mode k) (s.queue k)
        some (if messages.isEmpty then s
          else (s.take i ⟨[], some (k, s.array k, messages)⟩).setQueue k rest)
    | _, _ => none
  | .drained i ok =>
    match s.taken i with
    | ⟨_, some (k, array, messages)⟩ =>
      if ok then some (s.take i ⟨messages, none⟩)
      else
        -- the messages go back into the array they were taken from
        let s' := s.take i .nothing
        (if array = s.array k then s'.setQueue k (messages ++ s.queue k) else s').lifeStep (.throw i)
    | _ => none
  | .agentEnd i => if (s.taken i).all.isEmpty then s.lifeStep (.agentEnd i) else none
  | .throw i => if (s.taken i).draining.isSome then none else (s.take i .nothing).lifeStep (.throw i)
  | .abort =>
    { (s.setQueue .steer []).setQueue .followUp [] with
      array := fun k => if k = QueueName.nextTurn then s.array k else s.array k + 1
      cleared := s.cleared ++ s.queue .steer ++ s.queue .followUp }.lifeStep .abort

/-- A run of the harness. -/
def run (s : HarnessQueues α) (steps : List (QueueStep α)) : Option (HarnessQueues α) := steps.foldlM step s

/-! ### Every message is in one place -/

/-- The messages of the queues. -/
def queues (s : HarnessQueues α) : List (QueuedMessage α) := s.queue .steer ++ s.queue .followUp ++ s.queue .nextTurn

/-- The messages that runs have taken. -/
def held (s : HarnessQueues α) : List (QueuedMessage α) :=
  (List.range s.life.operations.length).flatMap fun i => (s.taken i).all

/-- The numbers of the messages of a queue. -/
def idsOf (k : QueueName) (messages : List (QueuedMessage α)) : List ℕ :=
  (messages.filter (·.queue = k)).map (·.id)

end HarnessQueues

/-- The stages in which a run has messages to append. -/
def Stage.delivers : Stage → Bool
  | .announcing | .starting | .looping => true
  | _ => false

namespace HarnessQueues

variable {α : Type*}

/-- Every accepted message is in the session, in a queue, with a run that is to append it, or
cleared, and there once; and the session has the messages of one queue in the order they were
accepted. -/
structure Conserved (s : HarnessQueues α) : Prop where
  numbered : s.accepted.map (·.id) = List.range s.accepted.length
  once : (s.session ++ s.queues ++ s.held ++ s.cleared).Perm s.accepted
  carried : ∀ i, (s.taken i).all ≠ [] → ∃ stage : Stage, s.life.operations[i]? = some (.run stage) ∧
    stage.delivers = true
  inOrder : ∀ k, (idsOf k s.session).Pairwise (· < ·)

/-- When a step loses no message and overtakes none. A run takes messages while no other run has
any; one whose `before_agent_start` fails, or that throws, has none; and a queue update that
fails finds the queue that the messages were taken from. -/
def Keeps (s : HarnessQueues α) : QueueStep α → Prop
  | .turnState i true | .drain i _ => ∀ j, j ≠ i → (s.taken j).all = []
  | .beforeAgentStart i false | .throw i => (s.taken i).all = []
  | .drained i false => ∀ k array messages, (s.taken i).draining = some (k, array, messages) → array = s.array k
  | _ => True

/-- Every step of a run is such a step. -/
def KeepsAll : HarnessQueues α → List (QueueStep α) → Prop
  | _, [] => True
  | s, input :: steps => s.Keeps input ∧ ∀ s', s.step input = some s' → KeepsAll s' steps

/-! ### Queues as multisets -/

theorem idsOf_append (k : QueueName) (l l' : List (QueuedMessage α)) : idsOf k (l ++ l') = idsOf k l ++ idsOf k l' := by
  simp [idsOf]

theorem idsOf_of_queue {k k' : QueueName} {l : List (QueuedMessage α)} (h : ∀ q ∈ l, q.queue = k) (hne : k' ≠ k) :
    idsOf k' l = [] := by
  have hnil : l.filter (·.queue = k') = [] := by
    rw [List.filter_eq_nil_iff]
    intro q hq hk
    exact hne ((of_decide_eq_true hk).symm.trans (h q hq))
  rw [idsOf, hnil]
  rfl

/-- What a queue changes, all queues change. -/
theorem queues_setQueue (s : HarnessQueues α) (k : QueueName) (l : List (QueuedMessage α)) :
    (((s.setQueue k l).queues : Multiset (QueuedMessage α)) + (s.queue k : Multiset (QueuedMessage α))) =
      (s.queues : Multiset (QueuedMessage α)) + (l : Multiset (QueuedMessage α)) := by
  cases k <;>
  · simp only [queues, setQueue, Function.update, eq_rec_constant, dite_eq_ite, reduceCtorEq, if_false, if_true,
      ← Multiset.coe_add]
    abel

/-- Messages that come to the front or to the end of a queue. -/
theorem queues_add {s : HarnessQueues α} {k : QueueName} {l m : List (QueuedMessage α)}
    (h : (l : Multiset (QueuedMessage α)) = (s.queue k : Multiset (QueuedMessage α)) + (m : Multiset (QueuedMessage α))) :
    ((s.setQueue k l).queues : Multiset (QueuedMessage α)) =
      (s.queues : Multiset (QueuedMessage α)) + (m : Multiset (QueuedMessage α)) := by
  have hset := queues_setQueue s k l
  rw [h] at hset
  refine add_right_cancel (b := (s.queue k : Multiset (QueuedMessage α))) (hset.trans ?_)
  abel

/-- Messages that are taken from a queue. -/
theorem queues_remove {s : HarnessQueues α} {k : QueueName} {l m : List (QueuedMessage α)} (h : s.queue k = m ++ l) :
    ((s.setQueue k l).queues : Multiset (QueuedMessage α)) + (m : Multiset (QueuedMessage α)) =
      (s.queues : Multiset (QueuedMessage α)) := by
  have hset := queues_setQueue s k l
  rw [h, ← Multiset.coe_add] at hset
  refine add_right_cancel (b := (l : Multiset (QueuedMessage α))) (Eq.trans ?_ hset)
  abel

theorem flatMap_range_single {β : Type*} {f : ℕ → List β} {h : ℕ} (hother : ∀ j, j ≠ h → f j = []) :
    ∀ n, (List.range n).flatMap f = if h < n then f h else []
  | 0 => rfl
  | n + 1 => by
    rw [List.range_succ, List.flatMap_append, flatMap_range_single hother n]
    by_cases hn : h < n
    · have hlt : h < n + 1 := Nat.lt_succ_of_lt hn
      rw [if_pos hn, if_pos hlt]
      simp [hother n (Nat.ne_of_gt hn)]
    · rw [if_neg hn]
      by_cases heq : h = n
      · subst heq
        simp
      · have hge : ¬h < n + 1 := by omega
        rw [if_neg hge]
        simp [hother n (Ne.symm heq)]

/-! ### What every step keeps -/

/-- One run at a time has messages, and then the accepted messages are those in the session, in
the queues, with it and cleared; the session, what it has and a queue come in order. -/
structure Tracked (s : HarnessQueues α) (holder : ℕ) : Prop where
  numbered : s.accepted.map (·.id) = List.range s.accepted.length
  alone : ∀ j, j ≠ holder → (s.taken j).all = []
  once : (s.session : Multiset (QueuedMessage α)) + (s.queues : Multiset (QueuedMessage α)) +
    ((s.taken holder).all : Multiset (QueuedMessage α)) + (s.cleared : Multiset (QueuedMessage α)) =
      (s.accepted : Multiset (QueuedMessage α))
  own : ∀ k, ∀ q ∈ s.queue k, q.queue = k
  inOrder : ∀ k, (idsOf k s.session ++ idsOf k (s.taken holder).all ++ idsOf k (s.queue k)).Pairwise (· < ·)
  carried : ∀ i, (s.taken i).all ≠ [] → ∃ stage : Stage, s.life.operations[i]? = some (.run stage) ∧
    stage.delivers = true
  announced : ∀ i, s.life.operations[i]? = some (.run .announcing) → ∀ q ∈ (s.taken i).all, q.queue = .nextTurn
  draining : ∀ i k array messages, (s.taken i).draining = some (k, array, messages) →
    (s.taken i).messages = [] ∧ messages ≠ [] ∧ (∀ q ∈ messages, q.queue = k) ∧
      s.life.operations[i]? = some (.run .looping)

theorem tracked_new (steeringMode followUpMode : QueueMode) : (new steeringMode followUpMode : HarnessQueues α).Tracked 0 := by
  refine ⟨rfl, fun _ _ => rfl, rfl, ?_, fun _ => List.Pairwise.nil, ?_, ?_, ?_⟩
  · intro k q hq
    cases hq
  · intro i hi
    exact absurd rfl hi
  · intro i hi
    cases hi
  · intro i k array messages hi
    cases hi

theorem Tracked.conserved {s : HarnessQueues α} {holder : ℕ} (h : s.Tracked holder) : s.Conserved := by
  refine ⟨h.numbered, ?_, h.carried, fun k => ?_⟩
  · have hheld : s.held = (s.taken holder).all := by
      rw [held, flatMap_range_single h.alone]
      split
      · rfl
      · rename_i hge
        by_contra hne
        obtain ⟨stage, hi, -⟩ := h.carried holder (Ne.symm hne)
        exact hge (List.getElem?_eq_some_iff.mp hi).1
    rw [hheld, ← Multiset.coe_eq_coe, ← h.once]
    simp only [← Multiset.coe_add]
  · have := h.inOrder k
    rw [List.append_assoc] at this
    exact (List.pairwise_append.mp this).1

/-- The messages have the numbers of accepted ones. -/
theorem Tracked.bound {s : HarnessQueues α} {holder : ℕ} (h : s.Tracked holder) {q : QueuedMessage α}
    (hq : q ∈ (s.session : Multiset (QueuedMessage α)) + (s.queues : Multiset (QueuedMessage α)) +
      ((s.taken holder).all : Multiset (QueuedMessage α)) + (s.cleared : Multiset (QueuedMessage α))) :
    q.id < s.accepted.length := by
  rw [h.once] at hq
  have hid := List.mem_map_of_mem (f := (·.id)) (Multiset.mem_coe.mp hq)
  rw [h.numbered] at hid
  exact List.mem_range.mp hid

theorem mem_queues {s : HarnessQueues α} {k : QueueName} {q : QueuedMessage α} (hq : q ∈ s.queue k) : q ∈ s.queues := by
  unfold queues
  cases k <;> simp [hq]

/-- The runs go on with what they have taken. -/
theorem Tracked.withLife {s : HarnessQueues α} {holder : ℕ} (h : s.Tracked holder) {life : Lifecycle}
    (hcarried : ∀ i, (s.taken i).all ≠ [] → ∃ stage : Stage, life.operations[i]? = some (.run stage) ∧
      stage.delivers = true)
    (hannounced : ∀ i, life.operations[i]? = some (.run .announcing) → ∀ q ∈ (s.taken i).all, q.queue = .nextTurn)
    (hdraining : ∀ i, (s.taken i).draining.isSome = true → life.operations[i]? = some (.run .looping)) :
    ({ s with life } : HarnessQueues α).Tracked holder := by
  refine ⟨h.numbered, h.alone, h.once, h.own, h.inOrder, hcarried, hannounced, ?_⟩
  intro i k array messages hi
  obtain ⟨h1, h2, h3, -⟩ := h.draining i k array messages hi
  exact ⟨h1, h2, h3, hdraining i (by rw [hi]; rfl)⟩

/-- A run with nothing in its variables goes on. -/
theorem Tracked.idle {s : HarnessQueues α} {holder i : ℕ} (h : s.Tracked holder) (hi : s.taken i = .nothing)
    {life : Lifecycle} {a : Operation} (hset : life.operations = s.life.operations.set i a) :
    ({ s with life } : HarnessQueues α).Tracked holder := by
  have hother : ∀ j, j ≠ i → life.operations[j]? = s.life.operations[j]? := by
    intro j hj
    rw [hset, List.getElem?_set_ne (Ne.symm hj)]
  refine h.withLife (fun j hj => ?_) (fun j hj => ?_) fun j hj => ?_
  · have hne : j ≠ i := by
      rintro rfl
      rw [hi] at hj
      exact hj rfl
    rw [hother j hne]
    exact h.carried j hj
  · by_cases hji : j = i
    · subst hji
      rw [hi]
      intro q hq
      cases hq
    · rw [hother j hji] at hj
      exact h.announced j hj
  · have hne : j ≠ i := by
      rintro rfl
      rw [hi] at hj
      cases hj
    rw [hother j hne]
    obtain ⟨⟨k, array, messages⟩, hd⟩ := Option.isSome_iff_exists.mp hj
    exact (h.draining j k array messages hd).2.2.2

/-- A run is accepted. -/
theorem Tracked.accepted {s : HarnessQueues α} {holder : ℕ} (h : s.Tracked holder) {life : Lifecycle} {a : Operation}
    (ha : a ≠ .run .announcing) (happend : life.operations = s.life.operations ++ [a]) :
    ({ s with life } : HarnessQueues α).Tracked holder := by
  have hold : ∀ {j : ℕ} {b : Operation}, s.life.operations[j]? = some b → life.operations[j]? = some b := by
    intro j b hb
    rw [happend, List.getElem?_append_left (List.getElem?_eq_some_iff.mp hb).1]
    exact hb
  refine h.withLife (fun j hj => ?_) (fun j hj => ?_) fun j hj => ?_
  · obtain ⟨stage, hstage, hd⟩ := h.carried j hj
    exact ⟨stage, hold hstage, hd⟩
  · rw [happend] at hj
    rcases Nat.lt_trichotomy j s.life.operations.length with hlt | rfl | hgt
    · rw [List.getElem?_append_left hlt] at hj
      exact h.announced j hj
    · rw [List.getElem?_concat_length] at hj
      exact absurd (Option.some.inj hj) ha
    · rw [List.getElem?_eq_none (by simp; omega)] at hj
      cases hj
  · obtain ⟨⟨k, array, messages⟩, hd⟩ := Option.isSome_iff_exists.mp hj
    exact hold (h.draining j k array messages hd).2.2.2

theorem Tracked.taken_eq_nothing {s : HarnessQueues α} {holder i : ℕ} (h : s.Tracked holder)
    (hi : (s.taken i).all = []) : s.taken i = .nothing := by
  have hall := hi
  unfold Taken.all at hall
  cases hd : (s.taken i).draining with
  | none =>
    rw [hd, List.nil_append] at hall
    cases ht : s.taken i with
    | mk messages draining =>
      rw [ht] at hd hall
      simp only at hd hall
      rw [hd, hall]
      rfl
  | some d =>
    obtain ⟨k, array, messages⟩ := d
    rw [hd] at hall
    exact absurd (List.append_eq_nil_iff.mp hall).1 (h.draining i k array messages hd).2.1

/-- A run that does not deliver has nothing. -/
theorem Tracked.nothing_of_stage {s : HarnessQueues α} {holder i : ℕ} (h : s.Tracked holder) {stage : Stage}
    (hi : s.life.operations[i]? = some (.run stage)) (hstage : stage.delivers = false) : s.taken i = .nothing := by
  refine h.taken_eq_nothing ?_
  by_contra hne
  obtain ⟨stage', hi', hd⟩ := h.carried i hne
  obtain rfl : stage = stage' := by
    have := Option.some.inj (hi.symm.trans hi')
    exact Operation.run.inj this
  rw [hstage] at hd
  cases hd

/-- A run that delivers goes on to deliver. -/
theorem Tracked.goes {s : HarnessQueues α} {holder i : ℕ} (h : s.Tracked holder) {stage next : Stage} {life : Lifecycle}
    (hi : s.life.operations[i]? = some (.run stage)) (hstage : stage ≠ .looping) (hnext : next.delivers = true)
    (hnext' : next ≠ .announcing) (hset : life.operations = s.life.operations.set i (.run next)) :
    ({ s with life } : HarnessQueues α).Tracked holder := by
  have hself : life.operations[i]? = some (.run next) := by
    rw [hset, List.getElem?_set_self (List.getElem?_eq_some_iff.mp hi).1]
  have hother : ∀ j, j ≠ i → life.operations[j]? = s.life.operations[j]? := by
    intro j hj
    rw [hset, List.getElem?_set_ne (Ne.symm hj)]
  refine h.withLife (fun j hj => ?_) (fun j hj => ?_) fun j hj => ?_
  · by_cases hji : j = i
    · rw [hji]
      exact ⟨next, hself, hnext⟩
    · rw [hother j hji]
      exact h.carried j hj
  · by_cases hji : j = i
    · rw [hji, hself] at hj
      exact absurd (Operation.run.inj (Option.some.inj hj)) hnext'
    · rw [hother j hji] at hj
      exact h.announced j hj
  · obtain ⟨⟨k, array, messages⟩, hd⟩ := Option.isSome_iff_exists.mp hj
    have hloop := (h.draining j k array messages hd).2.2.2
    have hji : j ≠ i := by
      rintro rfl
      rw [hi] at hloop
      exact hstage (Operation.run.inj (Option.some.inj hloop))
    rw [hother j hji]
    exact hloop

/-- What a run has goes back to the front of its queue. -/
theorem Tracked.putBack {s : HarnessQueues α} {holder i : ℕ} (h : s.Tracked holder) {k : QueueName}
    (hk : ∀ q ∈ (s.taken i).all, q.queue = k) :
    ((s.take i .nothing).setQueue k ((s.taken i).all ++ s.queue k)).Tracked holder := by
  set s' := (s.take i .nothing).setQueue k ((s.taken i).all ++ s.queue k) with hs'
  have htaken : ∀ j, s'.taken j = if j = i then .nothing else s.taken j := by
    intro j
    show Function.update s.taken i .nothing j = _
    by_cases hj : j = i
    · rw [if_pos hj, hj, Function.update_self]
    · rw [if_neg hj, Function.update_of_ne hj]
  have hqueue : ∀ k', s'.queue k' = if k' = k then (s.taken i).all ++ s.queue k else s.queue k' := by
    intro k'
    show Function.update s.queue k _ k' = _
    by_cases hk' : k' = k
    · rw [if_pos hk', hk', Function.update_self]
    · rw [if_neg hk', Function.update_of_ne hk']
  have hqueues : (s'.queues : Multiset (QueuedMessage α)) =
      (s.queues : Multiset (QueuedMessage α)) + ((s.taken i).all : Multiset (QueuedMessage α)) := by
    refine (queues_add (s := s.take i .nothing) (m := (s.taken i).all) ?_)
    rw [← Multiset.coe_add, add_comm]
    rfl
  -- the run is the one that has messages, or it has none
  have hheld : ((s.taken holder).all : Multiset (QueuedMessage α)) =
      ((s.taken i).all : Multiset (QueuedMessage α)) + ((s'.taken holder).all : Multiset (QueuedMessage α)) := by
    rw [htaken]
    by_cases hi : holder = i
    · rw [if_pos hi, hi]
      exact (add_zero _).symm
    · rw [if_neg hi, h.alone i (Ne.symm hi)]
      exact (zero_add _).symm
  refine ⟨h.numbered, ?_, ?_, ?_, ?_, ?_, ?_, ?_⟩
  · intro j hj
    rw [htaken]
    split
    · rfl
    · exact h.alone j hj
  · rw [hqueues]
    refine Eq.trans ?_ h.once
    rw [hheld]
    show (s.session : Multiset (QueuedMessage α)) + _ + _ + (s.cleared : Multiset (QueuedMessage α)) = _
    abel
  · intro k' q hq
    rw [hqueue] at hq
    split at hq
    · rename_i hk'
      rcases List.mem_append.mp hq with hq | hq
      · exact (hk q hq).trans hk'.symm
      · exact (h.own k q hq).trans hk'.symm
    · exact h.own k' q hq
  · intro k'
    have horder := h.inOrder k'
    rw [hqueue, htaken]
    by_cases hi : holder = i
    · rw [if_pos hi]
      rw [hi] at horder
      by_cases hk' : k' = k
      · subst hk'
        rw [if_pos rfl, idsOf_append, ← List.append_assoc]
        show ((idsOf k' s.session ++ idsOf k' []) ++ _ ++ _).Pairwise _
        rw [show idsOf k' ([] : List (QueuedMessage α)) = [] from rfl, List.append_nil]
        exact horder
      · rw [if_neg hk']
        rw [idsOf_of_queue hk hk'] at horder
        exact horder
    · rw [if_neg hi]
      have hnone := h.alone i (Ne.symm hi)
      rw [hnone, List.nil_append]
      split
      · rename_i hk'
        rw [← hk']
        exact horder
      · exact horder
  · intro j hj
    rw [htaken] at hj
    split at hj
    · exact absurd rfl hj
    · exact h.carried j hj
  · intro j hj
    rw [htaken]
    split
    · intro q hq
      cases hq
    · exact h.announced j hj
  · intro j k' array messages hj
    rw [htaken] at hj ⊢
    split at hj
    · cases hj
    · rename_i hne
      rw [if_neg hne]
      exact h.draining j k' array messages hj

/-- A run forgets the nothing that it has. -/
theorem Tracked.forget {s : HarnessQueues α} {holder i : ℕ} (h : s.Tracked holder) (hi : (s.taken i).all = []) :
    (s.take i .nothing).Tracked holder := by
  have hsame : Function.update s.taken i .nothing = s.taken := by
    rw [← h.taken_eq_nothing hi]
    exact Function.update_eq_self i s.taken
  unfold take
  rw [hsame]
  exact h

/-- A message is accepted into a queue. -/
theorem Tracked.accept {s : HarnessQueues α} {holder : ℕ} (h : s.Tracked holder) (k : QueueName) (message : α) :
    ({ s.setQueue k (s.queue k ++ [⟨s.accepted.length, k, message⟩]) with
      accepted := s.accepted ++ [⟨s.accepted.length, k, message⟩] } : HarnessQueues α).Tracked holder := by
  set q : QueuedMessage α := ⟨s.accepted.length, k, message⟩ with hq
  have hqueues : ((s.setQueue k (s.queue k ++ [q])).queues : Multiset (QueuedMessage α)) =
      (s.queues : Multiset (QueuedMessage α)) + ([q] : List (QueuedMessage α)) :=
    queues_add (Multiset.coe_add _ _).symm
  refine ⟨?_, h.alone, ?_, ?_, ?_, h.carried, h.announced, h.draining⟩
  · show (s.accepted ++ [q]).map (·.id) = List.range (s.accepted ++ [q]).length
    rw [List.map_append, h.numbered, List.length_append, List.length_singleton, List.range_succ]
    rfl
  · show (s.session : Multiset (QueuedMessage α)) + ((s.setQueue k (s.queue k ++ [q])).queues : Multiset _) +
      ((s.taken holder).all : Multiset (QueuedMessage α)) + (s.cleared : Multiset (QueuedMessage α)) =
        ((s.accepted ++ [q] : List (QueuedMessage α)) : Multiset (QueuedMessage α))
    rw [hqueues, ← Multiset.coe_add, ← h.once]
    abel
  · intro k' r hr
    replace hr : r ∈ Function.update s.queue k (s.queue k ++ [q]) k' := hr
    by_cases hk : k' = k
    · rw [hk, Function.update_self] at hr
      rw [hk]
      rcases List.mem_append.mp hr with hr | hr
      · exact h.own k r hr
      · rw [List.mem_singleton.mp hr]
    · rw [Function.update_of_ne hk] at hr
      exact h.own k' r hr
  · intro k'
    show (idsOf k' s.session ++ idsOf k' (s.taken holder).all ++
      idsOf k' (Function.update s.queue k (s.queue k ++ [q]) k')).Pairwise (· < ·)
    by_cases hk : k' = k
    · subst hk
      have hlast : idsOf k' [q] = [s.accepted.length] := by simp [idsOf, hq]
      rw [Function.update_self, idsOf_append, hlast, ← List.append_assoc]
      refine List.pairwise_append.mpr ⟨h.inOrder k', List.pairwise_singleton _ _, fun a ha b hb => ?_⟩
      rw [List.mem_singleton.mp hb]
      -- the earlier ones have smaller numbers
      rw [← idsOf_append, ← idsOf_append] at ha
      obtain ⟨r, hr, rfl⟩ := List.mem_map.mp ha
      refine h.bound ?_
      have hmem := List.mem_of_mem_filter hr
      simp only [Multiset.mem_add, Multiset.mem_coe]
      rcases List.mem_append.mp hmem with hmem | hmem
      · rcases List.mem_append.mp hmem with hmem | hmem
        · exact Or.inl (Or.inl (Or.inl hmem))
        · exact Or.inl (Or.inr hmem)
      · exact Or.inl (Or.inl (Or.inr (mem_queues hmem)))
    · rw [Function.update_of_ne hk]
      exact h.inOrder k'

/-- A run takes messages from the front of a queue when none has any. -/
theorem Tracked.takes {s : HarnessQueues α} {holder i : ℕ} (h : s.Tracked holder) (hnone : ∀ j, (s.taken j).all = [])
    {k : QueueName} {t : Taken α} {rest : List (QueuedMessage α)} (hqueue : s.queue k = t.all ++ rest)
    {life : Lifecycle} {stage : Stage} (hi : life.operations[i]? = some (.run stage)) (hstage : stage.delivers = true)
    (hannounced : stage = .announcing → k = .nextTurn)
    (hdraining : t.draining.isSome = true → t.messages = [] ∧ t.all ≠ [] ∧ stage = .looping ∧
      ∀ k' array messages, t.draining = some (k', array, messages) → k' = k) :
    ({ (s.take i t).setQueue k rest with life } : HarnessQueues α).Tracked i := by
  have hnothing : ∀ j, s.taken j = .nothing := fun j => h.taken_eq_nothing (hnone j)
  have htaken : ∀ j, Function.update s.taken i t j = if j = i then t else .nothing := by
    intro j
    by_cases hj : j = i
    · rw [if_pos hj, hj, Function.update_self]
    · rw [if_neg hj, Function.update_of_ne hj, hnothing]
  have hown : ∀ q ∈ t.all, q.queue = k := by
    intro q hq
    refine h.own k q ?_
    rw [hqueue]
    exact List.mem_append_left rest hq
  refine ⟨h.numbered, ?_, ?_, ?_, ?_, ?_, ?_, ?_⟩
  · intro j hj
    show (Function.update s.taken i t j).all = []
    rw [htaken, if_neg hj]
    rfl
  · show (s.session : Multiset (QueuedMessage α)) + (((s.take i t).setQueue k rest).queues : Multiset _) +
      ((Function.update s.taken i t i).all : Multiset (QueuedMessage α)) + (s.cleared : Multiset (QueuedMessage α)) =
        (s.accepted : Multiset (QueuedMessage α))
    have hrest : (((s.take i t).setQueue k rest).queues : Multiset (QueuedMessage α)) +
        (t.all : Multiset (QueuedMessage α)) = (s.queues : Multiset (QueuedMessage α)) :=
      queues_remove (s := s.take i t) hqueue
    have honce := h.once
    rw [hnone holder, ← hrest] at honce
    rw [Function.update_self, ← honce]
    simp only [Multiset.coe_nil]
    abel
  · intro k' q hq
    replace hq : q ∈ Function.update s.queue k rest k' := hq
    by_cases hk : k' = k
    · rw [hk, Function.update_self] at hq
      rw [hk]
      refine h.own k q ?_
      rw [hqueue]
      exact List.mem_append_right _ hq
    · rw [Function.update_of_ne hk] at hq
      exact h.own k' q hq
  · intro k'
    have horder := h.inOrder k'
    rw [hnone holder] at horder
    replace horder : (idsOf k' s.session ++ [] ++ idsOf k' (s.queue k')).Pairwise (· < ·) := horder
    rw [List.append_nil] at horder
    show (idsOf k' s.session ++ idsOf k' (Function.update s.taken i t i).all ++
      idsOf k' (Function.update s.queue k rest k')).Pairwise (· < ·)
    rw [Function.update_self]
    by_cases hk : k' = k
    · rw [hk, Function.update_self]
      rw [hk, hqueue, idsOf_append, ← List.append_assoc] at horder
      exact horder
    · rw [Function.update_of_ne hk, idsOf_of_queue hown hk, List.append_nil]
      exact horder
  · intro j hj
    replace hj : (Function.update s.taken i t j).all ≠ [] := hj
    rw [htaken] at hj
    by_cases hji : j = i
    · rw [hji]
      exact ⟨stage, hi, hstage⟩
    · rw [if_neg hji] at hj
      exact absurd rfl hj
  · intro j hj q hq
    replace hq : q ∈ (Function.update s.taken i t j).all := hq
    replace hj : life.operations[j]? = some (.run .announcing) := hj
    rw [htaken] at hq
    by_cases hji : j = i
    · rw [if_pos hji] at hq
      rw [hji, hi] at hj
      rw [hown q hq]
      exact hannounced (Operation.run.inj (Option.some.inj hj))
    · rw [if_neg hji] at hq
      cases hq
  · intro j k' array messages hj
    show (Function.update s.taken i t j).messages = [] ∧ _
    replace hj : (Function.update s.taken i t j).draining = some (k', array, messages) := hj
    rw [htaken] at hj ⊢
    by_cases hji : j = i
    · rw [if_pos hji] at hj ⊢
      obtain ⟨hmessages, hne, hlooping, hk⟩ := hdraining (by rw [hj]; rfl)
      obtain rfl := hk k' array messages hj
      have hall : t.all = messages := by
        unfold Taken.all
        rw [hj, hmessages, List.append_nil]
      rw [hall] at hne hown
      refine ⟨hmessages, hne, hown, ?_⟩
      rw [hji, ← hlooping]
      exact hi
    · rw [if_neg hji] at hj
      cases hj

/-- What a run has goes from the queue update to the loop. -/
theorem Tracked.drained {s : HarnessQueues α} {holder i : ℕ} (h : s.Tracked holder) {k : QueueName} {array : ℕ}
    {messages : List (QueuedMessage α)} (hi : (s.taken i).draining = some (k, array, messages)) :
    (s.take i ⟨messages, none⟩).Tracked holder := by
  obtain ⟨hmessages, -, -, hloop⟩ := h.draining i k array messages hi
  have hall : ∀ j, (Function.update s.taken i ⟨messages, none⟩ j).all = (s.taken j).all := by
    intro j
    by_cases hj : j = i
    · subst hj
      rw [Function.update_self]
      unfold Taken.all
      rw [hi, hmessages, List.append_nil]
      rfl
    · rw [Function.update_of_ne hj]
  refine ⟨h.numbered, ?_, ?_, h.own, ?_, ?_, ?_, ?_⟩
  · intro j hj
    exact (hall j).trans (h.alone j hj)
  · refine Eq.trans ?_ h.once
    rw [← hall holder]
    rfl
  · intro k'
    have horder := h.inOrder k'
    rw [← hall holder] at horder
    exact horder
  · intro j hj
    exact h.carried j (by rw [← hall j]; exact hj)
  · intro j hj q hq
    refine h.announced j hj q ?_
    rw [← hall j]
    exact hq
  · intro j k' array' messages' hj
    show (Function.update s.taken i ⟨messages, none⟩ j).messages = [] ∧ _
    replace hj : (Function.update s.taken i ⟨messages, none⟩ j).draining = some (k', array', messages') := hj
    by_cases hji : j = i
    · rw [hji, Function.update_self] at hj
      cases hj
    · rw [Function.update_of_ne hji] at hj ⊢
      exact h.draining j k' array' messages' hj

/-- A run appends the first message that it has. -/
theorem Tracked.deliver {s : HarnessQueues α} {holder i : ℕ} (h : s.Tracked holder) {q : QueuedMessage α}
    {messages : List (QueuedMessage α)} (hi : s.taken i = ⟨q :: messages, none⟩) :
    ({ s.take i ⟨messages, none⟩ with session := s.session ++ [q] } : HarnessQueues α).Tracked holder := by
  have hall : (s.taken i).all = q :: messages := by
    rw [hi]
    rfl
  obtain rfl : i = holder := by
    by_contra hne
    rw [h.alone i hne] at hall
    cases hall
  have hother : ∀ j, j ≠ i → Function.update s.taken i ⟨messages, none⟩ j = s.taken j :=
    fun j hj => Function.update_of_ne hj _ _
  refine ⟨h.numbered, ?_, ?_, h.own, ?_, ?_, ?_, ?_⟩
  · intro j hj
    show (Function.update s.taken i ⟨messages, none⟩ j).all = []
    rw [hother j hj]
    exact h.alone j hj
  · refine Eq.trans ?_ h.once
    show ((s.session ++ [q] : List (QueuedMessage α)) : Multiset (QueuedMessage α)) + (s.queues : Multiset _) +
      ((Function.update s.taken i ⟨messages, none⟩ i).all : Multiset (QueuedMessage α)) +
        (s.cleared : Multiset (QueuedMessage α)) = _
    have hsplit : ((q :: messages : List (QueuedMessage α)) : Multiset (QueuedMessage α)) =
        ([q] : List (QueuedMessage α)) + (messages : Multiset (QueuedMessage α)) := Multiset.coe_add [q] messages
    rw [Function.update_self, hall, hsplit, ← Multiset.coe_add]
    show (s.session : Multiset (QueuedMessage α)) + _ + _ + (messages : Multiset (QueuedMessage α)) + _ = _
    abel
  · intro k
    have horder := h.inOrder k
    rw [hall, ← List.singleton_append, idsOf_append, ← List.append_assoc] at horder
    show (idsOf k (s.session ++ [q]) ++ idsOf k (Function.update s.taken i ⟨messages, none⟩ i).all ++
      idsOf k (s.queue k)).Pairwise (· < ·)
    rw [Function.update_self, idsOf_append]
    exact horder
  · intro j hj
    by_cases hji : j = i
    · rw [hji]
      exact h.carried i (by rw [hall]; exact List.cons_ne_nil q messages)
    · replace hj : (Function.update s.taken i ⟨messages, none⟩ j).all ≠ [] := hj
      rw [hother j hji] at hj
      exact h.carried j hj
  · intro j hj r hr
    replace hr : r ∈ (Function.update s.taken i ⟨messages, none⟩ j).all := hr
    refine h.announced j hj r ?_
    by_cases hji : j = i
    · rw [hji, Function.update_self] at hr
      rw [hji, hall]
      exact List.mem_cons_of_mem q hr
    · rw [hother j hji] at hr
      exact hr
  · intro j k array messages' hj
    show (Function.update s.taken i ⟨messages, none⟩ j).messages = [] ∧ _
    replace hj : (Function.update s.taken i ⟨messages, none⟩ j).draining = some (k, array, messages') := hj
    by_cases hji : j = i
    · rw [hji, Function.update_self] at hj
      cases hj
    · rw [hother j hji] at hj ⊢
      exact h.draining j k array messages' hj

/-- `abort` clears two queues. -/
theorem Tracked.abort {s : HarnessQueues α} {holder : ℕ} (h : s.Tracked holder) (array : QueueName → ℕ) :
    ({ (s.setQueue .steer []).setQueue .followUp [] with
      array
      cleared := s.cleared ++ s.queue .steer ++ s.queue .followUp } : HarnessQueues α).Tracked holder := by
  have hqueue : ∀ k, Function.update (Function.update s.queue .steer []) .followUp [] k =
      if k = .nextTurn then s.queue k else [] := by
    intro k
    cases k <;> rfl
  refine ⟨h.numbered, h.alone, ?_, ?_, ?_, h.carried, h.announced, h.draining⟩
  · refine Eq.trans ?_ h.once
    have hsteer : ((s.setQueue .steer []).queues : Multiset (QueuedMessage α)) + (s.queue .steer : Multiset _) =
        (s.queues : Multiset (QueuedMessage α)) := queues_remove (List.append_nil _).symm
    have hfollowUp : (((s.setQueue .steer []).setQueue .followUp []).queues : Multiset (QueuedMessage α)) +
        (s.queue .followUp : Multiset _) = ((s.setQueue .steer []).queues : Multiset (QueuedMessage α)) :=
      queues_remove (List.append_nil _).symm
    rw [← hsteer, ← hfollowUp]
    show (s.session : Multiset (QueuedMessage α)) + (((s.setQueue .steer []).setQueue .followUp []).queues : Multiset _) +
      ((s.taken holder).all : Multiset (QueuedMessage α)) +
        ((s.cleared ++ s.queue .steer ++ s.queue .followUp : List _) : Multiset (QueuedMessage α)) = _
    simp only [← Multiset.coe_add]
    abel
  · intro k q hq
    replace hq : q ∈ Function.update (Function.update s.queue .steer []) .followUp [] k := hq
    rw [hqueue] at hq
    split at hq
    · exact h.own k q hq
    · cases hq
  · intro k
    have horder := h.inOrder k
    show (idsOf k s.session ++ idsOf k (s.taken holder).all ++
      idsOf k (Function.update (Function.update s.queue .steer []) .followUp [] k)).Pairwise (· < ·)
    rw [hqueue]
    split
    · exact horder
    · rw [show idsOf k ([] : List (QueuedMessage α)) = [] from rfl, List.append_nil]
      exact (List.pairwise_append.mp horder).1

theorem lifeStep_eq_some {s s' : HarnessQueues α} {input : LifeStep} :
    s.lifeStep input = some s' ↔ ∃ life, s.life.step input = some life ∧ { s with life } = s' := by
  simp only [lifeStep, Option.map_eq_some_iff]

/-- The steps of the runs that the queues have no part in are those of runs that deliver
nothing. -/
theorem Tracked.lifeStep {s s' : HarnessQueues α} {holder : ℕ} (h : s.Tracked holder) {input : LifeStep}
    (hs : s.step (.life input) = some s') : s'.Tracked holder := by
  have hsame : ∀ {life : Lifecycle}, life.operations = s.life.operations →
      ({ s with life } : HarnessQueues α).Tracked holder := by
    intro life hlife
    refine h.withLife (fun j hj => ?_) (fun j hj => ?_) fun j hj => ?_
    · rw [hlife]
      exact h.carried j hj
    · rw [hlife] at hj
      exact h.announced j hj
    · obtain ⟨⟨k, array, messages⟩, hd⟩ := Option.isSome_iff_exists.mp hj
      rw [hlife]
      exact (h.draining j k array messages hd).2.2.2
  have hstructural : ∀ phase, ({ s with life := s.life.structural phase } : HarnessQueues α).Tracked holder := by
    intro phase
    unfold Lifecycle.structural
    split
    · exact h.accepted (by simp) rfl
    · exact hsame rfl
  cases input with
  | prompt =>
    obtain ⟨life, hlife, rfl⟩ := lifeStep_eq_some.mp hs
    obtain rfl := Option.some.inj hlife
    split
    · exact h.accepted (by simp) rfl
    · exact hsame rfl
  | compact =>
    obtain ⟨life, hlife, rfl⟩ := lifeStep_eq_some.mp hs
    obtain rfl := Option.some.inj hlife
    exact hstructural .compaction
  | navigateTree =>
    obtain ⟨life, hlife, rfl⟩ := lifeStep_eq_some.mp hs
    obtain rfl := Option.some.inj hlife
    exact hstructural .branchSummary
  | waitForIdle =>
    obtain ⟨life, hlife, rfl⟩ := lifeStep_eq_some.mp hs
    obtain rfl := Option.some.inj hlife
    exact hsame rfl
  | finishLoop i =>
    obtain ⟨life, hlife, rfl⟩ := lifeStep_eq_some.mp hs
    obtain ⟨stage, hi, hstage⟩ := Lifecycle.advance_eq_some.mp hlife
    cases stage with
    | looped =>
      obtain rfl := Option.some.inj hstage
      exact h.idle (h.nothing_of_stage hi rfl) rfl
    | failed =>
      obtain rfl := Option.some.inj hstage
      exact h.idle (h.nothing_of_stage hi rfl) rfl
    | _ => cases hstage
  | flush i ok =>
    obtain ⟨life, hlife, rfl⟩ := lifeStep_eq_some.mp hs
    obtain ⟨stage, hi, hstage⟩ := Lifecycle.advance_eq_some.mp hlife
    cases stage with
    | flushing before =>
      obtain rfl := Option.some.inj hstage
      exact h.idle (h.nothing_of_stage hi rfl) rfl
    | _ => cases hstage
  | finishPrompt i =>
    obtain ⟨life, hlife, rfl⟩ := lifeStep_eq_some.mp hs
    obtain ⟨stage, hi, hstage⟩ := Lifecycle.advance_eq_some.mp hlife
    cases stage with
    | closing ok =>
      obtain rfl := Option.some.inj hstage
      exact h.idle (h.nothing_of_stage hi rfl) rfl
    | _ => cases hstage
  | finishStructural i =>
    obtain ⟨life, hlife, rfl⟩ := lifeStep_eq_some.mp hs
    simp only [Lifecycle.step] at hlife
    split at hlife
    · rename_i phase hi
      obtain rfl := Option.some.inj hlife
      refine h.idle (h.taken_eq_nothing ?_) rfl
      by_contra hne
      obtain ⟨stage, hi', -⟩ := h.carried i hne
      rw [hi] at hi'
      cases hi'
    · cases hlife
  | abort => cases hs
  | turnState i result => cases hs
  | queueUpdate i ok => cases hs
  | beforeAgentStart i ok => cases hs
  | agentEnd i => cases hs
  | throw i => cases hs

/-- No run has messages, if the others have none. -/
theorem Tracked.none_taken {s : HarnessQueues α} {i : ℕ} (hothers : ∀ j, j ≠ i → (s.taken j).all = [])
    (hi : (s.taken i).all = []) (j : ℕ) : (s.taken j).all = [] := by
  by_cases hj : j = i
  · rw [hj]
    exact hi
  · exact hothers j hj

/-- `createTurnState`, and the messages for the next turn. -/
theorem Tracked.turnState {s s' : HarnessQueues α} {holder i : ℕ} (h : s.Tracked holder) {ok : Bool}
    (hkeeps : s.Keeps (.turnState i ok)) (hs : s.step (.turnState i ok) = some s') : ∃ holder', s'.Tracked holder' := by
  have hstep : ∀ {life : Lifecycle} {result : TurnState}, s.life.step (.turnState i result) = some life →
      s.taken i = .nothing ∧ ∃ a, life.operations = s.life.operations.set i a ∧
        (result = .queued → life.operations[i]? = some (.run .announcing)) := by
    intro life result hlife
    obtain ⟨stage, hi, hstage⟩ := Lifecycle.advance_eq_some.mp hlife
    cases stage with
    | creating =>
      obtain rfl := Option.some.inj hstage
      refine ⟨h.nothing_of_stage hi rfl, ?_⟩
      cases result with
      | thrown => exact ⟨.run .settled, rfl, fun hr => by cases hr⟩
      | ready => exact ⟨.run .starting, rfl, fun hr => by cases hr⟩
      | queued =>
        exact ⟨.run .announcing, rfl, fun _ => List.getElem?_set_self (List.getElem?_eq_some_iff.mp hi).1⟩
    | _ => cases hstage
  simp only [step] at hs
  cases ok with
  | false =>
    obtain ⟨life, hlife, rfl⟩ := lifeStep_eq_some.mp hs
    obtain ⟨hnothing, a, hset, -⟩ := hstep hlife
    exact ⟨holder, h.idle hnothing hset⟩
  | true =>
    rw [if_pos rfl] at hs
    split at hs
    · obtain ⟨life, hlife, rfl⟩ := lifeStep_eq_some.mp hs
      obtain ⟨hnothing, a, hset, -⟩ := hstep hlife
      exact ⟨holder, h.idle hnothing hset⟩
    · obtain ⟨life, hlife, rfl⟩ := lifeStep_eq_some.mp hs
      obtain ⟨hnothing, -, -, hannouncing⟩ := hstep hlife
      have hnone := Tracked.none_taken hkeeps (by rw [hnothing]; rfl)
      refine ⟨i, h.takes hnone (k := .nextTurn) (List.append_nil _).symm (hannouncing rfl) rfl (fun _ => rfl) ?_⟩
      intro hd
      cases hd

/-- The queue update in `executeTurn`. -/
theorem Tracked.queueUpdate {s s' : HarnessQueues α} {holder i : ℕ} (h : s.Tracked holder) {ok : Bool}
    (hs : s.step (.queueUpdate i ok) = some s') : s'.Tracked holder := by
  simp only [step] at hs
  cases ok with
  | true =>
    obtain ⟨life, hlife, rfl⟩ := lifeStep_eq_some.mp hs
    obtain ⟨stage, hi, hstage⟩ := Lifecycle.advance_eq_some.mp hlife
    cases stage with
    | announcing =>
      obtain rfl := Option.some.inj hstage
      exact h.goes hi (by decide) rfl (by decide) rfl
    | _ => cases hstage
  | false =>
    obtain ⟨life, hlife, rfl⟩ := lifeStep_eq_some.mp hs
    obtain ⟨stage, hi, hstage⟩ := Lifecycle.advance_eq_some.mp hlife
    cases stage with
    | announcing =>
      obtain rfl := Option.some.inj hstage
      have hall : (s.taken i).all = (s.taken i).messages := by
        unfold Taken.all
        cases hd : (s.taken i).draining with
        | none => rfl
        | some d =>
          obtain ⟨k, array, messages⟩ := d
          have hloop := (h.draining i k array messages hd).2.2.2
          have hstage := Operation.run.inj (Option.some.inj (hi.symm.trans hloop))
          cases hstage
      have hback := h.putBack (h.announced i hi)
      rw [hall] at hback
      exact hback.idle (Function.update_self i _ _) rfl
    | _ => cases hstage

/-- A run is left with nothing in its variables. -/
theorem Tracked.ends {s s' : HarnessQueues α} {holder i : ℕ} (h : s.Tracked holder) (hi : (s.taken i).all = [])
    {input : LifeStep} (hset : ∀ life, s.life.step input = some life → ∃ a, life.operations = s.life.operations.set i a)
    (hs : (s.take i .nothing).lifeStep input = some s') : s'.Tracked holder := by
  obtain ⟨life, hlife, rfl⟩ := lifeStep_eq_some.mp hs
  obtain ⟨a, ha⟩ := hset life hlife
  exact (h.forget hi).idle (Function.update_self i _ _) ha

end HarnessQueues

/-- `before_agent_start` goes on with its call. -/
theorem Lifecycle.step_beforeAgentStart {s life : Lifecycle} {i : ℕ} {ok : Bool}
    (h : s.step (.beforeAgentStart i ok) = some life) : s.operations[i]? = some (.run .starting) ∧
      life.operations = s.operations.set i (.run (if ok then .looping else .settled)) := by
  obtain ⟨stage, hi, hstage⟩ := advance_eq_some.mp h
  cases stage with
  | starting =>
    obtain rfl := Option.some.inj hstage
    refine ⟨hi, ?_⟩
    cases ok <;> rfl
  | _ => cases hstage

theorem Lifecycle.step_agentEnd {s life : Lifecycle} {i : ℕ} (h : s.step (.agentEnd i) = some life) :
    ∃ a, life.operations = s.operations.set i a := by
  obtain ⟨stage, hi, hstage⟩ := advance_eq_some.mp h
  cases stage with
  | looping =>
    obtain rfl := Option.some.inj hstage
    exact ⟨_, rfl⟩
  | failing =>
    obtain rfl := Option.some.inj hstage
    exact ⟨_, rfl⟩
  | _ => cases hstage

theorem Lifecycle.step_throw {s life : Lifecycle} {i : ℕ} (h : s.step (.throw i) = some life) :
    ∃ a, life.operations = s.operations.set i a := by
  obtain ⟨stage, hi, hstage⟩ := advance_eq_some.mp h
  cases stage with
  | looping =>
    obtain rfl := Option.some.inj hstage
    exact ⟨_, rfl⟩
  | looped =>
    obtain rfl := Option.some.inj hstage
    exact ⟨_, rfl⟩
  | failing =>
    obtain rfl := Option.some.inj hstage
    exact ⟨_, rfl⟩
  | failed =>
    obtain rfl := Option.some.inj hstage
    exact ⟨_, rfl⟩
  | _ => cases hstage

namespace HarnessQueues

variable {α : Type*}

theorem splice_append (mode : QueueMode) (queue : List (QueuedMessage α)) :
    (splice mode queue).1 ++ (splice mode queue).2 = queue := by
  cases mode with
  | all => exact List.append_nil queue
  | oneAtATime => exact List.take_append_drop 1 queue

/-- **What every step keeps**, if it loses no message and overtakes none. -/
theorem Tracked.step {s s' : HarnessQueues α} {holder : ℕ} (h : s.Tracked holder) {input : QueueStep α}
    (hkeeps : s.Keeps input) (hs : s.step input = some s') : ∃ holder', s'.Tracked holder' := by
  cases input with
  | life input => exact ⟨holder, h.lifeStep hs⟩
  | accept k message =>
    obtain rfl := Option.some.inj hs
    refine ⟨holder, ?_⟩
    split
    · exact h
    · exact h.accept k message
  | setMode k mode =>
    obtain rfl := Option.some.inj hs
    exact ⟨holder, ⟨h.numbered, h.alone, h.once, h.own, h.inOrder, h.carried, h.announced, h.draining⟩⟩
  | turnState i ok => exact h.turnState hkeeps hs
  | queueUpdate i ok => exact ⟨holder, h.queueUpdate hs⟩
  | beforeAgentStart i ok =>
    refine ⟨holder, ?_⟩
    simp only [HarnessQueues.step] at hs
    cases ok with
    | true =>
      obtain ⟨life, hlife, rfl⟩ := lifeStep_eq_some.mp hs
      obtain ⟨hi, hset⟩ := Lifecycle.step_beforeAgentStart hlife
      exact h.goes hi (by decide) rfl (by decide) hset
    | false => exact h.ends hkeeps (fun life hlife => ⟨_, (Lifecycle.step_beforeAgentStart hlife).2⟩) hs
  | deliver i =>
    simp only [HarnessQueues.step] at hs
    split at hs
    · rename_i hi
      obtain rfl := Option.some.inj hs
      exact ⟨holder, h.deliver hi⟩
    · cases hs
  | drain i k =>
    simp only [HarnessQueues.step] at hs
    split at hs
    · rename_i hi htaken
      split at hs
      · cases hs
      · obtain rfl := Option.some.inj hs
        split
        · exact ⟨holder, h⟩
        · rename_i hne
          have hnone := Tracked.none_taken hkeeps (by rw [htaken]; rfl)
          have hne : (splice (s.mode k) (s.queue k)).1 ≠ [] := fun hnil => hne (by rw [hnil]; rfl)
          have hall : (Taken.all ⟨[], some (k, s.array k, (splice (s.mode k) (s.queue k)).1)⟩ :
              List (QueuedMessage α)) = (splice (s.mode k) (s.queue k)).1 := List.append_nil _
          refine ⟨i, h.takes hnone (k := k) ?_ hi rfl (fun hstage => by cases hstage) fun _ => ?_⟩
          · rw [hall]
            exact (splice_append _ _).symm
          · refine ⟨rfl, by rw [hall]; exact hne, rfl, fun k' array messages hd => ?_⟩
            exact (congrArg Prod.fst (Option.some.inj hd)).symm
    · cases hs
  | drained i ok =>
    simp only [HarnessQueues.step] at hs
    split at hs
    · rename_i earlier k array messages htaken
      have hd : (s.taken i).draining = some (k, array, messages) := by rw [htaken]
      cases ok with
      | true =>
        obtain rfl := Option.some.inj hs
        exact ⟨holder, h.drained hd⟩
      | false =>
        obtain ⟨hearlier, -, hown, -⟩ := h.draining i k array messages hd
        have hall : (s.taken i).all = messages := by
          unfold Taken.all
          rw [hd, hearlier, List.append_nil]
        rw [if_neg (by decide), if_pos (hkeeps k array messages hd)] at hs
        obtain ⟨life, hlife, rfl⟩ := lifeStep_eq_some.mp hs
        obtain ⟨a, hset⟩ := Lifecycle.step_throw hlife
        have hback := h.putBack (i := i) (k := k) (by rw [hall]; exact hown)
        rw [hall] at hback
        exact ⟨holder, hback.idle (Function.update_self i _ _) hset⟩
    · cases hs
  | agentEnd i =>
    simp only [HarnessQueues.step] at hs
    split at hs
    · rename_i hnone
      obtain ⟨life, hlife, rfl⟩ := lifeStep_eq_some.mp hs
      obtain ⟨a, hset⟩ := Lifecycle.step_agentEnd hlife
      exact ⟨holder, h.idle (h.taken_eq_nothing (List.isEmpty_iff.mp hnone)) hset⟩
    · cases hs
  | throw i =>
    simp only [HarnessQueues.step] at hs
    split at hs
    · cases hs
    · exact ⟨holder, h.ends hkeeps (fun life hlife => Lifecycle.step_throw hlife) hs⟩
  | abort =>
    obtain ⟨life, hlife, rfl⟩ := lifeStep_eq_some.mp hs
    obtain rfl := Option.some.inj hlife
    exact ⟨holder, (h.abort _).withLife h.carried h.announced fun i hi => by
      obtain ⟨⟨k, array, messages⟩, hd⟩ := Option.isSome_iff_exists.mp hi
      exact (h.draining i k array messages hd).2.2.2⟩

theorem run_cons (s : HarnessQueues α) (input : QueueStep α) (steps : List (QueueStep α)) :
    s.run (input :: steps) = (s.step input).bind (·.run steps) := rfl

theorem Tracked.run : ∀ (steps : List (QueueStep α)) {s s' : HarnessQueues α} {holder : ℕ}, s.Tracked holder →
    s.KeepsAll steps → s.run steps = some s' → ∃ holder', s'.Tracked holder'
  | [], _, _, holder, h, _, hs => by
    obtain rfl := Option.some.inj hs
    exact ⟨holder, h⟩
  | _ :: steps, _, _, _, h, hkeeps, hs => by
    rw [run_cons] at hs
    obtain ⟨s₁, h₁, hs⟩ := Option.bind_eq_some_iff.mp hs
    obtain ⟨holder₁, htracked⟩ := h.step hkeeps.1 h₁
    exact Tracked.run steps htracked (hkeeps.2 s₁ h₁) hs

/-- **In a run of the harness in which runs take messages one after the other, fail with none
taken and put messages back into the queue they took them from, every accepted message is in
one place, and the session has those of a queue in the order they were accepted.** -/
theorem run_conserved (steeringMode followUpMode : QueueMode) (steps : List (QueueStep α)) {s : HarnessQueues α}
    (hrun : (new steeringMode followUpMode : HarnessQueues α).run steps = some s)
    (hkeeps : (new steeringMode followUpMode : HarnessQueues α).KeepsAll steps) : s.Conserved := by
  obtain ⟨holder, h⟩ := (tracked_new steeringMode followUpMode).run steps hkeeps hrun
  exact h.conserved

/-- A message for the next turn that is taken and appended. -/
theorem run_conserved_nextTurn : ∃ s, (new .oneAtATime .oneAtATime : HarnessQueues String).run [.accept .nextTurn "look",
    .life .prompt, .turnState 0 true, .queueUpdate 0 true, .beforeAgentStart 0 true, .deliver 0] = some s ∧ s.Conserved :=
  ⟨_, rfl, run_conserved .oneAtATime .oneAtATime [.accept .nextTurn "look", .life .prompt, .turnState 0 true,
    .queueUpdate 0 true, .beforeAgentStart 0 true, .deliver 0] rfl
    ⟨trivial, fun _ h => ⟨trivial, fun _ h' => ⟨fun j _ => by
        obtain rfl := Option.some.inj h
        obtain rfl := Option.some.inj h'
        rfl, fun _ _ => ⟨trivial, fun _ _ => ⟨trivial, fun _ _ => ⟨trivial, fun _ _ => trivial⟩⟩⟩⟩⟩⟩⟩

/-- `before_agent_start` fails, and the message that was taken for the turn is gone. -/
theorem run_not_conserved : ∃ s, (new .oneAtATime .oneAtATime : HarnessQueues String).run [.accept .nextTurn "look",
    .life .prompt, .turnState 0 true, .queueUpdate 0 true, .beforeAgentStart 0 false] = some s ∧ ¬s.Conserved := by
  refine ⟨_, rfl, fun h => ?_⟩
  have hlength := h.once.length_eq
  cases hlength

end HarnessQueues

end Trek
