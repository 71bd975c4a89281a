/-
# Every call has its results

What a provider asks of a history: after an assistant message with calls come the
results of these calls and no others, before the next user or assistant message.
`transformMessages` makes such a history of one in which every result stands in the
turn of its call (`transformMessages_pairing`). It inserts a result for a call that
has none and drops the messages that failed; results that a history has twice it
leaves in, and images that a model cannot see become text.
-/
import Trek.Ai.TransformMessages

namespace Trek.Ai

/-! ### Histories -/

/-- `msg.role === "assistant"`, of a message that failed. -/
def Message.failed : Message → Bool
  | .assistant m => m.failed
  | _ => false

/-- The ids of the calls in a message. -/
def Message.callIds : Message → List String
  | .assistant m => m.toolCalls.map (·.id)
  | _ => []

/-- The results before the next user or assistant message. -/
def turn : List Message → List ToolResultMessage
  | .toolResult m :: messages => m :: turn messages
  | _ => []

/-- The number of results for a call before the next user or assistant message. -/
def answers (id : String) (messages : List Message) : ℕ := ((turn messages).map (·.toolCallId)).count id

/-- Each result comes after the assistant message with its call and before the next user or
assistant message; `ids` are the calls of the message that is open. An assistant message
that failed has no results. -/
def InTurn : List String → List Message → Prop
  | _, [] => True
  | _, .user _ _ :: messages => InTurn [] messages
  | _, .assistant m :: messages => InTurn (if m.failed then [] else m.toolCalls.map (·.id)) messages
  | ids, .toolResult m :: messages => m.toolCallId ∈ ids ∧ InTurn ids messages

/-- A history that can be sent: its results stand in the turns of their calls, and no two
calls have the same id. -/
structure WellFormed (history : List Message) : Prop where
  inTurn : InTurn [] history
  nodup : (history.flatMap Message.callIds).Nodup

/-- The normaliser keeps the calls of a message apart and never returns the empty id. -/
structure Faithful (model : Model) (normalize : Normalizer) (history : List Message) : Prop where
  injective : ∀ m, .assistant m ∈ history → ∀ c ∈ m.toolCalls, ∀ d ∈ m.toolCalls,
    normalize c.id model m = normalize d.id model m → c.id = d.id
  ne_empty : ∀ m, .assistant m ∈ history → ∀ c ∈ m.toolCalls, normalize c.id model m ≠ ""

/-- A message of the output carries a message of the history: the ids are mapped by `newId`,
and the contents of user messages and results are as `shown` makes them. -/
inductive Carries (newId : String → String) (shown : Message → Message) : Message → Message → Prop
  | user {content content' timestamp} (h : shown (.user content timestamp) = .user content' timestamp) :
    Carries newId shown (.user content timestamp) (.user content' timestamp)
  | toolResult {m m'} (h : shown (.toolResult m) = .toolResult m') :
    Carries newId shown (.toolResult m) (.toolResult { m' with toolCallId := newId m.toolCallId })
  | assistant {m m'} (hids : m'.toolCalls.map (·.id) = m.toolCalls.map fun c => newId c.id)
    (hcalls : m'.toolCalls.map (fun c => (c.name, c.arguments)) = m.toolCalls.map fun c => (c.name, c.arguments))
    (hfields : { m' with content := m.content } = m) : Carries newId shown (.assistant m) (.assistant m')

/-- The output pairs the calls of the history with results: `expected n` for a call that has
`n` results in the history. -/
structure Pairing (newId : String → String) (shown : Message → Message) (expected : ℕ → ℕ)
    (history output : List Message) : Prop where
  noFailed : ∀ msg ∈ output, msg.failed = false
  answered : ∀ before m' after, output = before ++ .assistant m' :: after →
    ∃ before₀ m after₀, history = before₀ ++ .assistant m :: after₀ ∧
      Carries newId shown (.assistant m) (.assistant m') ∧
      (∀ c ∈ m.toolCalls, answers (newId c.id) after = expected (answers c.id after₀)) ∧
      ∀ r ∈ turn after, ∃ c ∈ m.toolCalls, r.toolCallId = newId c.id
  kept : ∃ carried, List.Forall₂ (Carries newId shown) (history.filter (!·.failed)) carried ∧ carried.Sublist output

/-! ### The first pass maps the ids -/

section

variable (model : Model) (normalizeToolCallId : Option Normalizer)

/-- The id the first pass puts into the map for a call. -/
def normalizedId (source : AssistantMessage) (id : String) : Option String :=
  match normalizeToolCallId with
  | none => none
  | some normalize =>
    if isSameModel model source then none
    else if normalize id model source ≠ id then some (normalize id model source) else none

/-- The map of ids after the first pass. -/
def idsAfter (ids : OrdMap String String) : List Message → OrdMap String String
  | [] => ids
  | .assistant m :: messages => idsAfter (transformContent model normalizeToolCallId m ids m.content).1 messages
  | _ :: messages => idsAfter ids messages

/-- The id a result gets under a map of ids. -/
def newIdOf (ids : OrdMap String String) (id : String) : String :=
  match ids.get? id with
  | some n => if n ≠ "" ∧ n ≠ id then n else id
  | none => id

variable {model normalizeToolCallId}

theorem transformResult_eq (ids : OrdMap String String) (m : ToolResultMessage) :
    transformResult ids m = { m with toolCallId := newIdOf ids m.toolCallId } := by
  unfold transformResult newIdOf
  cases ids.get? m.toolCallId with
  | none => rfl
  | some n =>
    by_cases hn : n ≠ "" ∧ n ≠ m.toolCallId
    · simp only [if_pos hn]
    · simp only [if_neg hn]

theorem transformCall_eq (source : AssistantMessage) (ids : OrdMap String String) (c : ToolCall) :
    ∃ signature, transformCall model normalizeToolCallId source ids c =
      (match normalizedId model normalizeToolCallId source c.id with
        | some n => ids.set c.id n
        | none => ids,
      ⟨(normalizedId model normalizeToolCallId source c.id).getD c.id, c.name, c.arguments, signature⟩) := by
  unfold transformCall normalizedId
  by_cases hsame : isSameModel model source = true
  · refine ⟨c.thoughtSignature, ?_⟩
    cases normalizeToolCallId <;> simp [hsame]
  · refine ⟨if isSet c.thoughtSignature = true then none else c.thoughtSignature, ?_⟩
    cases normalizeToolCallId with
    | none => by_cases hset : isSet c.thoughtSignature = true <;> simp [hsame, hset]
    | some normalize =>
      by_cases hn : normalize c.id model source = c.id <;>
        by_cases hset : isSet c.thoughtSignature = true <;> simp [hsame, hset, hn]

theorem calls_cons_toolCall (c : ToolCall) (content : List AssistantBlock) :
    (AssistantBlock.toolCall c :: content).filterMap AssistantBlock.call? =
      c :: content.filterMap AssistantBlock.call? := rfl

theorem transformThinking_no_call (same : Bool) (block : ThinkingContent) :
    (transformThinking same block).filterMap AssistantBlock.call? = [] := by
  unfold transformThinking
  split_ifs <;> rfl

/-- What the first pass makes of the blocks of a message: the map has the new ids of its
calls, and the calls have them too. -/
theorem transformContent_spec (source : AssistantMessage) : ∀ (content : List AssistantBlock) (ids : OrdMap String String),
    (∀ id, (transformContent model normalizeToolCallId source ids content).1.get? id =
      if id ∈ (content.filterMap AssistantBlock.call?).map (·.id) then
        (normalizedId model normalizeToolCallId source id).or (ids.get? id) else ids.get? id) ∧
    ((transformContent model normalizeToolCallId source ids content).2.filterMap AssistantBlock.call?).map
      (fun c => (c.id, c.name, c.arguments)) =
    (content.filterMap AssistantBlock.call?).map fun c =>
      ((normalizedId model normalizeToolCallId source c.id).getD c.id, c.name, c.arguments)
  | [], ids => ⟨fun id => by simp [transformContent], rfl⟩
  | .thinking block :: content, ids => by
    obtain ⟨hmap, hcalls⟩ := transformContent_spec source content ids
    refine ⟨hmap, ?_⟩
    show (List.filterMap AssistantBlock.call? (_ ++ _)).map _ = _
    rw [List.filterMap_append, transformThinking_no_call]
    exact hcalls
  | .text block :: content, ids => transformContent_spec source content ids
  | .toolCall c :: content, ids => by
    obtain ⟨signature, hcall⟩ := @transformCall_eq model normalizeToolCallId source ids c
    obtain ⟨hmap, hcalls⟩ := transformContent_spec source content
      (transformCall model normalizeToolCallId source ids c).1
    refine ⟨fun id => ?_, ?_⟩
    · show (transformContent _ _ source (transformCall model normalizeToolCallId source ids c).1 content).1.get? id = _
      rw [hmap id, hcall, calls_cons_toolCall, List.map_cons]
      simp only [List.mem_cons]
      by_cases hid : id = c.id
      · subst hid
        cases hn : normalizedId model normalizeToolCallId source c.id with
        | none => simp only [Option.none_or, ite_self]
        | some n => simp only [OrdMap.get?_set_self, Option.some_or, ite_self, true_or, if_true]
      · have hget : (match normalizedId model normalizeToolCallId source c.id with
            | some n => ids.set c.id n
            | none => ids).get? id = ids.get? id := by
          split
          · exact OrdMap.get?_set_ne _ _ hid
          · rfl
        simp only [hget, hid, false_or]
    · show ((AssistantBlock.toolCall (transformCall model normalizeToolCallId source ids c).2 ::
        (transformContent _ _ source (transformCall model normalizeToolCallId source ids c).1 content).2).filterMap
          AssistantBlock.call?).map _ = _
      rw [calls_cons_toolCall, calls_cons_toolCall, List.map_cons, List.map_cons, hcalls, hcall]

theorem idsAfter_get?_of_not_mem : ∀ (messages : List Message) (ids : OrdMap String String) {id : String},
    id ∉ messages.flatMap Message.callIds → (idsAfter model normalizeToolCallId ids messages).get? id = ids.get? id
  | [], _, _, _ => rfl
  | .user _ _ :: messages, ids, _, h => idsAfter_get?_of_not_mem messages ids h
  | .toolResult _ :: messages, ids, _, h => idsAfter_get?_of_not_mem messages ids h
  | .assistant m :: messages, ids, id, h => by
    rw [List.flatMap_cons, List.mem_append, not_or] at h
    show (idsAfter _ _ (transformContent _ _ m ids m.content).1 messages).get? id = _
    rw [idsAfter_get?_of_not_mem messages _ h.2, (transformContent_spec m m.content ids).1 id]
    exact if_neg h.1

theorem newIdOf_of_get? {ids : OrdMap String String} {source : AssistantMessage} {id : String}
    (hget : ids.get? id = normalizedId model normalizeToolCallId source id)
    (hne : normalizedId model normalizeToolCallId source id ≠ some "") :
    newIdOf ids id = (normalizedId model normalizeToolCallId source id).getD id := by
  unfold newIdOf
  rw [hget]
  cases hn : normalizedId model normalizeToolCallId source id with
  | none => rfl
  | some n =>
    have hn' : n ≠ "" := by
      intro he
      apply hne
      rw [hn, he]
    by_cases he : n = id
    · simp [he]
    · simp [hn', he]

theorem imageAware_assistant (m : AssistantMessage) : imageAware model (.assistant m) = .assistant m := by
  unfold imageAware downgradeMessage
  split <;> rfl

theorem imageAware_user (content : UserContent) (timestamp : ℤ) :
    ∃ content', imageAware model (.user content timestamp) = .user content' timestamp := by
  unfold imageAware downgradeMessage
  split
  · exact ⟨_, rfl⟩
  · cases content <;> exact ⟨_, rfl⟩

theorem imageAware_toolResult (m : ToolResultMessage) :
    ∃ m', imageAware model (.toolResult m) = .toolResult m' ∧ m'.toolCallId = m.toolCallId := by
  unfold imageAware downgradeMessage
  split <;> exact ⟨_, rfl, rfl⟩

/-- The message the first pass makes of an assistant message carries it. -/
theorem carries_assistant {shown : Message → Message} {newId : String → String} (m : AssistantMessage)
    (ids : OrdMap String String)
    (hnew : ∀ c ∈ m.toolCalls, newId c.id = (normalizedId model normalizeToolCallId m c.id).getD c.id) :
    Carries newId shown (.assistant m)
      (.assistant { m with content := (transformContent model normalizeToolCallId m ids m.content).2 }) := by
  have hcalls := (@transformContent_spec model normalizeToolCallId m m.content ids).2
  refine .assistant ?_ ?_ rfl
  · have h := congrArg (List.map Prod.fst) hcalls
    rw [List.map_map, List.map_map] at h
    calc _ = (m.toolCalls.map fun c => (normalizedId model normalizeToolCallId m c.id).getD c.id) := h
      _ = _ := List.map_congr_left fun c hc => (hnew c hc).symm
  · have h := congrArg (List.map Prod.snd) hcalls
    rw [List.map_map, List.map_map] at h
    exact h

/-- **The first pass.** Every message becomes one that carries it, under the ids that the
final map of ids has. The calls of the open message and those to come are all different, so
what a later message puts into the map is about none of the results before it. -/
theorem transformFrom_carries : ∀ (messages : List Message) (ids : OrdMap String String) (opened : List String),
    InTurn opened messages → (opened ++ messages.flatMap Message.callIds).Nodup →
    (∀ id ∈ messages.flatMap Message.callIds, ids.get? id = none) →
    (∀ m, .assistant m ∈ messages → ∀ c ∈ m.toolCalls, normalizedId model normalizeToolCallId m c.id ≠ some "") →
    List.Forall₂ (Carries (newIdOf (idsAfter model normalizeToolCallId ids messages)) (imageAware model)) messages
      (transformFrom model normalizeToolCallId ids (downgradeUnsupportedImages messages model)) ∧
    ∀ m, .assistant m ∈ messages → ∀ c ∈ m.toolCalls,
      newIdOf (idsAfter model normalizeToolCallId ids messages) c.id =
        (normalizedId model normalizeToolCallId m c.id).getD c.id
  | [], _, _, _, _, _, _ => ⟨.nil, fun m h => absurd h List.not_mem_nil⟩
  | .user content timestamp :: messages, ids, opened, hturn, hnd, hnone, hne => by
    obtain ⟨content', hshown⟩ := @imageAware_user model content timestamp
    obtain ⟨hrest, hids⟩ := transformFrom_carries messages ids [] hturn (List.nodup_append.mp hnd).2.1 hnone
      fun m hm => hne m (List.mem_cons_of_mem _ hm)
    refine ⟨?_, fun m hm => hids m ((List.mem_cons.mp hm).resolve_left (by intro h; cases h))⟩
    rw [downgradeUnsupportedImages, List.map_cons, hshown]
    exact .cons (.user hshown) hrest
  | .toolResult m :: messages, ids, opened, hturn, hnd, hnone, hne => by
    obtain ⟨m', hshown, hid⟩ := @imageAware_toolResult model m
    obtain ⟨hrest, hids⟩ := transformFrom_carries messages ids opened hturn.2 hnd hnone
      fun m hm => hne m (List.mem_cons_of_mem _ hm)
    refine ⟨?_, fun m hm => hids m ((List.mem_cons.mp hm).resolve_left (by intro h; cases h))⟩
    have hlater : m.toolCallId ∉ messages.flatMap Message.callIds := fun h =>
      (List.nodup_append.mp hnd).2.2 _ hturn.1 _ h rfl
    have hnew : newIdOf ids m'.toolCallId = newIdOf (idsAfter model normalizeToolCallId ids messages) m.toolCallId := by
      unfold newIdOf
      rw [idsAfter_get?_of_not_mem messages ids hlater, hid]
    rw [downgradeUnsupportedImages, List.map_cons, hshown]
    show List.Forall₂ _ _ (Message.toolResult (transformResult ids m') :: _)
    rw [transformResult_eq, hnew]
    exact .cons (.toolResult hshown) hrest
  | .assistant m :: messages, ids, opened, hturn, hnd, hnone, hne => by
    rw [List.flatMap_cons] at hnd hnone
    obtain ⟨-, hnd, -⟩ := List.nodup_append.mp hnd
    have hmap : ∀ id, (transformContent model normalizeToolCallId m ids m.content).1.get? id =
        if id ∈ Message.callIds (.assistant m) then (normalizedId model normalizeToolCallId m id).or (ids.get? id)
        else ids.get? id := (transformContent_spec m m.content ids).1
    set ids' := (transformContent model normalizeToolCallId m ids m.content).1 with hids'
    have hopen : ((if m.failed then [] else m.toolCalls.map (·.id)) ++ messages.flatMap Message.callIds).Nodup := by
      split
      · exact (List.nodup_append.mp hnd).2.1
      · exact hnd
    have hnone' : ∀ id ∈ messages.flatMap Message.callIds, ids'.get? id = none := by
      intro id hid
      rw [hmap id, if_neg fun h => (List.nodup_append.mp hnd).2.2 id h id hid rfl]
      exact hnone id (List.mem_append_right _ hid)
    obtain ⟨hrest, hrestIds⟩ := transformFrom_carries messages ids' _ hturn hopen hnone'
      fun m hm => hne m (List.mem_cons_of_mem _ hm)
    have hnew : ∀ c ∈ m.toolCalls, newIdOf (idsAfter model normalizeToolCallId ids' messages) c.id =
        (normalizedId model normalizeToolCallId m c.id).getD c.id := by
      intro c hc
      have hmem : c.id ∈ Message.callIds (.assistant m) := List.mem_map_of_mem (f := ToolCall.id) hc
      refine newIdOf_of_get? ?_ (hne m List.mem_cons_self c hc)
      rw [idsAfter_get?_of_not_mem messages ids' fun h => (List.nodup_append.mp hnd).2.2 _ hmem _ h rfl, hmap,
        if_pos hmem, hnone c.id (List.mem_append_left _ hmem), Option.or_none]
    refine ⟨?_, fun m₁ hm₁ c hc => ?_⟩
    · rw [downgradeUnsupportedImages, List.map_cons, imageAware_assistant]
      exact .cons (carries_assistant m ids hnew) hrest
    · rcases List.mem_cons.mp hm₁ with he | hm₁
      · obtain rfl : m₁ = m := by injection he
        exact hnew c hc
      · exact hrestIds m₁ hm₁ c hc

end

/-! ### The second pass fills the turns -/

section

variable (now : ℕ → ℤ)

/-- The results made up for the calls that have none, from the `n`-th message on. -/
def synthetic (n : ℕ) (existing : List String) : List ToolCall → List Message
  | [] => []
  | c :: calls =>
    if c.id ∈ existing then synthetic n existing calls
    else Repair.noResult c (now n) :: synthetic (n + 1) existing calls

/-- What the second pass still puts into the result. -/
def fill (n : ℕ) (pending : List ToolCall) (existing : List String) : List Message → List Message
  | [] => synthetic now n existing pending
  | .toolResult m :: messages => .toolResult m :: fill (n + 1) pending (existing ++ [m.toolCallId]) messages
  | .user content timestamp :: messages =>
    let made := synthetic now n existing pending
    made ++ .user content timestamp :: fill (n + made.length + 1) [] [] messages
  | .assistant m :: messages =>
    let made := synthetic now n existing pending
    if m.failed then made ++ fill (n + made.length) [] [] messages
    else made ++ .assistant m :: fill (n + made.length + 1) m.toolCalls [] messages

variable {now}

/-- Without pending calls it does not matter which results were seen. -/
theorem fill_no_pending : ∀ (messages : List Message) (n : ℕ) (existing existing' : List String),
    fill now n [] existing messages = fill now n [] existing' messages
  | [], _, _, _ => rfl
  | .user _ _ :: _, _, _, _ => rfl
  | .assistant _ :: _, _, _, _ => rfl
  | .toolResult m :: messages, n, existing, existing' => by
    show _ :: _ = _ :: _
    rw [fill_no_pending messages (n + 1) _ (existing' ++ [m.toolCallId])]

theorem foldl_synthetic (existing : List String) : ∀ (calls : List ToolCall) (s : Repair),
    calls.foldl (fun s toolCall =>
      if toolCall.id ∈ existing then s else s.push (Repair.noResult toolCall (now s.result.length))) s =
      { s with result := s.result ++ synthetic now s.result.length existing calls }
  | [], s => by simp [synthetic]
  | c :: calls, s => by
    rw [List.foldl_cons, foldl_synthetic existing calls, synthetic]
    by_cases hc : c.id ∈ existing
    · rw [if_pos hc, if_pos hc]
    · rw [if_neg hc, if_neg hc]
      simp only [Repair.push, List.length_append, List.length_singleton, List.append_assoc, List.singleton_append]

theorem insertSyntheticToolResults_eq (s : Repair) :
    ∃ existing, s.insertSyntheticToolResults now =
      ⟨s.result ++ synthetic now s.result.length s.existingToolResultIds s.pendingToolCalls, [], existing⟩ := by
  obtain ⟨result, pending, existing⟩ := s
  unfold Repair.insertSyntheticToolResults
  by_cases hp : pending = []
  · subst hp
    exact ⟨existing, by simp [synthetic]⟩
  · refine ⟨[], ?_⟩
    rw [if_pos hp, foldl_synthetic]

/-- The loop of the second pass is `fill`. -/
theorem foldl_step_eq_fill : ∀ (messages : List Message) (s : Repair),
    ((messages.foldl (Repair.step now) s).insertSyntheticToolResults now).result =
      s.result ++ fill now s.result.length s.pendingToolCalls s.existingToolResultIds messages
  | [], s => by
    obtain ⟨existing, h⟩ := @insertSyntheticToolResults_eq now s
    rw [List.foldl_nil, h]
    rfl
  | .toolResult m :: messages, s => by
    rw [List.foldl_cons, foldl_step_eq_fill messages]
    simp [Repair.step, Repair.push, fill]
  | .user content timestamp :: messages, s => by
    obtain ⟨existing, h⟩ := @insertSyntheticToolResults_eq now s
    rw [List.foldl_cons, foldl_step_eq_fill messages, Repair.step, h]
    simp only [Repair.push, fill, List.length_append, List.length_singleton]
    rw [fill_no_pending messages _ existing []]
    simp
  | .assistant m :: messages, s => by
    obtain ⟨existing, h⟩ := @insertSyntheticToolResults_eq now s
    rw [List.foldl_cons, foldl_step_eq_fill messages, Repair.step, h]
    rw [fill]
    by_cases hf : m.failed = true
    · simp only [hf, if_true, List.length_append]
      rw [fill_no_pending messages _ existing [], List.append_assoc]
    · simp only [hf, Bool.false_eq_true, if_false, Repair.push]
      by_cases hc : m.toolCalls = []
      · simp only [hc, ne_eq, not_true_eq_false, if_false, List.length_append, List.length_singleton]
        rw [fill_no_pending messages _ existing []]
        simp only [List.append_assoc, List.singleton_append, Nat.add_assoc]
      · simp only [hc, ne_eq, not_false_eq_true, if_true, List.length_append, List.length_singleton,
          List.append_assoc, List.singleton_append, Nat.add_assoc]

theorem turn_synthetic_append (existing : List String) (messages : List Message) : ∀ (calls : List ToolCall) (n : ℕ),
    ((turn (synthetic now n existing calls ++ messages)).map (·.toolCallId)) =
      (calls.map (·.id)).filter (· ∉ existing) ++ (turn messages).map (·.toolCallId)
  | [], _ => rfl
  | c :: calls, n => by
    rw [synthetic, List.map_cons, List.filter_cons]
    by_cases hc : c.id ∈ existing
    · simp only [hc, if_true, not_true_eq_false, decide_false, Bool.false_eq_true, if_false]
      exact turn_synthetic_append existing messages calls n
    · simp only [hc, if_false, not_false_eq_true, decide_true, if_true]
      show c.id :: ((turn (synthetic now (n + 1) existing calls ++ messages)).map (·.toolCallId)) = _
      rw [turn_synthetic_append existing messages calls (n + 1), List.cons_append]

theorem turn_of_inTurn_nil {messages : List Message} (h : InTurn [] messages) : turn messages = [] := by
  unfold turn
  split
  · exact absurd h.1 List.not_mem_nil
  · rfl

/-- The results after an assistant message of the output: those of the history, and one for
each call that has none. -/
theorem turn_fill : ∀ (messages : List Message) (n : ℕ) (pending : List ToolCall) (existing opened : List String),
    InTurn opened messages →
    (turn (fill now n pending existing messages)).map (·.toolCallId) = (turn messages).map (·.toolCallId) ++
      (pending.map (·.id)).filter (· ∉ existing ++ (turn messages).map (·.toolCallId))
  | [], n, pending, existing, _, _ => by
    have h := @turn_synthetic_append now existing [] pending n
    rw [List.append_nil] at h
    rw [fill, h]
    simp [turn]
  | .user content timestamp :: messages, n, pending, existing, _, _ => by
    rw [fill, turn_synthetic_append]
    simp [turn]
  | .toolResult m :: messages, n, pending, existing, opened, h => by
    show m.toolCallId :: (turn (fill now (n + 1) pending (existing ++ [m.toolCallId]) messages)).map _ = _
    rw [turn_fill messages _ _ _ opened h.2]
    simp [turn]
  | .assistant m :: messages, n, pending, existing, _, h => by
    rw [fill]
    by_cases hf : m.failed = true
    · -- nothing answers a message that failed, so its place is not seen
      have hnil : InTurn [] messages := by
        have h' : InTurn (if m.failed then [] else m.toolCalls.map (·.id)) messages := h
        rwa [if_pos hf] at h'
      rw [if_pos hf, turn_synthetic_append, turn_fill messages _ _ _ [] hnil, turn_of_inTurn_nil hnil]
      simp [turn]
    · rw [if_neg hf, turn_synthetic_append]
      simp [turn]

theorem mem_synthetic {existing : List String} {msg : Message} : ∀ {calls : List ToolCall} {n : ℕ},
    msg ∈ synthetic now n existing calls → ∃ m, msg = .toolResult m
  | c :: calls, n, h => by
    rw [synthetic] at h
    split at h
    · exact mem_synthetic h
    · rcases List.mem_cons.mp h with rfl | h
      · exact ⟨_, rfl⟩
      · exact mem_synthetic h

theorem failed_of_mem_synthetic {existing : List String} {calls : List ToolCall} {n : ℕ} {msg : Message}
    (h : msg ∈ synthetic now n existing calls) : msg.failed = false := by
  obtain ⟨m, rfl⟩ := mem_synthetic h
  rfl

/-- No message of the output failed. -/
theorem failed_of_mem_fill {msg : Message} : ∀ (messages : List Message) (n : ℕ) (pending : List ToolCall)
    (existing : List String), msg ∈ fill now n pending existing messages → msg.failed = false
  | [], _, _, _, h => failed_of_mem_synthetic h
  | .user content timestamp :: messages, n, pending, existing, h => by
    rcases List.mem_append.mp h with h | h
    · exact failed_of_mem_synthetic h
    · rcases List.mem_cons.mp h with rfl | h
      · rfl
      · exact failed_of_mem_fill messages _ _ _ h
  | .toolResult m :: messages, n, pending, existing, h => by
    rcases List.mem_cons.mp h with rfl | h
    · rfl
    · exact failed_of_mem_fill messages _ _ _ h
  | .assistant m :: messages, n, pending, existing, h => by
    rw [fill] at h
    by_cases hf : m.failed = true
    · rw [if_pos hf] at h
      rcases List.mem_append.mp h with h | h
      · exact failed_of_mem_synthetic h
      · exact failed_of_mem_fill messages _ _ _ h
    · rw [if_neg hf] at h
      rcases List.mem_append.mp h with h | h
      · exact failed_of_mem_synthetic h
      · rcases List.mem_cons.mp h with rfl | h
        · exact Bool.eq_false_iff.mpr hf
        · exact failed_of_mem_fill messages _ _ _ h

/-- The messages that did not fail stand in the output in their order. -/
theorem sublist_fill : ∀ (messages : List Message) (n : ℕ) (pending : List ToolCall) (existing : List String),
    (messages.filter (!·.failed)).Sublist (fill now n pending existing messages)
  | [], _, _, _ => List.nil_sublist _
  | .user content timestamp :: messages, _, _, _ =>
    ((sublist_fill messages _ _ _).cons_cons _).trans (List.sublist_append_right _ _)
  | .toolResult m :: messages, _, _, _ => (sublist_fill messages _ _ _).cons_cons _
  | .assistant m :: messages, n, pending, existing => by
    rw [fill]
    by_cases hf : m.failed = true
    · rw [if_pos hf, List.filter_cons_of_neg (by simp [Message.failed, hf])]
      exact (sublist_fill messages _ _ _).trans (List.sublist_append_right _ _)
    · rw [if_neg hf, List.filter_cons_of_pos (by simp [Message.failed, hf])]
      exact ((sublist_fill messages _ _ _).cons_cons _).trans (List.sublist_append_right _ _)

theorem split_after_synthetic {n : ℕ} {existing : List String} {calls : List ToolCall} {rest before after : List Message}
    {m : AssistantMessage} (h : synthetic now n existing calls ++ rest = before ++ .assistant m :: after) :
    ∃ before', rest = before' ++ .assistant m :: after := by
  rcases List.append_eq_append_iff.mp h with ⟨before', rfl, hrest⟩ | ⟨made, hmade, hrest⟩
  · exact ⟨before', hrest⟩
  · cases made with
    | nil => exact ⟨[], hrest.symm⟩
    | cons msg made =>
      obtain ⟨hmsg, -⟩ := List.cons.inj hrest
      obtain ⟨r, hr⟩ := mem_synthetic (hmade ▸ List.mem_append_right before List.mem_cons_self)
      rw [← hmsg] at hr
      cases hr

/-- Where an assistant message of the output comes from, and what comes after it. -/
theorem fill_split {m : AssistantMessage} {after : List Message} : ∀ (messages : List Message) (n : ℕ)
    (pending : List ToolCall) (existing : List String) (before : List Message),
    fill now n pending existing messages = before ++ .assistant m :: after →
    ∃ before' n' after', messages = before' ++ .assistant m :: after' ∧ m.failed = false ∧
      after = fill now n' m.toolCalls [] after'
  | [], _, _, _, before, h => by
    rw [fill, ← List.append_nil (synthetic _ _ _ _)] at h
    obtain ⟨before', h⟩ := split_after_synthetic h
    simp at h
  | .user content timestamp :: messages, n, pending, existing, before, h => by
    obtain ⟨before', h⟩ := split_after_synthetic h
    cases before' with
    | nil => cases h
    | cons msg before' =>
      obtain ⟨-, h⟩ := List.cons.inj h
      obtain ⟨before'', n', after', rfl, hm, hafter⟩ := fill_split messages _ _ _ before' h
      exact ⟨.user content timestamp :: before'', n', after', rfl, hm, hafter⟩
  | .toolResult r :: messages, n, pending, existing, before, h => by
    cases before with
    | nil => cases h
    | cons msg before =>
      obtain ⟨-, h⟩ := List.cons.inj h
      obtain ⟨before'', n', after', rfl, hm, hafter⟩ := fill_split messages _ _ _ before h
      exact ⟨.toolResult r :: before'', n', after', rfl, hm, hafter⟩
  | .assistant m₁ :: messages, n, pending, existing, before, h => by
    rw [fill] at h
    by_cases hf : m₁.failed = true
    · rw [if_pos hf] at h
      obtain ⟨before', h⟩ := split_after_synthetic h
      obtain ⟨before'', n', after', rfl, hm, hafter⟩ := fill_split messages _ _ _ before' h
      exact ⟨.assistant m₁ :: before'', n', after', rfl, hm, hafter⟩
    · rw [if_neg hf] at h
      obtain ⟨before', h⟩ := split_after_synthetic h
      cases before' with
      | nil =>
        obtain rfl : m₁ = m := by injection (List.cons.inj h).1
        exact ⟨[], _, messages, rfl, Bool.eq_false_iff.mpr hf, (List.cons.inj h).2.symm⟩
      | cons msg before' =>
        obtain ⟨-, h⟩ := List.cons.inj h
        obtain ⟨before'', n', after', rfl, hm, hafter⟩ := fill_split messages _ _ _ before' h
        exact ⟨.assistant m₁ :: before'', n', after', rfl, hm, hafter⟩

end

/-! ### The pairing -/

section

variable {newId : String → String} {shown : Message → Message}

theorem failed_of_fields {m m' : AssistantMessage} (h : { m' with content := m.content } = m) : m'.failed = m.failed := by
  conv_rhs => rw [← h]
  rfl

theorem Carries.failed_eq {msg msg' : Message} (h : Carries newId shown msg msg') : msg'.failed = msg.failed := by
  obtain _ | _ | ⟨-, -, hfields⟩ := h
  · rfl
  · rfl
  · exact failed_of_fields hfields

/-- The results keep their places under the new ids. -/
theorem InTurn.carried {history carried : List Message} (hc : List.Forall₂ (Carries newId shown) history carried) :
    ∀ {opened : List String}, InTurn opened history → InTurn (opened.map newId) carried := by
  induction hc with
  | nil => exact fun _ => trivial
  | cons hmsg _ ih =>
    intro opened h
    cases hmsg with
    | user => exact ih h
    | toolResult => exact ⟨List.mem_map_of_mem h.1, ih h.2⟩
    | assistant hids hcalls hfields =>
      rename_i m m'
      have hf := failed_of_fields hfields
      have h' := ih h
      show InTurn (if m'.failed then [] else m'.toolCalls.map (·.id)) _
      rw [hf, hids]
      by_cases hm : m.failed = true
      · simpa [hm] using h'
      · simpa [hm, Function.comp_def] using h'

theorem turn_carried {history carried : List Message} (hc : List.Forall₂ (Carries newId shown) history carried) :
    (turn carried).map (·.toolCallId) = ((turn history).map (·.toolCallId)).map newId := by
  induction hc with
  | nil => rfl
  | cons hmsg _ ih =>
    obtain _ | _ | _ := hmsg
    · rfl
    · exact congrArg (_ :: ·) ih
    · rfl

theorem filter_carried {history carried : List Message} (hc : List.Forall₂ (Carries newId shown) history carried) :
    List.Forall₂ (Carries newId shown) (history.filter (!·.failed)) (carried.filter (!·.failed)) := by
  induction hc with
  | nil => exact .nil
  | cons hmsg _ ih =>
    rw [List.filter_cons, List.filter_cons, hmsg.failed_eq]
    split
    · exact .cons hmsg ih
    · exact ih

theorem InTurn.after {m : AssistantMessage} {after : List Message} : ∀ (before : List Message) (opened : List String),
    InTurn opened (before ++ .assistant m :: after) → InTurn (if m.failed then [] else m.toolCalls.map (·.id)) after
  | [], _, h => h
  | .user _ _ :: before, _, h => InTurn.after before _ h
  | .assistant _ :: before, _, h => InTurn.after before _ h
  | .toolResult _ :: before, _, h => InTurn.after before _ h.2

theorem InTurn.mem_opened {opened : List String} : ∀ {messages : List Message}, InTurn opened messages →
    ∀ id ∈ (turn messages).map (·.toolCallId), id ∈ opened
  | [], _, _, hid => absurd hid List.not_mem_nil
  | .user _ _ :: _, _, _, hid => absurd hid List.not_mem_nil
  | .assistant _ :: _, _, _, hid => absurd hid List.not_mem_nil
  | .toolResult m :: messages, h, id, hid => by
    rcases List.mem_cons.mp hid with rfl | hid
    · exact h.1
    · exact h.2.mem_opened id hid

theorem count_map_of_injOn {f : String → String} {l : List String} {a : String} (h : ∀ b ∈ l, f b = f a → b = a) :
    (l.map f).count (f a) = l.count a := by
  rw [List.count, List.countP_map, List.count]
  refine List.countP_congr fun b hb => ?_
  simp only [Function.comp_apply, beq_iff_eq]
  constructor
  · exact h b hb
  · intro hba
    rw [hba]

/-- A call has its results, or the one made up for it. -/
theorem count_turn {ids calls : List String} {id : String} (hnd : calls.Nodup) (hid : id ∈ calls) :
    (ids ++ calls.filter (· ∉ ids)).count id = max 1 (ids.count id) := by
  rw [List.count_append]
  by_cases h : id ∈ ids
  · have hzero : (calls.filter (· ∉ ids)).count id = 0 := List.count_eq_zero_of_not_mem (by simp [h])
    have hpos := List.count_pos_iff.mpr h
    omega
  · have hone : (calls.filter (· ∉ ids)).count id = 1 :=
      List.count_eq_one_of_mem (hnd.filter _) (List.mem_filter.mpr ⟨hid, by simp [h]⟩)
    have hzero := List.count_eq_zero_of_not_mem h
    omega

/-- An assistant message of the output has in its turn the results of its calls. -/
theorem answered_of_carried {now : ℕ → ℤ} {history carried before after : List Message} {m' : AssistantMessage}
    (hc : List.Forall₂ (Carries newId shown) history carried) (hturn : InTurn [] history)
    (hnd : (history.flatMap Message.callIds).Nodup)
    (hinj : ∀ m, .assistant m ∈ history → ∀ c ∈ m.toolCalls, ∀ d ∈ m.toolCalls, newId c.id = newId d.id → c.id = d.id)
    (hsplit : fill now 0 [] [] carried = before ++ .assistant m' :: after) :
    ∃ before₀ m after₀, history = before₀ ++ .assistant m :: after₀ ∧
      Carries newId shown (.assistant m) (.assistant m') ∧
      (∀ c ∈ m.toolCalls, answers (newId c.id) after = max 1 (answers c.id after₀)) ∧
      ∀ r ∈ turn after, ∃ c ∈ m.toolCalls, r.toolCallId = newId c.id := by
  obtain ⟨cbefore, n, cafter, rfl, hnotFailed, rfl⟩ := fill_split carried _ _ _ _ hsplit
  have hdrop := List.forall₂_drop_append _ _ _ hc
  have htake := List.take_append_drop cbefore.length history
  obtain ⟨msg, after₀, hmsg, hafter, hrest⟩ := List.forall₂_cons_right_iff.mp hdrop
  rw [hrest] at htake
  obtain ⟨m, rfl⟩ : ∃ m, msg = .assistant m := by
    cases hmsg
    exact ⟨_, rfl⟩
  have hmem : .assistant m ∈ history := by
    rw [← htake]
    exact List.mem_append_right _ List.mem_cons_self
  have hids : m'.toolCalls.map (·.id) = m.toolCalls.map fun c => newId c.id := by
    cases hmsg
    assumption
  have hnot : m.failed = false := by
    have h := hmsg.failed_eq
    exact h.symm.trans hnotFailed
  have hopen : InTurn (m.toolCalls.map (·.id)) after₀ := by
    rw [← htake] at hturn
    have h := InTurn.after _ _ hturn
    rwa [hnot] at h
  have hcopen := InTurn.carried hafter hopen
  -- the results of the turn, and those made up
  have hresults : (turn (fill now n m'.toolCalls [] cafter)).map (·.toolCallId) =
      (turn cafter).map (·.toolCallId) ++
        (m.toolCalls.map fun c => newId c.id).filter (· ∉ (turn cafter).map (·.toolCallId)) := by
    rw [turn_fill cafter n m'.toolCalls [] _ hcopen, hids, List.nil_append]
  have hcalls : (m.toolCalls.map fun c => newId c.id).Nodup := by
    have hown : (m.toolCalls.map (·.id)).Nodup := by
      rw [← htake, List.flatMap_append, List.flatMap_cons] at hnd
      exact (List.nodup_append.mp (List.nodup_append.mp hnd).2.1).1
    have h := hown.map_on (f := newId) (by
      intro x hx y hy hxy
      obtain ⟨c, hc, rfl⟩ := List.mem_map.mp hx
      obtain ⟨d, hd, rfl⟩ := List.mem_map.mp hy
      exact hinj m hmem c hc d hd hxy)
    rwa [List.map_map] at h
  refine ⟨_, m, after₀, htake.symm, hmsg, fun c hcmem => ?_, fun r hr => ?_⟩
  · have hsame : ((turn cafter).map (·.toolCallId)).count (newId c.id) = answers c.id after₀ := by
      rw [turn_carried hafter]
      refine count_map_of_injOn fun id hid he => ?_
      obtain ⟨d, hd, rfl⟩ := List.mem_map.mp (hopen.mem_opened id hid)
      exact hinj m hmem d hd c hcmem he
    calc answers (newId c.id) (fill now n m'.toolCalls [] cafter)
      _ = max 1 (((turn cafter).map (·.toolCallId)).count (newId c.id)) := by
        rw [answers, hresults, count_turn hcalls (List.mem_map.mpr ⟨c, hcmem, rfl⟩)]
      _ = max 1 (answers c.id after₀) := by rw [hsame]
  · have hmemr : r.toolCallId ∈ (turn (fill now n m'.toolCalls [] cafter)).map (·.toolCallId) := List.mem_map_of_mem hr
    rw [hresults] at hmemr
    rcases List.mem_append.mp hmemr with h | h
    · have h' := hcopen.mem_opened _ h
      rw [List.map_map] at h'
      obtain ⟨c, hcmem, he⟩ := List.mem_map.mp h'
      exact ⟨c, hcmem, he.symm⟩
    · obtain ⟨c, hcmem, he⟩ := List.mem_map.mp (List.mem_filter.mp h).1
      exact ⟨c, hcmem, he.symm⟩

end

/-- **A history that is sent has results for its calls.** No message of the output failed;
an assistant message of the output comes from one of the history, with the ids of its calls
mapped, and has in its turn, for each of its calls, the results the history has for it, or
one if it has none, and no other result; and every message that did not fail stands in the
output in its order, its id mapped the same way, its images as the model can see them. -/
theorem transformMessages_pairing (now : ℕ → ℤ) (history : List Message) (model : Model)
    (normalizeToolCallId : Option Normalizer) (hwf : WellFormed history)
    (hfaithful : ∀ normalize ∈ normalizeToolCallId, Faithful model normalize history) :
    ∃ newId, Pairing newId (imageAware model) (max 1) history (transformMessages now history model normalizeToolCallId) := by
  have hnormalized : ∀ m, .assistant m ∈ history → ∀ c ∈ m.toolCalls,
      normalizedId model normalizeToolCallId m c.id ≠ some "" := by
    intro m hm c hc
    unfold normalizedId
    split
    · exact fun h => by cases h
    · rename_i normalize
      have hne := (hfaithful normalize rfl).ne_empty m hm c hc
      split_ifs
      · exact fun h => by cases h
      · simpa using hne
      · exact fun h => by cases h
  obtain ⟨hcarried, hids⟩ := @transformFrom_carries model normalizeToolCallId history
    .empty [] hwf.inTurn hwf.nodup (fun _ _ => rfl) hnormalized
  set newId := newIdOf (idsAfter model normalizeToolCallId .empty history)
  set carried := transformFrom model normalizeToolCallId .empty (downgradeUnsupportedImages history model) with hdef
  have hout : transformMessages now history model normalizeToolCallId = fill now 0 [] [] carried := by
    unfold transformMessages
    rw [← hdef, foldl_step_eq_fill]
    rfl
  have hinj : ∀ m, .assistant m ∈ history → ∀ c ∈ m.toolCalls, ∀ d ∈ m.toolCalls, newId c.id = newId d.id →
      c.id = d.id := by
    intro m hm c hc d hd hcd
    rw [hids m hm c hc, hids m hm d hd] at hcd
    cases hopt : normalizeToolCallId with
    | none => simpa [normalizedId, hopt] using hcd
    | some normalize =>
      by_cases hsame : isSameModel model m = true
      · simpa [normalizedId, hopt, hsame] using hcd
      · have hgetD : ∀ id, (normalizedId model normalizeToolCallId m id).getD id = normalize id model m := by
          intro id
          by_cases hn : normalize id model m = id <;> simp [normalizedId, hopt, hsame, hn]
        rw [hgetD, hgetD] at hcd
        exact (hfaithful normalize (by rw [hopt]; rfl)).injective m hm c hc d hd hcd
  refine ⟨newId, ?_, ?_, ?_⟩
  · intro msg hmsg
    rw [hout] at hmsg
    exact failed_of_mem_fill _ _ _ _ hmsg
  · intro before m' after hsplit
    rw [hout] at hsplit
    exact answered_of_carried hcarried hwf.inTurn hwf.nodup hinj hsplit
  · refine ⟨carried.filter (!·.failed), filter_carried hcarried, ?_⟩
    rw [hout]
    exact sublist_fill _ _ _ _

/-! ### What the pass leaves as it is -/

/-- A model without images. -/
def textModel : Model := ⟨"model", "api", "provider", ["text"]⟩

/-- An assistant message with one call. -/
def oneCall : AssistantMessage :=
  ⟨[.toolCall ⟨"t1", "read", .obj [], none⟩], "api", "provider", "other", none, none, ⟨0, 0, 0, 0, 0⟩, .toolUse, none, 0⟩

/-- A result for it. -/
def oneResult : ToolResultMessage := ⟨"t1", "read", [.text ⟨"ok", none⟩], none, false, 0⟩

theorem wellFormed_oneCall (results : List Message) (h : results = [] ∨ results = [.toolResult oneResult, .toolResult oneResult]) :
    WellFormed (.assistant oneCall :: results) := by
  obtain rfl | rfl := h
  · exact ⟨trivial, by decide⟩
  · exact ⟨⟨by decide, by decide, trivial⟩, by decide⟩

/-- Contents and single results are not kept for every history: a model without images gets
a text in place of an image, and a result that the history has twice is sent twice. -/
theorem transformMessages_not_exact :
    (let history : List Message := [.user (.blocks [.image "AAAA" "image/png"]) 0]
     WellFormed history ∧
       ¬∃ newId, Pairing newId id (fun _ => 1) history (transformMessages (fun _ => 0) history textModel none)) ∧
    (let history : List Message := [.assistant oneCall, .toolResult oneResult, .toolResult oneResult]
     WellFormed history ∧
       ¬∃ newId, Pairing newId id (fun _ => 1) history (transformMessages (fun _ => 0) history textModel none)) := by
  refine ⟨⟨⟨trivial, by decide⟩, ?_⟩, ⟨wellFormed_oneCall _ (Or.inr rfl), ?_⟩⟩
  · rintro ⟨newId, hpairing⟩
    obtain ⟨carried, hcarried, hsub⟩ := hpairing.kept
    obtain ⟨msg, rest, hmsg, -, rfl⟩ := List.forall₂_cons_left_iff.mp hcarried
    have hmem := hsub.subset List.mem_cons_self
    cases hmsg with
    | user h =>
      rw [← h] at hmem
      exact absurd hmem (by decide)
  · rintro ⟨newId, hpairing⟩
    obtain ⟨_, m, _, _, hmsg, hcount, -⟩ := hpairing.answered [] oneCall
      [.toolResult oneResult, .toolResult oneResult] (by decide)
    cases hmsg with
    | assistant hids =>
      have hmem : "t1" ∈ oneCall.toolCalls.map (·.id) := by decide
      rw [hids] at hmem
      obtain ⟨c, hc, hnew⟩ := List.mem_map.mp hmem
      have h := hcount c hc
      rw [hnew] at h
      exact absurd h (by decide)

/-- A call without a result, sent to another model under a new id. -/
theorem transformMessages_pairing_orphan :
    ∃ newId, Pairing newId (imageAware textModel) (max 1) [.assistant oneCall]
      (transformMessages (fun _ => 0) [.assistant oneCall] textModel (some fun id _ _ => id ++ "_")) := by
  refine transformMessages_pairing _ _ _ _ (wellFormed_oneCall [] (Or.inl rfl)) fun normalize hn => ?_
  obtain rfl := Option.mem_some.mp hn
  have hone : ∀ m, .assistant m ∈ [Message.assistant oneCall] → ∀ c ∈ m.toolCalls, c.id = "t1" := by
    intro m hm c hc
    obtain rfl : m = oneCall := by injection List.mem_singleton.mp hm
    obtain rfl : c = _ := List.mem_singleton.mp hc
    rfl
  refine ⟨fun m hm c hc d hd _ => ?_, fun m hm c hc => ?_⟩
  · rw [hone m hm c hc, hone m hm d hd]
  · rw [hone m hm c hc]
    decide

end Trek.Ai
