/-
# What a chat completion is put together to

The deltas of a stream are its pieces (`Chunk.pieces`), each with the block it belongs to as its key.
`received` is what of them is read, up to the piece at which the repetition guard throws. Reading a
piece opens the block of its key, if there is none, and lets it grow (`Opens`); the blocks are then those
of the keys in order of first appearance (`Inv`), and the events of a block its start and its deltas
(`Logged`). This holds along every stream, however it ends (`stream_assembled`).
-/
import Mathlib.Data.List.Induction
import Trek.Ai.Completions

namespace Trek.Ai.Completions

variable {RawUsage Usage : Type*}

/-! ### Pieces and what they make -/

/-- The block a piece belongs to. -/
inductive Key
  | text
  | thinking
  | call (index : Option ℤ)
  deriving DecidableEq

/-- A delta of text, of the reasoning with the field it came in, or of a tool call. -/
inductive Piece
  | text (delta : String)
  | thinking (field delta : String)
  | call (toolCall : ToolCallDelta)
  deriving DecidableEq

def Piece.key : Piece → Key
  | .text _ => .text
  | .thinking .. => .thinking
  | .call toolCall => .call toolCall.index

def Piece.delta : Piece → String
  | .text delta => delta
  | .thinking _ delta => delta
  | .call toolCall => (given toolCall.arguments).getD ""

/-- The pieces of a delta, in the order in which they are read. -/
def Delta.pieces (delta : Delta) : List Piece :=
  ((given delta.content).map Piece.text).toList ++
    ((foundReasoning delta).map fun found => Piece.thinking found.1 found.2).toList ++
    delta.toolCalls.map Piece.call

/-- The pieces of a chunk. -/
def Chunk.pieces (chunk : Chunk RawUsage) : List Piece := ((chunk.choice.bind Choice.delta).map Delta.pieces).getD []

/-- The blocks of the pieces, in order of first appearance. -/
def blockKeys (ps : List Piece) : List Key := OrdMap.distinct (ps.map Piece.key)

/-- The deltas of a block. -/
def deltasOf (ps : List Piece) (k : Key) : List String := (ps.filter (·.key = k)).map Piece.delta

/-- The first non-empty text that a field has among the deltas of a tool call. -/
def firstGiven (field : ToolCallDelta → Option String) (ps : List Piece) (k : Key) : String :=
  ((ps.filter (·.key = k)).findSome? fun
    | .call toolCall => given (field toolCall)
    | _ => none).getD ""

/-- A block as the pieces make it, while it is streamed. -/
def Holds (ps : List Piece) (k : Key) : StreamingBlock → Prop
  | .text text => k = .text ∧ text = String.join (deltasOf ps k)
  | .thinking thinking _ => k = .thinking ∧ thinking = String.join (deltasOf ps k)
  | .toolCall call => k = .call call.streamIndex ∧ call.id = firstGiven ToolCallDelta.id ps k ∧
      call.name = firstGiven ToolCallDelta.name ps k ∧ call.partialArgs = some (String.join (deltasOf ps k))

/-- The guard throws at the last of the pieces. -/
def trips (env : Env RawUsage Usage) (ps : List Piece) : Bool :=
  match ps.getLast? with
  | some (.text _) => env.isRepetitiveStreamText (String.join (deltasOf ps .text))
  | some (.thinking ..) => env.isRepetitiveStreamText (String.join (deltasOf ps .thinking))
  | _ => false

/-- The pieces that are read: all, or those up to the first one at which the guard throws. -/
def received (env : Env RawUsage Usage) (read : List Piece) : List Piece → List Piece
  | [] => read
  | p :: ps => if trips env (read ++ [p]) then read ++ [p] else received env (read ++ [p]) ps

/-- The first event of a block. -/
def Key.startEvent (contentIndex : ℕ) : Key → Event Usage
  | .text => .textStart contentIndex
  | .thinking => .thinkingStart contentIndex
  | .call _ => .toolcallStart contentIndex

/-- The event of a delta. -/
def Key.deltaEvent (contentIndex : ℕ) (delta : String) : Key → Event Usage
  | .text => .textDelta contentIndex delta
  | .thinking => .thinkingDelta contentIndex delta
  | .call _ => .toolcallDelta contentIndex delta

/-- The `contentIndex` of an event. -/
def Event.contentIndex : Event Usage → Option ℕ
  | .textStart i | .textDelta i _ | .textEnd i _ | .thinkingStart i | .thinkingDelta i _ | .thinkingEnd i _
  | .toolcallStart i | .toolcallDelta i _ | .toolcallEnd i _ => some i
  | .start | .done .. | .error .. => none

/-- The event that is the last one. -/
def Event.isLast : Event Usage → Bool
  | .done .. | .error .. => true
  | _ => false

/-- The events of a block. -/
def eventsOf (events : List (Event Usage)) (contentIndex : ℕ) : List (Event Usage) :=
  events.filter (·.contentIndex = some contentIndex)

/-- The events of a block while it is streamed. -/
def opened (ps : List Piece) (contentIndex : ℕ) (k : Key) : List (Event Usage) :=
  k.startEvent contentIndex :: (deltasOf ps k).map fun delta => k.deltaEvent contentIndex delta

/-! ### One more piece -/

theorem join_concat (l : List String) (x : String) : String.join (l ++ [x]) = String.join l ++ x := by
  simp [String.join]

section

variable {ps : List Piece} {p : Piece} {k : Key}

theorem blockKeys_concat : blockKeys (ps ++ [p]) =
    if p.key ∈ blockKeys ps then blockKeys ps else blockKeys ps ++ [p.key] := by
  rw [blockKeys, List.map_append, List.map_singleton, OrdMap.distinct_concat]
  simp only [blockKeys, OrdMap.mem_distinct]

theorem blockKeys_nil : blockKeys [] = [] := rfl

theorem nodup_blockKeys (ps : List Piece) : (blockKeys ps).Nodup := OrdMap.nodup_distinct _

theorem deltasOf_concat_self : deltasOf (ps ++ [p]) p.key = deltasOf ps p.key ++ [p.delta] := by
  simp [deltasOf]

theorem deltasOf_concat_of_ne (h : p.key ≠ k) : deltasOf (ps ++ [p]) k = deltasOf ps k := by
  simp [deltasOf, h]

theorem deltasOf_of_notMem (h : k ∉ blockKeys ps) : deltasOf ps k = [] := by
  rw [blockKeys, OrdMap.mem_distinct, List.mem_map] at h
  rw [deltasOf, List.filter_eq_nil_iff.mpr fun p hp hk => h ⟨p, hp, by simpa using hk⟩, List.map_nil]

theorem firstGiven_concat_of_ne {field : ToolCallDelta → Option String} (h : p.key ≠ k) :
    firstGiven field (ps ++ [p]) k = firstGiven field ps k := by
  simp [firstGiven, h]

theorem given_ne {s : Option String} {x : String} (h : given s = some x) : x ≠ "" := by
  obtain ⟨-, hx⟩ := Option.filter_eq_some_iff.mp h
  simpa using hx

theorem firstGiven_concat {field : ToolCallDelta → Option String} {toolCall : ToolCallDelta} :
    firstGiven field (ps ++ [Piece.call toolCall]) (.call toolCall.index) =
      if firstGiven field ps (.call toolCall.index) = "" then (given (field toolCall)).getD ""
      else firstGiven field ps (.call toolCall.index) := by
  have hconcat : (ps ++ [Piece.call toolCall]).filter (·.key = .call toolCall.index) =
      ps.filter (·.key = .call toolCall.index) ++ [Piece.call toolCall] := by
    simp [Piece.key]
  rw [firstGiven, hconcat, List.findSome?_append, firstGiven]
  cases hfirst : (ps.filter (·.key = .call toolCall.index)).findSome? fun
    | .call toolCall => given (field toolCall)
    | _ => none with
  | none => simp
  | some first =>
    obtain ⟨p, -, hp⟩ := List.exists_of_findSome?_eq_some hfirst
    have hne : first ≠ "" := by
      cases p with
      | call other => exact given_ne hp
      | _ => cases hp
    simp [hne]

theorem firstGiven_of_notMem {field : ToolCallDelta → Option String} (h : k ∉ blockKeys ps) : firstGiven field ps k = "" := by
  rw [blockKeys, OrdMap.mem_distinct, List.mem_map] at h
  rw [firstGiven, List.filter_eq_nil_iff.mpr fun p hp hk => h ⟨p, hp, by simpa using hk⟩]
  rfl

/-- The blocks of other keys stay as they are. -/
theorem Holds.concat_of_ne {b : StreamingBlock} (h : Holds ps k b) (hne : p.key ≠ k) : Holds (ps ++ [p]) k b := by
  cases b with
  | text t => rwa [Holds, deltasOf_concat_of_ne hne]
  | thinking t signature => rwa [Holds, deltasOf_concat_of_ne hne]
  | toolCall call =>
    rw [Holds, deltasOf_concat_of_ne hne, firstGiven_concat_of_ne hne, firstGiven_concat_of_ne hne]
    exact h

end

/-! ### The block of a piece -/

/-- What relates two lists element by element relates them after a change of the second at the place of
an element, if it does for this element and for all others. -/
theorem forall₂_modify {α β : Type*} {R S : α → β → Prop} {l : List α} {m : List β} {f : β → β} {a : α}
    (h : List.Forall₂ R l m) : ∀ {i : ℕ}, l.Nodup → l[i]? = some a → (∀ b, R a b → S a (f b)) →
      (∀ x b, x ≠ a → R x b → S x b) → List.Forall₂ S l (m.modify i f) := by
  induction h with
  | nil => intro i _ hi; simp at hi
  | @cons x b l m hxb hlm ih =>
    intro i hnodup hi hself hother
    rw [List.nodup_cons] at hnodup
    cases i with
    | zero =>
      obtain rfl : x = a := by simpa using hi
      refine .cons (hself b hxb) ?_
      have hrest : ∀ {l : List α} {m : List β}, List.Forall₂ R l m → x ∉ l → List.Forall₂ S l m := by
        intro l m hlm
        induction hlm with
        | nil => exact fun _ => .nil
        | cons hyc _ ih =>
          intro hx
          rw [List.mem_cons, not_or] at hx
          exact .cons (hother _ _ (Ne.symm hx.1) hyc) (ih hx.2)
      exact hrest hlm hnodup.1
    | succ i =>
      have hi : l[i]? = some a := by simpa using hi
      have hne : x ≠ a := fun h => hnodup.1 (h ▸ List.mem_of_getElem? hi)
      exact .cons (hother x b hne hxb) (ih hnodup.2 hi hself hother)

/-- What relates two lists element by element still does after a change of the second that keeps it. -/
theorem forall₂_modify_self {α β : Type*} {R : α → β → Prop} {l : List α} {m : List β} {f : β → β}
    (h : List.Forall₂ R l m) (hf : ∀ x b, R x b → R x (f b)) {i : ℕ} : List.Forall₂ R l (m.modify i f) := by
  induction h generalizing i with
  | nil => rw [List.modify_nil]; exact .nil
  | @cons x b l m hxb hlm ih =>
    cases i with
    | zero => exact .cons (hf x b hxb) hlm
    | succ i => exact .cons hxb ih

/-- The block of a key is there, or a new one is put at the end. -/
def Opens (ps : List Piece) (s s' : Loop Usage) (k : Key) (block : ℕ) (new : StreamingBlock) : Prop :=
  ((blockKeys ps)[block]? = some k ∧ s'.output.content = s.output.content ∧ s'.events = s.events) ∨
    (k ∉ blockKeys ps ∧ block = (blockKeys ps).length ∧ s'.output.content = s.output.content ++ [new] ∧
      s'.events = s.events ++ [k.startEvent block])

/-- The events of all blocks are their starts and their deltas. -/
def Logged (ps : List Piece) (events : List (Event Usage)) : Prop :=
  ∀ i, eventsOf events i = ((blockKeys ps)[i]?.map (opened ps i)).getD []

section

variable {ps : List Piece} {p : Piece} {s s' : Loop Usage} {block : ℕ} {new : StreamingBlock}

theorem getElem?_blockKeys_concat {r : ℕ} {k : Key} : (blockKeys (ps ++ [p]))[r]? = some k ↔
    (blockKeys ps)[r]? = some k ∨ p.key ∉ blockKeys ps ∧ k = p.key ∧ r = (blockKeys ps).length := by
  rw [blockKeys_concat]
  by_cases h : p.key ∈ blockKeys ps
  · simp [h]
  · rw [if_neg h]
    rcases Nat.lt_trichotomy r (blockKeys ps).length with hr | rfl | hr
    · simp [List.getElem?_append_left hr, Nat.ne_of_lt hr]
    · simp [h, eq_comm]
    · have h₁ : (blockKeys ps)[r]? = none := List.getElem?_eq_none (Nat.le_of_lt hr)
      have h₂ : (blockKeys ps ++ [p.key])[r]? = none := List.getElem?_eq_none (by
        rw [List.length_append, List.length_singleton]
        omega)
      simp [h₁, h₂, Nat.ne_of_gt hr]

theorem getElem?_blockKeys_concat_of_ne {r : ℕ} {k : Key} (h : k ≠ p.key) :
    (blockKeys (ps ++ [p]))[r]? = some k ↔ (blockKeys ps)[r]? = some k := by
  rw [getElem?_blockKeys_concat]
  exact or_iff_left fun hk => h hk.2.1

theorem eq_of_getElem?_blockKeys {r r' : ℕ} {k : Key} (h : (blockKeys ps)[r]? = some k) (h' : (blockKeys ps)[r']? = some k) :
    r = r' := by
  have hr := (List.getElem?_eq_some_iff.mp h).1
  exact (List.getElem?_inj hr (nodup_blockKeys ps)).mp (h.trans h'.symm)

theorem Opens.place (h : Opens ps s s' p.key block new) : (blockKeys (ps ++ [p]))[block]? = some p.key := by
  rw [getElem?_blockKeys_concat]
  rcases h with ⟨h, -, -⟩ | ⟨h, rfl, -, -⟩
  · exact Or.inl h
  · exact Or.inr ⟨h, rfl, rfl⟩

theorem Opens.content (h : Opens ps s s' p.key block new) (hc : List.Forall₂ (Holds ps) (blockKeys ps) s.output.content)
    {f : StreamingBlock → StreamingBlock} (hf : ∀ b, Holds ps p.key b → Holds (ps ++ [p]) p.key (f b))
    (hnew : p.key ∉ blockKeys ps → Holds (ps ++ [p]) p.key (f new)) :
    List.Forall₂ (Holds (ps ++ [p])) (blockKeys (ps ++ [p])) (s'.output.content.modify block f) := by
  refine forall₂_modify (R := fun k b => Holds ps k b ∨ k = p.key ∧ k ∉ blockKeys ps ∧ b = new) ?_ (nodup_blockKeys _)
    h.place ?_ ?_
  · have hold : List.Forall₂ (fun k b => Holds ps k b ∨ k = p.key ∧ k ∉ blockKeys ps ∧ b = new) (blockKeys ps)
        s.output.content := hc.imp fun _ _ => Or.inl
    rw [blockKeys_concat]
    rcases h with ⟨h, hcontent, -⟩ | ⟨h, -, hcontent, -⟩
    · rw [if_pos (List.mem_of_getElem? h), hcontent]
      exact hold
    · rw [if_neg h, hcontent]
      exact List.rel_append hold (.cons (Or.inr ⟨rfl, h, rfl⟩) .nil)
  · rintro b (hb | ⟨-, hk, rfl⟩)
    · exact hf b hb
    · exact hnew hk
  · rintro k b hne (hb | ⟨hk, -⟩)
    · exact hb.concat_of_ne hne.symm
    · exact absurd hk hne

theorem eventsOf_append (a b : List (Event Usage)) (i : ℕ) : eventsOf (a ++ b) i = eventsOf a i ++ eventsOf b i :=
  List.filter_append ..

theorem eventsOf_startEvent {k : Key} {i : ℕ} :
    eventsOf [(k.startEvent block : Event Usage)] i = if i = block then [k.startEvent block] else [] := by
  cases k <;> simp [eventsOf, Key.startEvent, Event.contentIndex, List.filter_singleton, eq_comm]

theorem eventsOf_deltaEvent {k : Key} {delta : String} {i : ℕ} :
    eventsOf [(k.deltaEvent block delta : Event Usage)] i = if i = block then [k.deltaEvent block delta] else [] := by
  cases k <;> simp [eventsOf, Key.deltaEvent, Event.contentIndex, List.filter_singleton, eq_comm]

theorem opened_concat_self {i : ℕ} :
    (opened (ps ++ [p]) i p.key : List (Event Usage)) = opened ps i p.key ++ [p.key.deltaEvent i p.delta] := by
  rw [opened, opened, deltasOf_concat_self, List.map_append, List.map_singleton, List.cons_append]

theorem opened_concat_of_ne {i : ℕ} {k : Key} (h : p.key ≠ k) :
    (opened (ps ++ [p]) i k : List (Event Usage)) = opened ps i k := by
  rw [opened, opened, deltasOf_concat_of_ne h]

theorem Opens.logged (h : Opens ps s s' p.key block new) (hlog : Logged ps s.events) :
    Logged (ps ++ [p]) (s'.events ++ [p.key.deltaEvent block p.delta]) := by
  intro i
  have hplace := h.place
  rw [eventsOf_append, eventsOf_deltaEvent]
  by_cases hi : i = block
  · subst hi
    rw [if_pos rfl, hplace, Option.map_some, Option.getD_some, opened_concat_self]
    rcases h with ⟨h, -, hevents⟩ | ⟨h, rfl, -, hevents⟩
    · rw [hevents, hlog i, h, Option.map_some, Option.getD_some]
    · have hnone : (blockKeys ps)[(blockKeys ps).length]? = none := List.getElem?_eq_none (Nat.le_refl _)
      rw [hevents, eventsOf_append, hlog, hnone, eventsOf_startEvent, if_pos rfl, opened, deltasOf_of_notMem h]
      rfl
  · rw [if_neg hi, List.append_nil]
    have hsame : eventsOf s'.events i = eventsOf s.events i := by
      rcases h with ⟨-, -, hevents⟩ | ⟨-, -, -, hevents⟩
      · rw [hevents]
      · rw [hevents, eventsOf_append, eventsOf_startEvent, if_neg hi, List.append_nil]
    rw [hsame, hlog i]
    -- the other blocks are those that were there
    cases hk : (blockKeys (ps ++ [p]))[i]? with
    | none =>
      have hnone : (blockKeys ps)[i]? = none := by
        by_contra hsome
        obtain ⟨k, hk'⟩ := Option.ne_none_iff_exists'.mp hsome
        rw [getElem?_blockKeys_concat.mpr (Or.inl hk')] at hk
        cases hk
      rw [hnone]
      rfl
    | some k =>
      have hne : p.key ≠ k := fun heq => hi (eq_of_getElem?_blockKeys hk (heq ▸ hplace))
      rw [getElem?_blockKeys_concat_of_ne hne.symm] at hk
      rw [hk, Option.map_some, Option.map_some, Option.getD_some, Option.getD_some, opened_concat_of_ne hne]

end

/-! ### The invariant of the loop -/

/-- The blocks and what the loop knows of them, after some pieces are read. -/
structure Inv (ps : List Piece) (s : Loop Usage) : Prop where
  content : List.Forall₂ (Holds ps) (blockKeys ps) s.output.content
  textBlock : ∀ r, s.textBlock = some r ↔ (blockKeys ps)[r]? = some .text
  thinkingBlock : ∀ r, s.thinkingBlock = some r ↔ (blockKeys ps)[r]? = some .thinking
  byIndex : ∀ i r, s.toolCallBlocksByIndex.get? i = some r ↔ (blockKeys ps)[r]? = some (.call (some i))
  byId : ∀ id r, s.toolCallBlocksById.get? id = some r → ∃ toolCall, Piece.call toolCall ∈ ps ∧
    given toolCall.id = some id ∧ (blockKeys ps)[r]? = some (.call toolCall.index)
  textRepetition : s.textRepetition = String.join (deltasOf ps .text)
  thinkingRepetition : s.thinkingRepetition = String.join (deltasOf ps .thinking)
  notLast : ∀ e ∈ s.events, e.isLast = false

/-- Every tool call has an index, and different indices have different ids. -/
structure WellKeyed (ps : List Piece) : Prop where
  index : ∀ toolCall, Piece.call toolCall ∈ ps → toolCall.index.isSome
  ids : ∀ toolCall toolCall', Piece.call toolCall ∈ ps → Piece.call toolCall' ∈ ps →
    ∀ id, given toolCall.id = some id → given toolCall'.id = some id → toolCall.index = toolCall'.index

theorem WellKeyed.mono {ps qs : List Piece} (h : WellKeyed qs) (hsub : ps ⊆ qs) : WellKeyed ps :=
  ⟨fun c hc => h.index c (hsub hc), fun c c' hc hc' => h.ids c c' (hsub hc) (hsub hc')⟩

theorem inv_new (usage : Usage) : Inv [] (Loop.new usage) := by
  refine ⟨.nil, ?_, ?_, ?_, ?_, rfl, rfl, ?_⟩ <;> simp [Loop.new, blockKeys_nil, Event.isLast]

theorem logged_new (usage : Usage) : Logged [] (Loop.new usage).events := by
  intro i
  simp [Loop.new, eventsOf, Event.contentIndex, blockKeys_nil]

theorem Inv.length {ps : List Piece} {s : Loop Usage} (h : Inv ps s) : s.output.content.length = (blockKeys ps).length :=
  h.content.length_eq.symm

/-- The pieces that are read lead to a state, or to an error where the guard throws. -/
def Reads (env : Env RawUsage Usage) (ps more : List Piece) : Except (Thrown × Loop Usage) (Loop Usage) → Prop
  | .ok s => Inv (ps ++ more) s ∧ Logged (ps ++ more) s.events ∧
      ∀ rest, received env ps (more ++ rest) = received env (ps ++ more) rest
  | .error (_, s) => ∃ read, Inv read s ∧ ∀ rest, received env ps (more ++ rest) = read

section

variable {env : Env RawUsage Usage} {ps more more' : List Piece} {s : Loop Usage}

theorem reads_nil (h : Inv ps s) (hlog : Logged ps s.events) : Reads env ps [] (.ok s) := by
  rw [Reads, List.append_nil]
  exact ⟨h, hlog, fun _ => rfl⟩

/-- **What is read after one another is read.** -/
theorem Reads.bind {r : Except (Thrown × Loop Usage) (Loop Usage)} (h : Reads env ps more r)
    {f : Loop Usage → Except (Thrown × Loop Usage) (Loop Usage)}
    (hf : ∀ s, Inv (ps ++ more) s → Logged (ps ++ more) s.events → Reads env (ps ++ more) more' (f s)) :
    Reads env ps (more ++ more') (r >>= f) := by
  match r, h with
  | .error (e, s), ⟨read, hinv, hread⟩ => exact ⟨read, hinv, fun rest => by rw [List.append_assoc]; exact hread _⟩
  | .ok s, ⟨hinv, hlog, hread⟩ =>
    change Reads env ps (more ++ more') (f s)
    have hs := hf s hinv hlog
    generalize f s = r at hs ⊢
    match r, hs with
    | .error (e, s'), ⟨read, hinv', hread'⟩ =>
      exact ⟨read, hinv', fun rest => by rw [List.append_assoc, hread, hread']⟩
    | .ok s', ⟨hinv', hlog', hread'⟩ =>
      refine ⟨by rwa [← List.append_assoc], by rwa [← List.append_assoc], fun rest => ?_⟩
      rw [List.append_assoc, hread, hread', List.append_assoc]

variable {p : Piece} {block : ℕ} {new : StreamingBlock} {s₁ s' : Loop Usage}

theorem Opens.place_iff (h : Opens ps s s₁ p.key block new) {r : ℕ} {k : Key} :
    (blockKeys (ps ++ [p]))[r]? = some k ↔ if p.key = k then r = block else (blockKeys ps)[r]? = some k := by
  split
  · rename_i hk
    subst hk
    exact ⟨fun hr => eq_of_getElem?_blockKeys hr h.place, fun hr => hr ▸ h.place⟩
  · rename_i hk
    exact getElem?_blockKeys_concat_of_ne (Ne.symm hk)

/-- A step that opens the block of a piece and lets it grow keeps the invariant. -/
theorem Inv.grow (h : Inv ps s) (hopen : Opens ps s s₁ p.key block new) {f : StreamingBlock → StreamingBlock}
    (hf : ∀ b, Holds ps p.key b → Holds (ps ++ [p]) p.key (f b))
    (hnew : p.key ∉ blockKeys ps → Holds (ps ++ [p]) p.key (f new))
    (hcontent : s'.output.content = s₁.output.content.modify block f)
    (htext : s'.textBlock = if p.key = .text then some block else s.textBlock)
    (hthinking : s'.thinkingBlock = if p.key = .thinking then some block else s.thinkingBlock)
    (hindex : ∀ i, s'.toolCallBlocksByIndex.get? i =
      if p.key = .call (some i) then some block else s.toolCallBlocksByIndex.get? i)
    (hid : ∀ id r, s'.toolCallBlocksById.get? id = some r → s.toolCallBlocksById.get? id = some r ∨
      ∃ toolCall, p = .call toolCall ∧ given toolCall.id = some id ∧ r = block)
    (htextRepetition : s'.textRepetition = if p.key = .text then s.textRepetition ++ p.delta else s.textRepetition)
    (hthinkingRepetition : s'.thinkingRepetition =
      if p.key = .thinking then s.thinkingRepetition ++ p.delta else s.thinkingRepetition)
    (hevents : s'.events = s₁.events) : Inv (ps ++ [p]) s' := by
  have hjoin : ∀ k, String.join (deltasOf (ps ++ [p]) k) =
      if p.key = k then String.join (deltasOf ps k) ++ p.delta else String.join (deltasOf ps k) := by
    intro k
    split
    · rename_i hk
      subst hk
      rw [deltasOf_concat_self, join_concat]
    · rename_i hk
      rw [deltasOf_concat_of_ne hk]
  refine ⟨?_, fun r => ?_, fun r => ?_, fun i r => ?_, fun id r hr => ?_, ?_, ?_, ?_⟩
  · rw [hcontent]
    exact hopen.content h.content hf hnew
  · rw [htext, hopen.place_iff, ← h.textBlock]
    split <;> simp [eq_comm]
  · rw [hthinking, hopen.place_iff, ← h.thinkingBlock]
    split <;> simp [eq_comm]
  · rw [hindex, hopen.place_iff, ← h.byIndex]
    split <;> simp [eq_comm]
  · rcases hid id r hr with hr | ⟨toolCall, rfl, hgiven, rfl⟩
    · obtain ⟨toolCall, hmem, hgiven, hplace⟩ := h.byId id r hr
      exact ⟨toolCall, List.mem_append_left _ hmem, hgiven, getElem?_blockKeys_concat.mpr (Or.inl hplace)⟩
    · exact ⟨toolCall, by simp, hgiven, hopen.place⟩
  · rw [htextRepetition, hjoin, h.textRepetition]
  · rw [hthinkingRepetition, hjoin, h.thinkingRepetition]
  · intro e he
    rw [hevents] at he
    rcases hopen with ⟨-, -, hsame⟩ | ⟨-, -, -, hstart⟩
    · exact h.notLast e (hsame ▸ he)
    · rw [hstart, List.mem_append, List.mem_singleton] at he
      rcases he with he | rfl
      · exact h.notLast e he
      · cases p.key <;> rfl

theorem Inv.push (h : Inv ps s) {event : Event Usage} (hevent : event.isLast = false) : Inv ps (s.push event) := by
  refine ⟨h.content, h.textBlock, h.thinkingBlock, h.byIndex, h.byId, h.textRepetition, h.thinkingRepetition, ?_⟩
  intro e he
  rcases List.mem_append.mp he with he | he
  · exact h.notLast e he
  · rw [List.mem_singleton.mp he]
    exact hevent

theorem received_cons (ps : List Piece) (p : Piece) (rest : List Piece) :
    received env ps (p :: rest) = if trips env (ps ++ [p]) then ps ++ [p] else received env (ps ++ [p]) rest := rfl

/-- A piece at which the guard is asked. -/
theorem reads_guarded {e : Thrown} {tripped : Bool} (hopen : Opens ps s s₁ p.key block new) (hlog : Logged ps s.events)
    (hinv : Inv (ps ++ [p]) s') (hevents : s'.events = s₁.events) (htrips : trips env (ps ++ [p]) = tripped) :
    Reads env ps [p] (if tripped then .error (e, s') else .ok (s'.push (p.key.deltaEvent block p.delta))) := by
  cases tripped with
  | true =>
    refine ⟨ps ++ [p], hinv, fun rest => ?_⟩
    rw [List.singleton_append, received_cons, if_pos htrips]
  | false =>
    refine ⟨hinv.push (by cases p.key <;> rfl), ?_, fun rest => ?_⟩
    · change Logged (ps ++ [p]) (s'.events ++ [p.key.deltaEvent block p.delta])
      rw [hevents]
      exact hopen.logged hlog
    · rw [List.singleton_append, received_cons, htrips]
      rfl

/-! ### Text and reasoning -/

theorem notMem_blockKeys {k : Key} (h : ∀ r : ℕ, ¬(blockKeys ps)[r]? = some k) : k ∉ blockKeys ps := by
  intro hk
  obtain ⟨r, hr⟩ := List.mem_iff_getElem?.mp hk
  exact h r hr

theorem opens_text (h : Inv ps s) : Opens ps s s.ensureTextBlock.2 .text s.ensureTextBlock.1 (.text "") := by
  unfold Loop.ensureTextBlock
  cases ht : s.textBlock with
  | some block => exact Or.inl ⟨(h.textBlock block).mp ht, rfl, rfl⟩
  | none =>
    have hk : Key.text ∉ blockKeys ps := notMem_blockKeys fun r hr => by
      rw [← h.textBlock, ht] at hr
      cases hr
    exact Or.inr ⟨hk, h.length, rfl, rfl⟩

theorem opens_thinking (h : Inv ps s) (signature : String) :
    Opens ps s (s.ensureThinkingBlock signature).2 .thinking (s.ensureThinkingBlock signature).1
      (.thinking "" signature) := by
  unfold Loop.ensureThinkingBlock
  cases ht : s.thinkingBlock with
  | some block => exact Or.inl ⟨(h.thinkingBlock block).mp ht, rfl, rfl⟩
  | none =>
    have hk : Key.thinking ∉ blockKeys ps := notMem_blockKeys fun r hr => by
      rw [← h.thinkingBlock, ht] at hr
      cases hr
    exact Or.inr ⟨hk, h.length, rfl, rfl⟩

/-- The block is the text block then, and nothing else has changed. -/
theorem ensureTextBlock_frame (s : Loop Usage) : s.ensureTextBlock.2.textBlock = some s.ensureTextBlock.1 ∧
    s.ensureTextBlock.2.thinkingBlock = s.thinkingBlock ∧
    s.ensureTextBlock.2.toolCallBlocksByIndex = s.toolCallBlocksByIndex ∧
    s.ensureTextBlock.2.toolCallBlocksById = s.toolCallBlocksById ∧
    s.ensureTextBlock.2.textRepetition = s.textRepetition ∧
    s.ensureTextBlock.2.thinkingRepetition = s.thinkingRepetition := by
  unfold Loop.ensureTextBlock
  cases ht : s.textBlock with
  | some block => exact ⟨ht, rfl, rfl, rfl, rfl, rfl⟩
  | none => exact ⟨rfl, rfl, rfl, rfl, rfl, rfl⟩

theorem ensureThinkingBlock_frame (s : Loop Usage) (signature : String) :
    (s.ensureThinkingBlock signature).2.thinkingBlock = some (s.ensureThinkingBlock signature).1 ∧
    (s.ensureThinkingBlock signature).2.textBlock = s.textBlock ∧
    (s.ensureThinkingBlock signature).2.toolCallBlocksByIndex = s.toolCallBlocksByIndex ∧
    (s.ensureThinkingBlock signature).2.toolCallBlocksById = s.toolCallBlocksById ∧
    (s.ensureThinkingBlock signature).2.textRepetition = s.textRepetition ∧
    (s.ensureThinkingBlock signature).2.thinkingRepetition = s.thinkingRepetition := by
  unfold Loop.ensureThinkingBlock
  cases ht : s.thinkingBlock with
  | some block => exact ⟨ht, rfl, rfl, rfl, rfl, rfl⟩
  | none => exact ⟨rfl, rfl, rfl, rfl, rfl, rfl⟩

/-- The blocks of text grow by the delta. -/
theorem Holds.text {delta : String} : ∀ b, Holds ps .text b → Holds (ps ++ [.text delta]) .text
    (match b with
      | .text text => .text (text ++ delta)
      | other => other)
  | .text _, ⟨_, ht⟩ => ⟨rfl, by rw [ht, ← join_concat]; exact congrArg _ (deltasOf_concat_self (p := .text delta)).symm⟩
  | .thinking .., h => nomatch h.1
  | .toolCall _, h => nomatch h.1

/-- The blocks of reasoning grow by the delta. -/
theorem Holds.thinking {field delta : String} : ∀ b, Holds ps .thinking b → Holds (ps ++ [.thinking field delta]) .thinking
    (match b with
      | .thinking thinking signature => .thinking (thinking ++ delta) signature
      | other => other)
  | .thinking .., ⟨_, ht⟩ =>
    ⟨rfl, by rw [ht, ← join_concat]; exact congrArg _ (deltasOf_concat_self (p := .thinking field delta)).symm⟩
  | .text _, h => nomatch h.1
  | .toolCall _, h => nomatch h.1

theorem reads_content (h : Inv ps s) (hlog : Logged ps s.events) (delta : String) :
    Reads env ps [.text delta] (onContent env s delta) := by
  have hopen := opens_text h
  obtain ⟨htext, hthinking, hindex, hid, htextRepetition, hthinkingRepetition⟩ := ensureTextBlock_frame s
  unfold onContent
  generalize s.ensureTextBlock = opened at hopen htext hthinking hindex hid htextRepetition hthinkingRepetition
  obtain ⟨block, s₁⟩ := opened
  dsimp only at *
  set grown : Loop Usage := { s₁.updateBlock block _ with textRepetition := s₁.textRepetition ++ delta }
  have hnew : Key.text ∉ blockKeys ps → Holds (ps ++ [Piece.text delta]) .text (.text ("" ++ delta)) := fun hk =>
    Holds.text (.text "") ⟨rfl, by rw [deltasOf_of_notMem hk]; rfl⟩
  have hinv : Inv (ps ++ [Piece.text delta]) grown := by
    refine h.grow (p := .text delta) hopen Holds.text hnew rfl (htext.trans (if_pos rfl).symm) hthinking (fun i => ?_)
      (fun id r hr => Or.inl (hid ▸ hr)) (by rw [← htextRepetition]; rfl) hthinkingRepetition rfl
    rw [← hindex, if_neg (by simp [Piece.key])]
    rfl
  have htrips : trips env (ps ++ [Piece.text delta]) = env.isRepetitiveStreamText grown.textRepetition := by
    rw [hinv.textRepetition]
    simp [trips]
  exact reads_guarded (p := .text delta) hopen hlog hinv rfl htrips

theorem reads_reasoning (h : Inv ps s) (hlog : Logged ps s.events) (field delta : String) :
    Reads env ps [.thinking field delta] (onReasoning env s field delta) := by
  have hopen := opens_thinking h (thinkingSignature env field)
  obtain ⟨hthinking, htext, hindex, hid, htextRepetition, hthinkingRepetition⟩ :=
    ensureThinkingBlock_frame s (thinkingSignature env field)
  unfold onReasoning
  generalize s.ensureThinkingBlock (thinkingSignature env field) = opened
    at hopen htext hthinking hindex hid htextRepetition hthinkingRepetition
  obtain ⟨block, s₁⟩ := opened
  dsimp only at *
  set grown : Loop Usage := { s₁.updateBlock block _ with thinkingRepetition := s₁.thinkingRepetition ++ delta }
  have hnew : Key.thinking ∉ blockKeys ps → Holds (ps ++ [Piece.thinking field delta]) .thinking
      (.thinking ("" ++ delta) (thinkingSignature env field)) := fun hk =>
    Holds.thinking (.thinking "" _) ⟨rfl, by rw [deltasOf_of_notMem hk]; rfl⟩
  have hinv : Inv (ps ++ [Piece.thinking field delta]) grown := by
    refine h.grow (p := .thinking field delta) hopen Holds.thinking hnew rfl htext (hthinking.trans (if_pos rfl).symm)
      (fun i => ?_) (fun id r hr => Or.inl (hid ▸ hr)) htextRepetition (by rw [← hthinkingRepetition]; rfl) rfl
    rw [← hindex, if_neg (by simp [Piece.key])]
    rfl
  have htrips : trips env (ps ++ [Piece.thinking field delta]) = env.isRepetitiveStreamText grown.thinkingRepetition := by
    rw [hinv.thinkingRepetition]
    simp [trips]
  exact reads_guarded (p := .thinking field delta) hopen hlog hinv rfl htrips

/-! ### Tool calls -/

theorem modify_congr {α : Type*} {l : List α} {i : ℕ} {f g : α → α} (h : ∀ a, l[i]? = some a → f a = g a) :
    l.modify i f = l.modify i g := by
  refine List.ext_getElem? fun j => ?_
  rw [List.getElem?_modify, List.getElem?_modify]
  by_cases hj : i = j
  · subst hj
    cases ha : l[i]? with
    | none => rfl
    | some a => simp [h a ha]
  · simp [hj]

/-- What `fillId` does to a block. -/
def withId (toolCall : ToolCallDelta) : StreamingBlock → StreamingBlock
  | .toolCall call => .toolCall { call with id := if call.id = "" then (given toolCall.id).getD "" else call.id }
  | other => other

/-- What `fillName` does to a block. -/
def withName (toolCall : ToolCallDelta) : StreamingBlock → StreamingBlock
  | .toolCall call => .toolCall { call with name := if call.name = "" then (given toolCall.name).getD "" else call.name }
  | other => other

/-- What `growArguments` does to a block. -/
def withArguments (env : Env RawUsage Usage) (toolCall : ToolCallDelta) : StreamingBlock → StreamingBlock
  | .toolCall call => .toolCall (match given toolCall.arguments with
    | some delta =>
      { call with
        partialArgs := some (call.partialArgs.getD "" ++ delta)
        arguments := env.parseStreamingJson (call.partialArgs.getD "" ++ delta) }
    | none => call)
  | other => other

/-- A step that changes a block, and may put it under the id of the delta. -/
structure Touches (toolCall : ToolCallDelta) (block : ℕ) (f : StreamingBlock → StreamingBlock) (s s' : Loop Usage) :
    Prop where
  content : s'.output.content = s.output.content.modify block f
  textBlock : s'.textBlock = s.textBlock
  thinkingBlock : s'.thinkingBlock = s.thinkingBlock
  byIndex : s'.toolCallBlocksByIndex = s.toolCallBlocksByIndex
  byId : ∀ id r, s'.toolCallBlocksById.get? id = some r →
    s.toolCallBlocksById.get? id = some r ∨ given toolCall.id = some id ∧ r = block
  textRepetition : s'.textRepetition = s.textRepetition
  thinkingRepetition : s'.thinkingRepetition = s.thinkingRepetition
  events : s'.events = s.events

variable {toolCall : ToolCallDelta} {s₂ : Loop Usage} {f g : StreamingBlock → StreamingBlock}

theorem touches_updateBlock (s : Loop Usage) : Touches toolCall block f s (s.updateBlock block f) :=
  ⟨rfl, rfl, rfl, rfl, fun _ _ => Or.inl, rfl, rfl, rfl⟩

theorem Touches.congr (h : Touches toolCall block f s s') (hfg : ∀ b, s.output.content[block]? = some b → f b = g b) :
    Touches toolCall block g s s' := { h with content := h.content.trans (modify_congr hfg) }

theorem touches_refl (s : Loop Usage) (hf : ∀ b, s.output.content[block]? = some b → f b = b) :
    Touches toolCall block f s s := by
  refine ⟨?_, rfl, rfl, rfl, fun _ _ => Or.inl, rfl, rfl, rfl⟩
  rw [modify_congr hf]
  exact (List.modify_id _ _).symm

theorem touches_setById {id : String} (hid : given toolCall.id = some id) (h : Touches toolCall block f s s') :
    Touches toolCall block f s (s'.setById id block) := by
  refine { h with byId := fun id' r hr => ?_ }
  change (s'.toolCallBlocksById.set id block).get? id' = some r at hr
  rw [OrdMap.get?_set] at hr
  by_cases heq : id' = id
  · rw [if_pos heq, Option.some.injEq] at hr
    exact Or.inr ⟨heq ▸ hid, hr.symm⟩
  · rw [if_neg heq] at hr
    exact h.byId id' r hr

theorem Touches.trans (h : Touches toolCall block f s s₁) (h' : Touches toolCall block g s₁ s₂) :
    Touches toolCall block (g ∘ f) s s₂ := by
  refine ⟨?_, h'.textBlock.trans h.textBlock, h'.thinkingBlock.trans h.thinkingBlock, h'.byIndex.trans h.byIndex, ?_,
    h'.textRepetition.trans h.textRepetition, h'.thinkingRepetition.trans h.thinkingRepetition,
    h'.events.trans h.events⟩
  · rw [h'.content, h.content, List.modify_modify_eq]
  · intro id r hr
    rcases h'.byId id r hr with hr | hr
    · exact h.byId id r hr
    · exact Or.inr hr

theorem callAt_eq {call : StreamingToolCall} :
    s.callAt block = some call ↔ s.output.content[block]? = some (.toolCall call) := by
  unfold Loop.callAt
  split
  · rename_i h
    rw [h]
    simp
  · rename_i h
    constructor
    · intro hcall
      cases hcall
    · exact fun hcall => absurd hcall (h call)

theorem touches_fillId (s : Loop Usage) : Touches toolCall block (withId toolCall) s (fillId s block toolCall) := by
  unfold fillId
  cases hid : given toolCall.id with
  | none =>
    refine touches_refl s fun b _ => ?_
    cases b with
    | toolCall call =>
      have hsame : (if call.id = "" then (given toolCall.id).getD "" else call.id) = call.id := by
        rw [hid]
        split
        · rename_i h
          exact h.symm
        · rfl
      rw [withId, hsame]
    | _ => rfl
  | some id =>
    dsimp only
    split
    · rename_i hempty
      refine touches_setById hid ((touches_updateBlock s).congr fun b hb => ?_)
      cases b with
      | toolCall call =>
        rw [callAt_eq.mpr hb, Option.any_some, decide_eq_true_eq] at hempty
        simp [withId, hempty, hid]
      | _ => rfl
    · rename_i hset
      refine touches_refl s fun b hb => ?_
      cases b with
      | toolCall call =>
        rw [callAt_eq.mpr hb, Option.any_some, decide_eq_true_eq] at hset
        simp [withId, hset]
      | _ => rfl

theorem touches_fillName (s : Loop Usage) : Touches toolCall block (withName toolCall) s (fillName s block toolCall) := by
  unfold fillName
  cases hname : given toolCall.name with
  | none =>
    refine touches_refl s fun b _ => ?_
    cases b with
    | toolCall call =>
      have hsame : (if call.name = "" then (given toolCall.name).getD "" else call.name) = call.name := by
        rw [hname]
        split
        · rename_i h
          exact h.symm
        · rfl
      rw [withName, hsame]
    | _ => rfl
  | some name =>
    refine (touches_updateBlock s).congr fun b _ => ?_
    cases b with
    | toolCall call => by_cases h : call.name = "" <;> simp [withName, hname, h]
    | _ => rfl

theorem touches_growArguments (s : Loop Usage) :
    Touches toolCall block (withArguments env toolCall) s (growArguments env s block toolCall) := by
  unfold growArguments
  cases harguments : given toolCall.arguments with
  | none =>
    refine touches_refl s fun b _ => ?_
    cases b with
    | toolCall call => simp [withArguments, harguments]
    | _ => rfl
  | some delta =>
    refine (touches_updateBlock s).congr fun b _ => ?_
    cases b with
    | toolCall call => simp [withArguments, harguments]
    | _ => rfl

/-- The block of a key in the message. -/
theorem Inv.blockAt (h : Inv ps s) {k : Key} {r : ℕ} (hk : (blockKeys ps)[r]? = some k) :
    ∃ b, s.output.content[r]? = some b ∧ Holds ps k b := by
  obtain ⟨hr, hk⟩ := List.getElem?_eq_some_iff.mp hk
  have hr' : r < s.output.content.length := h.length ▸ hr
  have hget := h.content.get hr hr'
  rw [List.get_eq_getElem, List.get_eq_getElem, hk] at hget
  exact ⟨s.output.content[r], List.getElem?_eq_getElem hr', hget⟩

theorem adoptIndex_eq {call : StreamingToolCall} (hcall : s.output.content[block]? = some (.toolCall call))
    (hindex : call.streamIndex.isSome) : s.adoptIndex toolCall block = s := by
  unfold Loop.adoptIndex
  cases toolCall.index with
  | none => rfl
  | some i =>
    have hsome : ((s.callAt block).bind StreamingToolCall.streamIndex).isNone = false := by
      rw [callAt_eq.mpr hcall, Option.bind_some, Option.isNone_eq_false_iff]
      exact hindex
    simp [hsome]

/-- The maps have the new block under the index and the id of the delta. -/
theorem registerBlock_eq {i : ℤ} (hi : toolCall.index = some i) (s : Loop Usage) (block : ℕ) :
    s.registerBlock toolCall block = { s with
      toolCallBlocksByIndex := s.toolCallBlocksByIndex.set i block
      toolCallBlocksById := match given toolCall.id with
        | some id => s.toolCallBlocksById.set id block
        | none => s.toolCallBlocksById } := by
  rw [Loop.registerBlock, hi]
  cases given toolCall.id <;> rfl

/-- The block of a delta is the one of its index: another index has another id. -/
theorem ensureToolCallBlock_spec (h : Inv ps s) (hkeyed : WellKeyed (ps ++ [Piece.call toolCall])) :
    ∃ block s₁ s₂, s.ensureToolCallBlock toolCall = (block, s₂) ∧
      Opens ps s s₁ (.call toolCall.index) block (.toolCall (Loop.newToolCall toolCall)) ∧ Touches toolCall block id s₁ s₂ ∧
      s₁.textBlock = s.textBlock ∧ s₁.thinkingBlock = s.thinkingBlock ∧
      (∀ i, s₁.toolCallBlocksByIndex.get? i =
        if Key.call toolCall.index = .call (some i) then some block else s.toolCallBlocksByIndex.get? i) ∧
      (∀ id r, s₁.toolCallBlocksById.get? id = some r →
        s.toolCallBlocksById.get? id = some r ∨ given toolCall.id = some id ∧ r = block) ∧
      s₁.textRepetition = s.textRepetition ∧ s₁.thinkingRepetition = s.thinkingRepetition := by
  obtain ⟨i, hi⟩ := Option.isSome_iff_exists.mp (hkeyed.index toolCall (by simp))
  have htouch : ∀ (s₁ : Loop Usage) (block : ℕ), Touches toolCall block id s₁ (match given toolCall.id with
      | some id => s₁.setById id block
      | none => s₁) := by
    intro s₁ block
    cases hid : given toolCall.id with
    | none => exact touches_refl s₁ fun _ _ => rfl
    | some id => exact touches_setById hid (touches_refl s₁ fun _ _ => rfl)
  unfold Loop.ensureToolCallBlock Loop.findToolCallBlock
  rw [hi, Option.bind_some]
  cases hfound : s.toolCallBlocksByIndex.get? i with
  | some block =>
    have hplace := (h.byIndex i block).mp hfound
    obtain ⟨b, hb, hholds⟩ := h.blockAt hplace
    obtain ⟨call, rfl, hstream⟩ : ∃ call, b = .toolCall call ∧ call.streamIndex = some i := by
      cases b with
      | toolCall call => exact ⟨call, rfl, (Key.call.inj hholds.1).symm⟩
      | _ => cases hholds.1
    refine ⟨block, s, _, rfl, Or.inl ⟨hplace, rfl, rfl⟩, ?_, rfl, rfl, fun j => ?_, fun _ _ => Or.inl, rfl, rfl⟩
    · change Touches toolCall block id s (match given toolCall.id with
        | some id => (s.adoptIndex toolCall block).setById id block
        | none => s.adoptIndex toolCall block)
      rw [adoptIndex_eq hb (by rw [hstream]; rfl)]
      exact htouch s block
    · split
      · rename_i heq
        obtain rfl : i = j := by simpa using heq
        exact hfound
      · rfl
  | none =>
    have hnone : (given toolCall.id).bind s.toolCallBlocksById.get? = none := by
      cases hid : given toolCall.id with
      | none => rfl
      | some id =>
        rw [Option.bind_some]
        by_contra hsome
        obtain ⟨r, hr⟩ := Option.ne_none_iff_exists'.mp hsome
        obtain ⟨other, hother, hotherid, hplace⟩ := h.byId id r hr
        rw [hkeyed.ids other toolCall (List.mem_append_left _ hother) (by simp) id hotherid hid, hi, ← h.byIndex, hfound] at hplace
        cases hplace
    have hk : Key.call (some i) ∉ blockKeys ps := notMem_blockKeys fun r hr => by
      rw [← h.byIndex, hfound] at hr
      cases hr
    have hnew : (s.output.content ++ [StreamingBlock.toolCall (Loop.newToolCall toolCall)])[s.output.content.length]? =
        some (.toolCall (Loop.newToolCall toolCall)) := by simp
    rw [Option.none_or, hnone]
    let block := s.output.content.length
    let s₁ : Loop Usage :=
      ((s.registerBlock toolCall block).pushBlock (.toolCall (Loop.newToolCall toolCall))).push (.toolcallStart block)
    have hs₁ : s₁ = { s with
        output := { s.output with content := s.output.content ++ [.toolCall (Loop.newToolCall toolCall)] }
        toolCallBlocksByIndex := s.toolCallBlocksByIndex.set i block
        toolCallBlocksById := match given toolCall.id with
          | some id => s.toolCallBlocksById.set id block
          | none => s.toolCallBlocksById
        events := s.events ++ [.toolcallStart block] } := by
      simp only [s₁, registerBlock_eq hi]
      rfl
    refine ⟨block, s₁, _, rfl, Or.inr ⟨hk, h.length, ?_, ?_⟩, ?_, ?_, ?_, fun j => ?_, fun id r hr => ?_, ?_, ?_⟩
    · rw [hs₁]
    · rw [hs₁]
      rfl
    · change Touches toolCall block _ s₁ (match given toolCall.id with
        | some id => (s₁.adoptIndex toolCall block).setById id block
        | none => s₁.adoptIndex toolCall block)
      have hat : s₁.output.content[block]? = some (.toolCall (Loop.newToolCall toolCall)) := by rw [hs₁]; exact hnew
      rw [adoptIndex_eq hat (by rw [Loop.newToolCall, hi]; rfl)]
      exact htouch s₁ block
    · rw [hs₁]
    · rw [hs₁]
    · rw [hs₁]
      dsimp only
      rw [OrdMap.get?_set]
      by_cases hj : j = i
      · simp [hj]
      · simp [hj, Ne.symm hj]
    · rw [hs₁] at hr
      cases hid : given toolCall.id with
      | none =>
        rw [hid] at hr
        exact Or.inl hr
      | some id' =>
        rw [hid] at hr
        dsimp only at hr
        rw [OrdMap.get?_set] at hr
        by_cases heq : id = id'
        · rw [if_pos heq, Option.some.injEq] at hr
          exact Or.inr ⟨by rw [heq], hr.symm⟩
        · rw [if_neg heq] at hr
          exact Or.inl hr
    · rw [hs₁]
    · rw [hs₁]

theorem given_getD (text : Option String) : (given text).getD "" = text.getD "" := by
  cases text with
  | none => rfl
  | some text => by_cases h : text = "" <;> simp [given, Option.filter, h]

/-- The block of a tool call grows by the delta. -/
theorem holds_call {call : StreamingToolCall} (hindex : toolCall.index = call.streamIndex)
    (hid : (if call.id = "" then (given toolCall.id).getD "" else call.id) =
      firstGiven ToolCallDelta.id (ps ++ [Piece.call toolCall]) (.call toolCall.index))
    (hname : (if call.name = "" then (given toolCall.name).getD "" else call.name) =
      firstGiven ToolCallDelta.name (ps ++ [Piece.call toolCall]) (.call toolCall.index))
    (hargs : call.partialArgs = some (String.join (deltasOf ps (.call toolCall.index)))) :
    Holds (ps ++ [Piece.call toolCall]) (.call toolCall.index)
      (withArguments env toolCall (withName toolCall (withId toolCall (.toolCall call)))) := by
  have hdeltas : deltasOf (ps ++ [Piece.call toolCall]) (.call toolCall.index) =
      deltasOf ps (.call toolCall.index) ++ [(given toolCall.arguments).getD ""] :=
    deltasOf_concat_self (p := .call toolCall)
  rw [withId, withName, withArguments, hid, hname]
  cases hgiven : given toolCall.arguments with
  | none =>
    refine ⟨congrArg Key.call hindex, rfl, rfl, ?_⟩
    rw [hdeltas, hgiven, join_concat]
    simpa using hargs
  | some delta =>
    refine ⟨congrArg Key.call hindex, rfl, rfl, ?_⟩
    rw [hdeltas, hgiven, join_concat, hargs]
    rfl

theorem reads_toolCall (h : Inv ps s) (hlog : Logged ps s.events) (hkeyed : WellKeyed (ps ++ [Piece.call toolCall])) :
    Reads env ps [.call toolCall] (.ok (onToolCall env s toolCall)) := by
  obtain ⟨block, s₁, s₂, hensure, hopen, htouch, htext, hthinking, hindex, hid, htextRepetition, hthinkingRepetition⟩ :=
    ensureToolCallBlock_spec h hkeyed
  have hgrow : Touches toolCall block (withArguments env toolCall) (fillName (fillId s₂ block toolCall) block toolCall)
      (growArguments env (fillName (fillId s₂ block toolCall) block toolCall) block toolCall) := touches_growArguments _
  have hgrown := ((htouch.trans (touches_fillId s₂)).trans (touches_fillName _)).trans hgrow
  have hinv : Inv (ps ++ [Piece.call toolCall])
      (growArguments env (fillName (fillId s₂ block toolCall) block toolCall) block toolCall) := by
    refine h.grow (p := .call toolCall) hopen ?_ ?_ hgrown.content (hgrown.textBlock.trans htext)
      (hgrown.thinkingBlock.trans hthinking) (fun i => ?_) (fun id r hr => ?_)
      (hgrown.textRepetition.trans htextRepetition) (hgrown.thinkingRepetition.trans hthinkingRepetition) hgrown.events
    · intro b (hb : Holds ps (.call toolCall.index) b)
      cases b with
      | toolCall call =>
        obtain ⟨hstream, hcallid, hcallname, hcallargs⟩ := hb
        refine holds_call (Key.call.inj hstream) ?_ ?_ hcallargs
        · rw [hcallid, firstGiven_concat]
        · rw [hcallname, firstGiven_concat]
      | _ => cases hb.1
    · intro (hk : Key.call toolCall.index ∉ blockKeys ps)
      refine holds_call rfl ?_ ?_ ?_
      · rw [firstGiven_concat, firstGiven_of_notMem hk, if_pos rfl, given_getD, Loop.newToolCall]
        split <;> simp_all
      · rw [firstGiven_concat, firstGiven_of_notMem hk, if_pos rfl, given_getD, Loop.newToolCall]
        split <;> simp_all
      · have hnone : deltasOf ps (.call toolCall.index) = [] := deltasOf_of_notMem hk
        rw [hnone]
        rfl
    · rw [hgrown.byIndex, hindex]
      rfl
    · rcases hgrown.byId id r hr with hr | hr
      · exact (hid id r hr).imp_right fun h => ⟨toolCall, rfl, h⟩
      · exact Or.inr ⟨toolCall, rfl, hr⟩
  unfold onToolCall
  rw [hensure]
  have htrips : trips env (ps ++ [Piece.call toolCall]) = false := by simp [trips]
  exact reads_guarded (p := .call toolCall) (e := ⟨"", none⟩) hopen hlog hinv hgrown.events htrips

theorem reads_toolCalls : ∀ (calls : List ToolCallDelta) {ps : List Piece} {s : Loop Usage}, Inv ps s → Logged ps s.events →
    WellKeyed (ps ++ calls.map Piece.call) → Reads env ps (calls.map Piece.call) (.ok (calls.foldl (onToolCall env) s))
  | [], _, _, h, hlog, _ => reads_nil h hlog
  | call :: calls, ps, s, h, hlog, hkeyed => by
    have hfirst : Reads env ps [.call call] (.ok (onToolCall env s call)) :=
      reads_toolCall h hlog (hkeyed.mono (by simp))
    have hrest : Reads env ps ([Piece.call call] ++ calls.map Piece.call)
        (Except.ok (onToolCall env s call) >>= fun s => .ok (calls.foldl (onToolCall env) s)) :=
      hfirst.bind fun s h hlog => reads_toolCalls calls h hlog (hkeyed.mono (by simp))
    exact hrest

/-! ### Chunks -/

/-- The invariant is about the blocks, not about what else the message holds. -/
theorem Inv.output (h : Inv ps s) {output : Output Usage} (hcontent : List.Forall₂ (Holds ps) (blockKeys ps) output.content) :
    Inv ps { s with output := output } :=
  ⟨hcontent, h.textBlock, h.thinkingBlock, h.byIndex, h.byId, h.textRepetition, h.thinkingRepetition, h.notLast⟩

theorem Holds.signed {k : Key} {signature : Option String} : ∀ b, Holds ps k b → Holds ps k
    (match b with
      | .toolCall call => .toolCall { call with thoughtSignature := signature }
      | other => other)
  | .text _, h => h
  | .thinking .., h => h
  | .toolCall _, h => h

theorem inv_reasoningDetail (h : Inv ps s) (hlog : Logged ps s.events) (detail : ReasoningDetail) :
    Inv ps (onReasoningDetail env s detail) ∧ Logged ps (onReasoningDetail env s detail).events := by
  unfold onReasoningDetail
  split
  · exact ⟨h, hlog⟩
  · split
    · exact ⟨h.output (forall₂_modify_self h.content fun _ => Holds.signed), hlog⟩
    · exact ⟨h, hlog⟩

theorem reads_details (h : Inv ps s) (hlog : Logged ps s.events) (details : List ReasoningDetail) :
    Reads env ps [] (.ok (details.foldl (onReasoningDetail env) s)) := by
  induction details generalizing s with
  | nil => exact reads_nil h hlog
  | cons detail details ih =>
    have hdetail : Inv ps (onReasoningDetail env s detail) ∧ Logged ps (onReasoningDetail env s detail).events :=
      inv_reasoningDetail h hlog detail
    exact ih hdetail.1 hdetail.2

theorem reads_delta (h : Inv ps s) (hlog : Logged ps s.events) {delta : Delta} (hkeyed : WellKeyed (ps ++ delta.pieces)) :
    Reads env ps delta.pieces (onDelta env s delta) := by
  have hcontent : Reads env ps ((given delta.content).map Piece.text).toList (readContent env s delta) := by
    unfold readContent
    cases given delta.content with
    | none => exact reads_nil h hlog
    | some content => exact reads_content h hlog content
  have hreasoning : ∀ {ps s}, Inv ps s → Logged ps s.events →
      Reads env ps ((foundReasoning delta).map fun found => Piece.thinking found.1 found.2).toList (readReasoning env s delta) := by
    intro ps s h hlog
    unfold readReasoning
    cases foundReasoning delta with
    | none => exact reads_nil h hlog
    | some found => exact reads_reasoning h hlog found.1 found.2
  have hcalls : ∀ {ps s}, Inv ps s → Logged ps s.events → WellKeyed (ps ++ delta.toolCalls.map Piece.call) →
      Reads env ps (delta.toolCalls.map Piece.call)
        (.ok (delta.reasoningDetails.foldl (onReasoningDetail env) (delta.toolCalls.foldl (onToolCall env) s))) := by
    intro ps s h hlog hkeyed
    have hread : Reads env ps (delta.toolCalls.map Piece.call ++ [])
        (Except.ok (delta.toolCalls.foldl (onToolCall env) s) >>= fun s =>
          .ok (delta.reasoningDetails.foldl (onReasoningDetail env) s)) :=
      (reads_toolCalls delta.toolCalls h hlog hkeyed).bind fun s h hlog => reads_details h hlog delta.reasoningDetails
    rwa [List.append_nil] at hread
  unfold onDelta
  rw [Delta.pieces, List.append_assoc] at hkeyed ⊢
  refine hcontent.bind fun s h hlog => (hreasoning h hlog).bind fun s h hlog => hcalls h hlog ?_
  rwa [List.append_assoc, List.append_assoc]

theorem reads_chunk (h : Inv ps s) (hlog : Logged ps s.events) {chunk : Chunk RawUsage} (hkeyed : WellKeyed (ps ++ chunk.pieces)) :
    Reads env ps chunk.pieces (onChunk env s chunk) := by
  have hfinish : ∀ (choice : Choice RawUsage) {s : Loop Usage}, Inv ps s → Logged ps s.events →
      Inv ps (readFinishReason s choice) ∧ Logged ps (readFinishReason s choice).events := by
    intro choice s h hlog
    unfold readFinishReason
    split
    · exact ⟨h, hlog⟩
    · exact ⟨⟨h.content, h.textBlock, h.thinkingBlock, h.byIndex, h.byId, h.textRepetition, h.thinkingRepetition,
        h.notLast⟩, hlog⟩
  have hchunk : Inv ps { s with output := readChunk env s.output chunk } := h.output h.content
  unfold onChunk Chunk.pieces at *
  cases hchoice : chunk.choice with
  | none => exact reads_nil hchunk hlog
  | some choice =>
    rw [hchoice, Option.bind_some] at hkeyed
    dsimp only
    have husage : Inv ps { s with output := readChoiceUsage env (readChunk env s.output chunk) chunk choice } := by
      refine h.output ?_
      unfold readChoiceUsage
      split <;> exact h.content
    obtain ⟨hinv, hlog⟩ := hfinish choice husage hlog
    rw [Option.bind_some]
    cases hdelta : choice.delta with
    | none => exact reads_nil hinv hlog
    | some delta =>
      rw [hdelta] at hkeyed
      exact reads_delta hinv hlog hkeyed

theorem reads_chunks : ∀ (chunks : List (Chunk RawUsage)) {ps : List Piece} {s : Loop Usage}, Inv ps s → Logged ps s.events →
    WellKeyed (ps ++ chunks.flatMap Chunk.pieces) → Reads env ps (chunks.flatMap Chunk.pieces) (chunks.foldlM (onChunk env) s)
  | [], _, _, h, hlog, _ => reads_nil h hlog
  | chunk :: chunks, ps, s, h, hlog, hkeyed => by
    rw [List.flatMap_cons] at hkeyed ⊢
    rw [List.foldlM_cons]
    have hfirst : Reads env ps chunk.pieces (onChunk env s chunk) := reads_chunk h hlog (hkeyed.mono (by simp))
    exact hfirst.bind fun s h hlog => reads_chunks chunks h hlog (by rwa [List.append_assoc])

/-! ### The final message -/

/-- A block as the pieces make it, once the stream has ended. -/
def Assembled (ps : List Piece) (k : Key) : StreamingBlock → Prop
  | .text text => k = .text ∧ text = String.join (deltasOf ps k)
  | .thinking thinking _ => k = .thinking ∧ thinking = String.join (deltasOf ps k)
  | .toolCall call => (∃ index, k = .call index) ∧ call.id = firstGiven ToolCallDelta.id ps k ∧
      call.name = firstGiven ToolCallDelta.name ps k ∧ call.partialArgs = none ∧ call.streamIndex = none

theorem Holds.stripped {k : Key} : ∀ {b : StreamingBlock}, Holds ps k b → Assembled ps k (stripped b)
  | .text _, h => h
  | .thinking .., h => h
  | .toolCall _, ⟨hk, hid, hname, _⟩ => ⟨⟨_, hk⟩, hid, hname, rfl, rfl⟩

theorem Holds.finished {k : Key} : ∀ {b : StreamingBlock}, Holds ps k b → Assembled ps k (finished env b)
  | .text _, h => h
  | .thinking .., h => h
  | .toolCall _, ⟨hk, hid, hname, _⟩ => ⟨⟨_, hk⟩, hid, hname, rfl, rfl⟩

theorem Assembled.stripped {k : Key} : ∀ {b : StreamingBlock}, Assembled ps k b → Assembled ps k (stripped b)
  | .text _, h => h
  | .thinking .., h => h
  | .toolCall _, ⟨hk, hid, hname, _⟩ => ⟨hk, hid, hname, rfl, rfl⟩

theorem Holds.arguments {k : Key} {b : StreamingBlock} {call : StreamingToolCall} (h : Holds ps k b)
    (hb : Completions.finished env b = .toolCall call) : call.arguments = env.parseStreamingJson (String.join (deltasOf ps k)) := by
  cases b with
  | toolCall grown =>
    obtain ⟨-, -, -, hargs⟩ := h
    obtain rfl := StreamingBlock.toolCall.inj hb
    exact congrArg env.parseStreamingJson (congrArg (Option.getD · "") hargs)
  | _ => cases hb

/-- The blocks from a place on are finished one after the other. -/
theorem finishBlocks_from (rest : List StreamingBlock) : ∀ (before : List StreamingBlock) (s : Loop Usage),
    s.output.content = before ++ rest →
    (List.range' before.length rest.length).foldl (finishBlock env) s = { s with
      output := { s.output with content := before ++ rest.map (finished env) }
      events := s.events ++ (rest.map (finished env)).mapIdx fun i => endEvent (before.length + i) } := by
  induction rest with
  | nil =>
    intro before s hs
    rw [List.append_nil] at hs
    simp [← hs]
  | cons b rest ih =>
    intro before s hs
    have hstep : finishBlock env s before.length = { s with
        output := { s.output with content := (before ++ [finished env b]) ++ rest }
        events := s.events ++ [endEvent before.length (finished env b)] } := by
      unfold finishBlock
      rw [show s.output.content[before.length]? = some b by simp [hs]]
      simp [Loop.updateBlock, Loop.push, hs, List.modify_eq_take_cons_drop]
    rw [List.length_cons, List.range'_succ, List.foldl_cons, hstep]
    rw [show before.length + 1 = (before ++ [finished env b]).length by simp, ih (before ++ [finished env b]) _ rfl]
    simp [List.mapIdx_cons, Nat.add_assoc, Nat.add_comm 1]

/-- **Every block is finished, with one end event.** -/
theorem finishBlocks_eq (s : Loop Usage) : finishBlocks env s = { s with
    output := { s.output with content := s.output.content.map (finished env) }
    events := s.events ++ (s.output.content.map (finished env)).mapIdx endEvent } := by
  rw [finishBlocks, List.range_eq_range']
  refine (finishBlocks_from s.output.content [] s rfl).trans ?_
  simp

theorem eventsOf_endEvents (content : List StreamingBlock) (i : ℕ) :
    eventsOf (content.mapIdx endEvent : List (Event Usage)) i = (content[i]?.map fun b => [endEvent i b]).getD [] := by
  induction content using List.reverseRecOn with
  | nil => rfl
  | append_singleton content b ih =>
    have hlast : eventsOf [(endEvent content.length b : Event Usage)] i =
        if i = content.length then [endEvent content.length b] else [] := by
      cases b <;> simp [eventsOf, endEvent, Event.contentIndex, List.filter_singleton, eq_comm]
    rw [List.mapIdx_concat, eventsOf_append, ih, hlast]
    rcases Nat.lt_trichotomy i content.length with hi | rfl | hi
    · simp [List.getElem?_append_left hi, Nat.ne_of_lt hi]
    · simp
    · have h₁ : content[i]? = none := List.getElem?_eq_none (Nat.le_of_lt hi)
      have h₂ : (content ++ [b])[i]? = none := List.getElem?_eq_none (by
        rw [List.length_append, List.length_singleton]
        omega)
      simp [h₁, h₂, Nat.ne_of_gt hi]

/-- What a stream of pieces is put together to, of which `ps` are read. -/
structure Assembly (env : Env RawUsage Usage) (all ps : List Piece) (final : Loop Usage) : Prop where
  /-- One block for each key, in order of first appearance. -/
  content : List.Forall₂ (Assembled ps) (blockKeys ps) final.output.content
  /-- One event that is the last one, with the message. -/
  last : ∃ events last, final.events = events ++ [last] ∧ (∀ e ∈ events, Event.isLast e = false) ∧
    (last = Event.done final.output.stopReason final.output ∨ last = Event.error final.output.stopReason final.output)
  /-- The events of a message that is done. -/
  done : ∀ reason message, .done reason message ∈ final.events → ps = all ∧
    (∀ i k b, (blockKeys ps)[i]? = some k → final.output.content[i]? = some b →
      eventsOf final.events i = opened ps i k ++ [endEvent i b] ∧
      ∀ call, b = .toolCall call → call.arguments = env.parseStreamingJson (String.join (deltasOf ps k))) ∧
    ∀ i, (blockKeys ps)[i]? = none → eventsOf final.events i = []

theorem assembly_fail {all : List Piece} {aborted : Bool} {e : Thrown}
    (hcontent : List.Forall₂ (Assembled ps) (blockKeys ps) (s.output.content.map stripped))
    (hlast : ∀ e ∈ s.events, e.isLast = false) : Assembly env all ps (fail s aborted e) := by
  refine ⟨hcontent, ⟨s.events, _, rfl, hlast, Or.inr rfl⟩, fun reason message hdone => ?_⟩
  rcases List.mem_append.mp hdone with hdone | hdone
  · cases hlast _ hdone
  · cases List.mem_singleton.mp hdone

theorem isLast_endEvents {content : List StreamingBlock} :
    ∀ e ∈ (content.mapIdx endEvent : List (Event Usage)), e.isLast = false := by
  intro e he
  obtain ⟨i, hi, rfl⟩ := List.mem_mapIdx.mp he
  cases content[i] <;> rfl

theorem assembly_done {reason : StopReason} (h : Inv ps s) (hlog : Logged ps s.events) : Assembly env ps ps
    ({ finishBlocks env s with output := { (finishBlocks env s).output with stopReason := reason } }.push
      (.done reason { (finishBlocks env s).output with stopReason := reason })) := by
  rw [finishBlocks_eq]
  have hevents : ∀ (i : ℕ) (message : Output Usage), eventsOf ((s.events ++
      (s.output.content.map (finished env)).mapIdx endEvent) ++ [Event.done reason message]) i =
      ((blockKeys ps)[i]?.map (opened ps i)).getD [] ++
        ((s.output.content.map (finished env))[i]?.map fun b => [endEvent i b]).getD [] := by
    intro i message
    have hdone : eventsOf [Event.done reason message] i = [] := by simp [eventsOf, Event.contentIndex]
    rw [eventsOf_append, eventsOf_append, hdone, List.append_nil, hlog i, eventsOf_endEvents]
  refine ⟨?_, ⟨_, _, rfl, ?_, Or.inl rfl⟩, fun _ _ _ => ⟨rfl, fun i k b hk hb => ⟨?_, ?_⟩, fun i hk => ?_⟩⟩
  · exact List.forall₂_map_right_iff.mpr (h.content.imp fun _ _ => Holds.finished)
  · intro e he
    rcases List.mem_append.mp he with he | he
    · exact h.notLast e he
    · exact isLast_endEvents e he
  · have hat : (s.output.content.map (finished env))[i]? = some b := hb
    refine (hevents i _).trans ?_
    rw [hk, hat]
    rfl
  · rintro call rfl
    obtain ⟨b, hb', hholds⟩ := h.blockAt hk
    have hat : (s.output.content.map (finished env))[i]? = some (.toolCall call) := hb
    rw [List.getElem?_map, hb', Option.map_some, Option.some.injEq] at hat
    exact hholds.arguments hat
  · have hnone : (s.output.content.map (finished env))[i]? = none := by
      rw [List.getElem?_eq_none_iff] at hk ⊢
      rwa [List.length_map, h.length]
    refine (hevents i _).trans ?_
    rw [hk, hnone]
    rfl

end

/-- **Whatever way a stream ends, its message is put together of the pieces that were read.** -/
theorem stream_assembled (env : Env RawUsage Usage) (usage : Usage) (chunks : List (Chunk RawUsage))
    (hkeyed : WellKeyed (chunks.flatMap Chunk.pieces)) (thrown : Option Thrown) (aborted : Bool) :
    Assembly env (chunks.flatMap Chunk.pieces) (received env [] (chunks.flatMap Chunk.pieces))
      (streamOpenAICompletions env usage chunks thrown aborted) := by
  have hread : Reads env [] (chunks.flatMap Chunk.pieces) (chunks.foldlM (onChunk env) (Loop.new usage)) :=
    reads_chunks chunks (inv_new usage) (logged_new usage) hkeyed
  unfold streamOpenAICompletions
  have hstripped : ∀ {ps : List Piece} {s : Loop Usage}, Inv ps s →
      List.Forall₂ (Assembled ps) (blockKeys ps) (s.output.content.map stripped) := fun h =>
    List.forall₂_map_right_iff.mpr (h.content.imp fun _ _ => Holds.stripped)
  split
  · rename_i e s hfold
    rw [hfold] at hread
    obtain ⟨read, hinv, hreceived⟩ := hread
    have hps := hreceived []
    rw [List.append_nil] at hps
    rw [hps]
    exact assembly_fail (hstripped hinv) hinv.notLast
  · rename_i s hfold
    rw [hfold] at hread
    obtain ⟨hinv, hlog, hreceived⟩ := hread
    have hps := hreceived []
    rw [List.append_nil, List.nil_append] at hps
    rw [List.nil_append] at hinv hlog
    rw [hps, received]
    cases thrown with
    | some e => exact assembly_fail (hstripped hinv) hinv.notLast
    | none =>
      dsimp only
      split
      · rw [finishBlocks_eq]
        refine assembly_fail ?_ ?_
        · rw [List.forall₂_map_right_iff, List.forall₂_map_right_iff]
          exact hinv.content.imp fun _ _ h => h.finished.stripped
        · intro e he
          rcases List.mem_append.mp he with he | he
          · exact hinv.notLast e he
          · exact isLast_endEvents e he
      · exact assembly_done hinv hlog

/-- A text that is interleaved with a tool call in two deltas. -/
def interleaved : List (Chunk Unit) :=
  let chunk (content : Option String) (calls : List ToolCallDelta) (reason : Option String) : Chunk Unit :=
    ⟨none, none, none, none, some ⟨none, reason, some ⟨content, none, none, none, calls, []⟩⟩⟩
  [chunk (some "On ") [⟨some 0, some "call-1", some "ls", some "\x7b"⟩] none,
    chunk (some "it.") [⟨some 0, none, none, some "\x7d"⟩] (some "tool_calls")]

theorem stream_assembled_interleaved :
    let env : Env Unit Unit := ⟨"openai", "gpt", none, id, fun _ => .obj [], fun _ => false, fun _ => ""⟩
    let final := streamOpenAICompletions env () interleaved none false
    Assembly env (interleaved.flatMap Chunk.pieces) (received env [] (interleaved.flatMap Chunk.pieces)) final ∧
      final.output.content = [.text "On it.", .toolCall ⟨"call-1", "ls", .obj [], none, none, none⟩] ∧
      final.output.stopReason = .toolUse := by
  refine ⟨stream_assembled _ _ _ ⟨?_, ?_⟩ _ _, by decide, by decide⟩
  · intro toolCall h
    have h : toolCall.index = some 0 := by
      simp [interleaved, Chunk.pieces, Delta.pieces, given, foundReasoning] at h
      rcases h with rfl | rfl <;> rfl
    rw [h]
    rfl
  · intro toolCall toolCall' h h' _ _ _
    simp [interleaved, Chunk.pieces, Delta.pieces, given, foundReasoning] at h h'
    rcases h with rfl | rfl <;> rcases h' with rfl | rfl <;> rfl

end Trek.Ai.Completions
