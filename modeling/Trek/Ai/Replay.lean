/-
# Output items and their replay

An item that a response streams is a block of the message, and the block is an item of the next request. The block of a
reasoning item has the item as a text, and JSON gives it back (`JsonCodec.parse_stringify`); so it is with the id and the
phase of a message. The ids of a call are joined by a bar. An id that is absent is joined as the text `undefined`, and
comes back as an id (`Yields.functionCall`); a message that has no id comes back with one that is made up. These two are
all that is lost (`replayed_iff`).
-/
import Trek.Ai.Pairing
import Trek.Ai.Responses

namespace Trek.Ai.Responses

open JsonCodec (NumberText Held)

/-! ### What is packed is unpacked -/

theorem sanitizeUnits_utf16 : ∀ (text : List Char) (before : Option ℕ), sanitizeUnits before (utf16 text) = utf16 text
  | [], _ => rfl
  | c :: text, before => by
    rw [utf16_cons]
    rcases utf16Char_cases c with ⟨-, hc, hhigh, hlow⟩ | ⟨high, low, -, hc, hhigh, hlow, -⟩
    · rw [hc, List.singleton_append, sanitizeUnits, hhigh, hlow, sanitizeUnits_utf16 text]
      rfl
    · have hboth : isLowSurrogate high = false ∧ isHighSurrogate low = false := by
        simp only [isHighSurrogate, isLowSurrogate, Bool.and_eq_true, decide_eq_true_eq, Bool.and_eq_false_iff,
          decide_eq_false_iff_not] at *
        omega
      rw [hc, List.cons_append, List.singleton_append, sanitizeUnits, sanitizeUnits, sanitizeUnits_utf16 text]
      simp [hhigh, hlow, hboth.1, hboth.2]

/-- Nothing is taken out of a text. -/
theorem sanitizeSurrogates_eq (text : String) : sanitizeSurrogates text = text := by
  rw [sanitizeSurrogates, sanitizeUnits_utf16, utf16ToString_utf16, String.ofList_toList]

variable {N : NumberText}

/-- The signature of a message is read back. -/
theorem parseTextSignature_encode (id : String) (phase : Option Phase) :
    parseTextSignature N (some (encodeTextSignatureV1 N id phase)) = some ⟨id, phase⟩ := by
  have hone : Held N (.num 1) := by
    rw [Held]
    exact ⟨['1'], N.read_one⟩
  have hstr : ∀ s, Held N (.str s) := fun s => by rw [Held]; exact trivial
  have hread : ∀ fields : List (String × Json), (fields.map Prod.fst).Nodup → (∀ field ∈ fields, Held N field.2) →
      ∀ signature, readTextSignature (.obj fields) = some signature →
        parseTextSignature N (some (JsonCodec.stringify N (.obj fields))) = some signature := by
    intro fields hnodup hfields signature hsignature
    have hheld : Held N (.obj fields) := JsonCodec.held_obj.mpr ⟨hnodup, hfields⟩
    have hstart : startsWith "\x7b" (JsonCodec.stringify N (.obj fields)) = true := by
      simp only [startsWith, JsonCodec.stringify, String.toList_ofList, JsonCodec.write]
      rfl
    unfold parseTextSignature
    dsimp only
    rw [if_neg (JsonCodec.stringify_ne_empty hheld), if_pos hstart, JsonCodec.parse_stringify hheld, Option.bind_some, hsignature]
    rfl
  unfold encodeTextSignatureV1
  cases phase with
  | none =>
    refine hread _ (by simp) ?_ _ rfl
    exact List.forall_mem_cons.mpr ⟨hone, List.forall_mem_singleton.mpr (hstr _)⟩
  | some phase =>
    refine hread _ (by simp) ?_ _ (by cases phase <;> rfl)
    exact List.forall_mem_cons.mpr ⟨hone, List.forall_mem_cons.mpr ⟨hstr _, List.forall_mem_singleton.mpr (hstr _)⟩⟩

/-- The ids of a call are taken apart. -/
theorem splitBar_joinIds {callId : String} {id : Option String} (hcall : '|' ∉ callId.toList)
    (hid : '|' ∉ (id.getD "undefined").toList) : splitBar (joinIds callId id) = [callId, id.getD "undefined"] := by
  have hparts : ∀ part ∈ [callId.toList, (id.getD "undefined").toList], '|' ∉ part :=
    List.forall_mem_cons.mpr ⟨hcall, List.forall_mem_singleton.mpr hid⟩
  have hjoined : (joinIds callId id).toList = ['|'].intercalate [callId.toList, (id.getD "undefined").toList] := by
    simp [joinIds, List.intercalate]
  rw [splitBar, hjoined, List.splitOn_intercalate '|' hparts (List.cons_ne_nil _ _), List.map_cons, List.map_cons,
    List.map_nil, String.ofList_toList, String.ofList_toList]

/-! ### What a response streams -/

/-- Events that stand between the start of an item and its end. -/
def Event.isDelta : Event → Bool
  | .summaryPartAdded _ | .summaryTextDelta _ | .summaryPartDone | .reasoningTextDelta _ | .contentPartAdded _
  | .outputTextDelta _ | .refusalDelta _ | .argumentsDelta _ | .argumentsDone _ | .other => true
  | _ => false

/-- Events that stand between items. -/
def Event.isAside : Event → Bool
  | .created _ | .completed _ | .other => true
  | _ => false

/-- The arguments that an event adds. -/
def Event.argumentsDelta? : Event → Option String
  | .argumentsDelta delta => some delta
  | _ => none

/-- The arguments that an event ends. -/
def Event.argumentsDone? : Event → Option String
  | .argumentsDone arguments => some arguments
  | _ => none

section

variable (N)

/-- The events of an item: it is added, grows, and is done. What is added of the arguments of a call, and the deltas, are
the final arguments, which are an object. -/
inductive StreamsItem : OutputItem → List Event → Prop
  | reasoning (added item : Json) (inner : List Event) (hinner : ∀ event ∈ inner, event.isDelta) (hitem : Held N item) :
    StreamsItem (.reasoning item) (.itemAdded (.reasoning added) :: (inner ++ [Event.itemDone (.reasoning item)]))
  | message (id' id : String) (phase' phase : Option Phase) (content' content : List ContentPart) (inner : List Event)
      (hinner : ∀ event ∈ inner, event.isDelta) :
    StreamsItem (.message id phase content)
      (.itemAdded (.message id' phase' content') :: (inner ++ [Event.itemDone (.message id phase content)]))
  | functionCall (id : Option String) (callId name added arguments : String) (fields : List (String × Json))
      (deltas dones : List Event) (hdeltas : ∀ event ∈ deltas, event.isDelta ∧ event.argumentsDone? = none)
      (hdones : ∀ event ∈ dones, event.isDelta ∧ event.argumentsDelta? = none ∧
        ∀ final, event.argumentsDone? = some final → final = arguments)
      (hconcat : added ++ String.join (deltas.filterMap Event.argumentsDelta?) = arguments)
      (hobject : JsonCodec.parse N arguments = some (.obj fields)) :
    StreamsItem (.functionCall id callId name arguments)
      (.itemAdded (.functionCall id callId name added) ::
        (deltas ++ (dones ++ [Event.itemDone (.functionCall id callId name arguments)])))

/-- Items are streamed one after the other. -/
inductive Streams : List OutputItem → List Event → Prop
  | nil : Streams [] []
  | item {item : OutputItem} {items : List OutputItem} {events rest : List Event} (hitem : StreamsItem N item events)
      (hitems : Streams items rest) : Streams (item :: items) (events ++ rest)
  | aside {items : List OutputItem} {event : Event} {rest : List Event} (hevent : event.isAside)
      (hitems : Streams items rest) : Streams items (event :: rest)

/-- The block that an item becomes. -/
inductive Becomes : OutputItem → AssistantBlock → Prop
  | reasoning {item : Json} (thinking : String) (hitem : Held N item) :
    Becomes (.reasoning item) (.thinking ⟨thinking, some (JsonCodec.stringify N item), none⟩)
  | message (id : String) (phase : Option Phase) (content : List ContentPart) :
    Becomes (.message id phase content)
      (.text ⟨String.join (content.map ContentPart.text), some (encodeTextSignatureV1 N id phase)⟩)
  | functionCall (id : Option String) (callId name : String) {arguments : String} {args : Json}
      (hargs : JsonCodec.parse N arguments = some args) :
    Becomes (.functionCall id callId name arguments) (.toolCall ⟨joinIds callId id, name, args, none⟩)

end

/-! ### From items to blocks -/

variable {partialParse : String → Option Json} {s : Loop}

/-- Events each of which keeps a property of the loop keep it. -/
theorem run_keeps {P : Loop → Prop} : ∀ {events : List Event}, (∀ event ∈ events, ∀ s, P s →
    ∃ s', onEvent N partialParse s event = .ok s' ∧ P s') → ∀ {s : Loop}, P s →
      ∃ s', events.foldlM (onEvent N partialParse) s = .ok s' ∧ P s'
  | [], _, s, hs => ⟨s, rfl, hs⟩
  | event :: events, h, s, hs => by
    obtain ⟨s₁, hstep, hs₁⟩ := h event List.mem_cons_self s hs
    obtain ⟨s₂, hrun, hs₂⟩ := run_keeps (fun e he => h e (List.mem_cons_of_mem _ he)) hs₁
    refine ⟨s₂, ?_, hs₂⟩
    rw [List.foldlM_cons, hstep]
    exact hrun

/-- What an event of an item makes of its block. -/
inductive Grows : Option CurrentBlock → Option CurrentBlock → Prop
  | same (block : Option CurrentBlock) : Grows block block
  | thinking (block : ThinkingContent) (thinking : String) :
    Grows (some (.thinking block)) (some (.thinking { block with thinking }))
  | text (block : TextContent) (text : String) : Grows (some (.text block)) (some (.text { block with text }))
  | toolCall (call : ToolCall) (arguments : Json) (partialJson partialJson' : String) :
    Grows (some (.toolCall call partialJson)) (some (.toolCall { call with arguments } partialJson'))

theorem grows_thinkingDelta (s : Loop) (delta : String) (ofSummary : Bool) :
    (onThinkingDelta s delta ofSummary).content = s.content ∧
      Grows s.currentBlock (onThinkingDelta s delta ofSummary).currentBlock := by
  unfold onThinkingDelta
  split
  · next summary block _ hblock =>
    split
    · exact ⟨rfl, .same _⟩
    · exact ⟨rfl, hblock ▸ .thinking block _⟩
  · exact ⟨rfl, .same _⟩

theorem grows_textDelta (s : Loop) (delta : String) (ofKind : ContentPart → Bool) :
    (onTextDelta s delta ofKind).content = s.content ∧ Grows s.currentBlock (onTextDelta s delta ofKind).currentBlock := by
  unfold onTextDelta
  split
  · next content block _ hblock =>
    split
    · exact ⟨rfl, hblock ▸ .text block _⟩
    · exact ⟨rfl, .same _⟩
  · exact ⟨rfl, .same _⟩

/-- An event of an item leaves the blocks before the current one as they are, and the current one of its kind. -/
theorem grows_delta {event : Event} (hevent : event.isDelta) (s : Loop) :
    ∃ s', onEvent N partialParse s event = .ok s' ∧ s'.content = s.content ∧ Grows s.currentBlock s'.currentBlock := by
  cases event with
  | summaryPartAdded text =>
    rw [onEvent]
    split
    · exact ⟨_, rfl, rfl, .same _⟩
    · exact ⟨_, rfl, rfl, .same _⟩
  | summaryTextDelta delta => exact ⟨_, rfl, grows_thinkingDelta s delta true⟩
  | summaryPartDone => exact ⟨_, rfl, grows_thinkingDelta s _ true⟩
  | reasoningTextDelta delta => exact ⟨_, rfl, grows_thinkingDelta s delta false⟩
  | contentPartAdded part =>
    rw [onEvent]
    split
    · exact ⟨_, rfl, rfl, .same _⟩
    · exact ⟨_, rfl, rfl, .same _⟩
  | outputTextDelta delta => exact ⟨_, rfl, grows_textDelta s delta _⟩
  | refusalDelta delta => exact ⟨_, rfl, grows_textDelta s delta _⟩
  | argumentsDelta delta =>
    refine ⟨_, rfl, ?_⟩
    unfold onArgumentsDelta
    split
    · next call partialJson _ hblock => exact ⟨rfl, hblock ▸ .toolCall call _ partialJson _⟩
    · exact ⟨rfl, .same _⟩
  | argumentsDone arguments =>
    refine ⟨_, rfl, ?_⟩
    unfold onArgumentsDone
    split
    · next call partialJson _ hblock =>
      dsimp only
      split
      · exact ⟨rfl, hblock ▸ .toolCall call _ partialJson _⟩
      · exact ⟨rfl, hblock ▸ .toolCall call _ partialJson _⟩
    · exact ⟨rfl, .same _⟩
  | other => exact ⟨s, rfl, rfl, .same _⟩
  | _ => cases hevent

/-- The events of a call put its arguments together. -/
theorem call_delta {event : Event} (hevent : event.isDelta) {call : ToolCall} {partialJson : String}
    (hitem : s.currentItem = some .functionCall) (hblock : s.currentBlock = some (.toolCall call partialJson)) :
    ∃ s' arguments, onEvent N partialParse s event = .ok s' ∧ s'.content = s.content ∧
      s'.currentItem = some .functionCall ∧ s'.currentBlock = some (.toolCall { call with arguments }
        (event.argumentsDone?.getD (partialJson ++ event.argumentsDelta?.getD ""))) := by
  have hsame : s.currentBlock = some (.toolCall { call with arguments := call.arguments } (partialJson ++ "")) := by
    rw [hblock, String.append_empty]
  have hthinking : ∀ delta ofSummary, onThinkingDelta s delta ofSummary = s := fun delta ofSummary => by
    rw [onThinkingDelta, hitem]
  have htext : ∀ delta ofKind, onTextDelta s delta ofKind = s := fun delta ofKind => by
    rw [onTextDelta, hitem]
  cases event with
  | summaryPartAdded text => exact ⟨s, call.arguments, by rw [onEvent, hitem], rfl, hitem, hsame⟩
  | summaryTextDelta delta => exact ⟨s, call.arguments, congrArg _ (hthinking _ _), rfl, hitem, hsame⟩
  | summaryPartDone => exact ⟨s, call.arguments, congrArg _ (hthinking _ _), rfl, hitem, hsame⟩
  | reasoningTextDelta delta => exact ⟨s, call.arguments, congrArg _ (hthinking _ _), rfl, hitem, hsame⟩
  | contentPartAdded part => exact ⟨s, call.arguments, by rw [onEvent, hitem], rfl, hitem, hsame⟩
  | outputTextDelta delta => exact ⟨s, call.arguments, congrArg _ (htext _ _), rfl, hitem, hsame⟩
  | refusalDelta delta => exact ⟨s, call.arguments, congrArg _ (htext _ _), rfl, hitem, hsame⟩
  | argumentsDelta delta =>
    refine ⟨_, parseStreamingJson N partialParse (partialJson ++ delta), rfl, ?_⟩
    rw [onArgumentsDelta, hitem, hblock]
    exact ⟨rfl, rfl, rfl⟩
  | argumentsDone arguments =>
    refine ⟨_, parseStreamingJson N partialParse arguments, rfl, ?_⟩
    rw [onArgumentsDone, hitem, hblock]
    dsimp only
    split
    · exact ⟨rfl, rfl, rfl⟩
    · exact ⟨rfl, rfl, rfl⟩
  | other => exact ⟨s, call.arguments, rfl, rfl, hitem, hsame⟩
  | _ => cases hevent

/-! ### Whole items -/

/-- White space is no value. -/
theorem parse_blank {text : String} (h : jsTrim text = "") : JsonCodec.parse N text = none := by
  have hspaces : ∀ c ∈ text.toList, isJsSpace c = true := by
    have hnil : ((text.toList.dropWhile isJsSpace).reverse.dropWhile isJsSpace).reverse = [] := by
      have := congrArg String.toList h
      rwa [jsTrim, String.toList_ofList] at this
    rw [List.reverse_eq_nil_iff, List.dropWhile_eq_nil_iff] at hnil
    have hdrop : text.toList.dropWhile isJsSpace = [] := by
      by_contra hne
      have hhead := List.head_dropWhile_not isJsSpace hne
      rw [hnil _ (List.mem_reverse.mpr (List.head_mem hne))] at hhead
      exact Bool.noConfusion hhead
    exact List.dropWhile_eq_nil_iff.mp hdrop
  have hrun : ∀ cs : List Char, (∀ c ∈ cs, isJsSpace c = true) → ∀ s, JsonCodec.run N ⟨.value, []⟩ cs = some s → s = ⟨.value, []⟩ := by
    intro cs
    induction cs with
    | nil => exact fun _ s hs => (Option.some.inj hs).symm
    | cons c cs ih =>
      intro hcs s hs
      obtain ⟨hc, hcs⟩ := List.forall_mem_cons.mp hcs
      rw [JsonCodec.run_cons, Option.bind_eq_some_iff] at hs
      obtain ⟨first, hfirst, hs⟩ := hs
      have hstep : first = ⟨.value, []⟩ := by
        have hstepAt : JsonCodec.stepAt ⟨.value, []⟩ c = some first := hfirst
        rw [JsonCodec.stepAt_value] at hstepAt
        split at hstepAt
        · exact (Option.some.inj hstepAt).symm
        · have hbounds := JsonCodec.startValue_bounds hstepAt
          simp only [isJsSpace, List.mem_cons, List.not_mem_nil, or_false, Bool.or_eq_true, Bool.and_eq_true,
            decide_eq_true_eq] at hc
          omega
      rw [hstep] at hs
      exact ih hcs s hs
  cases hread : JsonCodec.run N ⟨.value, []⟩ text.toList with
  | none => rw [JsonCodec.parse, hread]; rfl
  | some s =>
    obtain rfl := hrun _ hspaces s hread
    rw [JsonCodec.parse, hread]
    rfl

/-- A complete text is read as its value. -/
theorem parseStreamingJson_of_parse {text : String} {value : Json} (h : JsonCodec.parse N text = some value) :
    parseStreamingJson N partialParse text = value := by
  have hempty : JsonCodec.parse N "" = none := rfl
  rw [parseStreamingJson, if_neg, parseJsonWithRepair, h]
  rintro (rfl | hblank)
  · rw [hempty] at h
    cases h
  · rw [parse_blank hblank] at h
    cases h

/-- Events of a thinking block. -/
theorem run_thinking {events : List Event} (hevents : ∀ event ∈ events, event.isDelta) {content : List AssistantBlock}
    (hcontent : s.content = content) {block : ThinkingContent} (hblock : s.currentBlock = some (.thinking block)) :
    ∃ s', events.foldlM (onEvent N partialParse) s = .ok s' ∧ s'.content = content ∧
      ∃ block', s'.currentBlock = some (.thinking block') ∧ block'.redacted = block.redacted := by
  refine run_keeps (P := fun s => s.content = content ∧
    ∃ block', s.currentBlock = some (.thinking block') ∧ block'.redacted = block.redacted) ?_ ⟨hcontent, block, hblock, rfl⟩
  rintro event hevent s ⟨hcontent, block', hblock, hredacted⟩
  obtain ⟨s', hstep, hkept, hgrows⟩ := @grows_delta N partialParse event (hevents event hevent) s
  refine ⟨s', hstep, hkept.trans hcontent, ?_⟩
  rw [hblock] at hgrows
  generalize s'.currentBlock = current at hgrows
  cases hgrows with
  | same => exact ⟨block', rfl, hredacted⟩
  | thinking _ thinking => exact ⟨_, rfl, hredacted⟩

/-- Events of a text block. -/
theorem run_text {events : List Event} (hevents : ∀ event ∈ events, event.isDelta) {content : List AssistantBlock}
    (hcontent : s.content = content) {block : TextContent} (hblock : s.currentBlock = some (.text block)) :
    ∃ s', events.foldlM (onEvent N partialParse) s = .ok s' ∧ s'.content = content ∧
      ∃ block', s'.currentBlock = some (.text block') := by
  refine run_keeps (P := fun s => s.content = content ∧ ∃ block', s.currentBlock = some (.text block')) ?_
    ⟨hcontent, block, hblock⟩
  rintro event hevent s ⟨hcontent, block', hblock⟩
  obtain ⟨s', hstep, hkept, hgrows⟩ := @grows_delta N partialParse event (hevents event hevent) s
  refine ⟨s', hstep, hkept.trans hcontent, ?_⟩
  rw [hblock] at hgrows
  generalize s'.currentBlock = current at hgrows
  cases hgrows with
  | same => exact ⟨block', rfl⟩
  | text _ text => exact ⟨_, rfl⟩

/-- The call that is streamed, with the arguments so far. -/
def AtCall (content : List AssistantBlock) (id name partialJson : String) (s : Loop) : Prop :=
  s.content = content ∧ s.currentItem = some .functionCall ∧
    ∃ arguments, s.currentBlock = some (.toolCall ⟨id, name, arguments, none⟩ partialJson)

theorem atCall_delta {content : List AssistantBlock} {id name partialJson : String} {event : Event} (hevent : event.isDelta)
    (hs : AtCall content id name partialJson s) : ∃ s', onEvent N partialParse s event = .ok s' ∧
      AtCall content id name (event.argumentsDone?.getD (partialJson ++ event.argumentsDelta?.getD "")) s' := by
  obtain ⟨hcontent, hitem, arguments, hblock⟩ := hs
  obtain ⟨s', arguments', hstep, hkept, hitem', hblock'⟩ := @call_delta N partialParse s event hevent _ _ hitem hblock
  exact ⟨s', hstep, hkept.trans hcontent, hitem', arguments', hblock'⟩

/-- Deltas of the arguments are put together. -/
theorem run_deltas {content : List AssistantBlock} {id name : String} : ∀ {events : List Event},
    (∀ event ∈ events, event.isDelta ∧ event.argumentsDone? = none) → ∀ {partialJson : String} {s : Loop},
      AtCall content id name partialJson s → ∃ s', events.foldlM (onEvent N partialParse) s = .ok s' ∧
        AtCall content id name (partialJson ++ String.join (events.filterMap Event.argumentsDelta?)) s'
  | [], _, partialJson, s, hs => ⟨s, rfl, by rw [List.filterMap_nil, String.join_nil, String.append_empty]; exact hs⟩
  | event :: events, h, partialJson, s, hs => by
    obtain ⟨⟨hdelta, hnone⟩, h⟩ := List.forall_mem_cons.mp h
    obtain ⟨s₁, hstep, hs₁⟩ := @atCall_delta N partialParse s content id name partialJson event hdelta hs
    rw [hnone, Option.getD_none] at hs₁
    obtain ⟨s₂, hrun, hs₂⟩ := run_deltas h hs₁
    rw [String.append_assoc] at hs₂
    refine ⟨s₂, ?_, ?_⟩
    · rw [List.foldlM_cons, hstep]
      exact hrun
    · cases hadds : event.argumentsDelta? with
      | none =>
        rw [hadds, Option.getD_none, String.empty_append] at hs₂
        rwa [List.filterMap_cons_none hadds]
      | some delta =>
        rw [hadds, Option.getD_some] at hs₂
        rwa [List.filterMap_cons_some hadds, String.join_cons]

theorem itemDone_reasoning {block : ThinkingContent} (hblock : s.currentBlock = some (.thinking block))
    (hredacted : block.redacted = none) {item : Json} (hitem : Held N item) :
    ∃ s' block, onEvent N partialParse s (.itemDone (.reasoning item)) = .ok s' ∧ s'.currentBlock = none ∧
      s'.content = s.content ++ [block] ∧ Becomes N (.reasoning item) block := by
  obtain ⟨thinking, signature, redacted⟩ := block
  obtain rfl : redacted = none := hredacted
  obtain ⟨thinking', hdone⟩ : ∃ thinking', onItemDone N partialParse s (.reasoning item) =
      (s.closeBlock (.thinking ⟨thinking', some (JsonCodec.stringify N item), none⟩)).push (.thinkingEnd · thinking') :=
    ⟨_, by rw [onItemDone, hblock]⟩
  exact ⟨_, _, congrArg _ hdone, rfl, rfl, .reasoning thinking' hitem⟩

theorem itemDone_message {block : TextContent} (hblock : s.currentBlock = some (.text block)) (id : String)
    (phase : Option Phase) (content : List ContentPart) :
    ∃ s' block, onEvent N partialParse s (.itemDone (.message id phase content)) = .ok s' ∧ s'.currentBlock = none ∧
      s'.content = s.content ++ [block] ∧ Becomes N (.message id phase content) block := by
  have hdone : onItemDone N partialParse s (.message id phase content) =
      (s.closeBlock (.text ⟨String.join (content.map ContentPart.text), some (encodeTextSignatureV1 N id phase)⟩)).push
        (.textEnd · (String.join (content.map ContentPart.text))) := by
    rw [onItemDone, hblock]
  exact ⟨_, _, congrArg _ hdone, rfl, rfl, .message id phase content⟩

theorem itemDone_functionCall {content : List AssistantBlock} {id : Option String} {callId name arguments : String}
    (hs : AtCall content (joinIds callId id) name arguments s) {value : Json}
    (harguments : JsonCodec.parse N arguments = some value) :
    ∃ s' block, onEvent N partialParse s (.itemDone (.functionCall id callId name arguments)) = .ok s' ∧
      s'.currentBlock = none ∧ s'.content = content ++ [block] ∧ Becomes N (.functionCall id callId name arguments) block := by
  obtain ⟨rfl, -, value', hblock⟩ := hs
  have hne : arguments ≠ "" := by
    rintro rfl
    cases harguments
  have hdone : onItemDone N partialParse s (.functionCall id callId name arguments) =
      (s.closeBlock (.toolCall ⟨joinIds callId id, name, value, none⟩ arguments)).push
        (.toolcallEnd · ⟨joinIds callId id, name, value, none⟩) := by
    rw [onItemDone, hblock]
    dsimp only
    rw [if_pos hne, parseStreamingJson_of_parse harguments]
  exact ⟨_, _, congrArg _ hdone, rfl, rfl, .functionCall id callId name harguments⟩

theorem foldlM_frame {first last : Event} {inner : List Event} {s₀ s₁ s₂ : Loop}
    (hfirst : onEvent N partialParse s first = .ok s₀) (hinner : inner.foldlM (onEvent N partialParse) s₀ = .ok s₁)
    (hlast : onEvent N partialParse s₁ last = .ok s₂) :
    (first :: (inner ++ [last])).foldlM (onEvent N partialParse) s = .ok s₂ := by
  rw [List.foldlM_cons, hfirst]
  show (inner ++ [last]).foldlM (onEvent N partialParse) s₀ = .ok s₂
  rw [List.foldlM_append, hinner]
  show List.foldlM (onEvent N partialParse) s₁ [last] = .ok s₂
  rw [List.foldlM_cons, hlast]
  rfl

/-- **An item becomes a block**, behind those that are there. -/
theorem run_item {item : OutputItem} {events : List Event} (h : StreamsItem N item events) (hs : s.currentBlock = none) :
    ∃ s' block, events.foldlM (onEvent N partialParse) s = .ok s' ∧ s'.currentBlock = none ∧
      s'.content = s.content ++ [block] ∧ Becomes N item block := by
  have hblocks : s.blocks = s.content := by rw [Loop.blocks, hs]; exact List.append_nil _
  cases h with
  | reasoning added item inner hinner hitem =>
    obtain ⟨s₁, hrun, hcontent₁, block, hblock, hredacted⟩ := @run_thinking N partialParse
      (onItemAdded s (.reasoning added)) inner hinner s.blocks rfl ⟨"", none, none⟩ rfl
    obtain ⟨s₂, block', hdone, hnone, hcontent, hbecomes⟩ := @itemDone_reasoning N partialParse s₁ block hblock hredacted item hitem
    exact ⟨s₂, block', foldlM_frame rfl hrun hdone, hnone, by rw [hcontent, hcontent₁, hblocks], hbecomes⟩
  | message id' id phase' phase content' content inner hinner =>
    obtain ⟨s₁, hrun, hcontent₁, block, hblock⟩ := @run_text N partialParse
      (onItemAdded s (.message id' phase' content')) inner hinner s.blocks rfl ⟨"", none⟩ rfl
    obtain ⟨s₂, block', hdone, hnone, hcontent, hbecomes⟩ := @itemDone_message N partialParse s₁ block hblock id phase content
    exact ⟨s₂, block', foldlM_frame rfl hrun hdone, hnone, by rw [hcontent, hcontent₁, hblocks], hbecomes⟩
  | functionCall id callId name added arguments fields deltas dones hdeltas hdones hconcat hobject =>
    have hopened : AtCall s.blocks (joinIds callId id) name added (onItemAdded s (.functionCall id callId name added)) :=
      ⟨rfl, rfl, .obj [], rfl⟩
    obtain ⟨s₁, hrun₁, hs₁⟩ := @run_deltas N partialParse _ _ _ deltas hdeltas _ _ hopened
    rw [hconcat] at hs₁
    obtain ⟨s₂, hrun₂, hs₂⟩ := @run_keeps N partialParse (AtCall s.blocks (joinIds callId id) name arguments) dones
      (fun event hevent s hs => by
        obtain ⟨hdelta, hnone, hfinal⟩ := hdones event hevent
        obtain ⟨s', hstep, hs'⟩ := @atCall_delta N partialParse s _ _ _ _ event hdelta hs
        refine ⟨s', hstep, ?_⟩
        cases hended : event.argumentsDone? with
        | none => rwa [hended, hnone, Option.getD_none, Option.getD_none, String.append_empty] at hs'
        | some final => rwa [hended, Option.getD_some, hfinal final hended] at hs') s₁ hs₁
    obtain ⟨s₃, block, hdone, hnone, hcontent, hbecomes⟩ := @itemDone_functionCall N partialParse s₂ _ id callId name arguments
      hs₂ _ hobject
    refine ⟨s₃, block, ?_, hnone, by rw [hcontent, hblocks], hbecomes⟩
    rw [← List.append_assoc]
    refine foldlM_frame rfl ?_ hdone
    rw [List.foldlM_append]
    exact (congrArg (· >>= fun s => dones.foldlM (onEvent N partialParse) s) hrun₁).trans hrun₂

/-- What stands between items leaves the blocks alone. -/
theorem onEvent_aside {event : Event} (hevent : event.isAside) (s : Loop) :
    ∃ s', onEvent N partialParse s event = .ok s' ∧ s'.content = s.content ∧ s'.currentBlock = s.currentBlock := by
  cases event with
  | created responseId => exact ⟨_, rfl, rfl, rfl⟩
  | completed response => exact ⟨_, rfl, rfl, rfl⟩
  | other => exact ⟨_, rfl, rfl, rfl⟩
  | _ => cases hevent

/-- **The items of a response become blocks**, in their order. -/
theorem run_streams {items : List OutputItem} {events : List Event} (h : Streams N items events) : ∀ {s : Loop},
    s.currentBlock = none → ∃ s' blocks, events.foldlM (onEvent N partialParse) s = .ok s' ∧ s'.currentBlock = none ∧
      s'.content = s.content ++ blocks ∧ List.Forall₂ (Becomes N) items blocks := by
  induction h with
  | nil => exact fun {s} hs => ⟨s, [], rfl, hs, (List.append_nil _).symm, .nil⟩
  | item hitem _ ih =>
    intro s hs
    obtain ⟨s₁, block, hrun₁, hs₁, hcontent₁, hbecomes⟩ := @run_item N partialParse s _ _ hitem hs
    obtain ⟨s₂, blocks, hrun₂, hs₂, hcontent₂, hall⟩ := ih hs₁
    refine ⟨s₂, block :: blocks, ?_, hs₂, ?_, .cons hbecomes hall⟩
    · rw [List.foldlM_append, hrun₁]
      exact hrun₂
    · rw [hcontent₂, hcontent₁, List.append_assoc]
      rfl
  | aside hevent _ ih =>
    intro s hs
    obtain ⟨s₁, hstep, hcontent₁, hblock⟩ := @onEvent_aside N partialParse _ hevent s
    obtain ⟨s₂, blocks, hrun₂, hs₂, hcontent₂, hall⟩ := ih (hblock.trans hs)
    refine ⟨s₂, blocks, ?_, hs₂, by rw [hcontent₂, hcontent₁], hall⟩
    rw [List.foldlM_cons, hstep]
    exact hrun₂

/-! ### From blocks to items -/

/-- No id has the bar that joins ids, and the id of a message is not too long. -/
def OutputItem.Plain : OutputItem → Prop
  | .message id _ _ => jsLength id ≤ 64
  | .functionCall id callId _ _ => '|' ∉ callId.toList ∧ ∀ id' ∈ id, '|' ∉ id'.toList
  | _ => True

/-- What identifies the item is there. -/
def OutputItem.Identified : OutputItem → Prop
  | .message id _ _ => id ≠ ""
  | .functionCall id _ _ _ => id ≠ none
  | _ => True

section

variable (N)

/-- An item is sent as it came: a reasoning item as a whole, a message with its id, its phase and its text, and a call with
its ids, its name and the value of its arguments. -/
inductive Replays : OutputItem → InputItem → Prop
  | reasoning (item : Json) : Replays (.reasoning item) (.reasoning item)
  | message (id : String) (phase : Option Phase) (content : List ContentPart) :
    Replays (.message id phase content) (.message (String.join (content.map ContentPart.text)) id phase)
  | functionCall (id : Option String) (callId name : String) {arguments arguments' : String}
      (hvalue : JsonCodec.parse N arguments' = JsonCodec.parse N arguments) :
    Replays (.functionCall id callId name arguments) (.functionCall id callId name arguments')

/-- What the block of an item is sent as. An absent id is sent as a text. -/
inductive Yields : OutputItem → InputItem → Prop
  | reasoning (item : Json) : Yields (.reasoning item) (.reasoning item)
  | message (id : String) (phase : Option Phase) (content : List ContentPart) {id' : String}
      (hid : id' = id ∧ id ≠ "" ∨ id = "" ∧ id' ≠ "") :
    Yields (.message id phase content) (.message (String.join (content.map ContentPart.text)) id' phase)
  | functionCall (id : Option String) (callId name : String) {arguments arguments' : String}
      (hvalue : JsonCodec.parse N arguments' = JsonCodec.parse N arguments) :
    Yields (.functionCall id callId name arguments) (.functionCall (some (id.getD "undefined")) callId name arguments')

end

theorem replays_iff {item : OutputItem} {sent : InputItem} (h : Yields N item sent) :
    Replays N item sent ↔ item.Identified := by
  cases h with
  | reasoning item => exact ⟨fun _ => trivial, fun _ => .reasoning item⟩
  | message id phase content hid =>
    rcases hid with ⟨rfl, hne⟩ | ⟨rfl, hne⟩
    · exact ⟨fun _ => hne, fun _ => .message _ phase content⟩
    · constructor
      · intro hreplays
        cases hreplays
        exact absurd rfl hne
      · exact fun hidentified => absurd rfl hidentified
  | functionCall id callId name hvalue =>
    cases id with
    | none =>
      constructor
      · intro hreplays
        cases hreplays
      · exact fun hidentified => absurd rfl hidentified
    | some id => exact ⟨fun _ => Option.some_ne_none id, fun _ => .functionCall (some id) callId name hvalue⟩

theorem yields_text {id : String} (hid : jsLength id ≤ 64) (phase : Option Phase) (content : List ContentPart)
    (msgIndex k : ℕ) : Yields N (.message id phase content) (convertText N msgIndex k
      ⟨String.join (content.map ContentPart.text), some (encodeTextSignatureV1 N id phase)⟩) := by
  have hprefix : ∀ s : String, "msg_pi_" ++ s ≠ "" := fun s heq => by
    have := congrArg (·.toList.length) heq
    simp at this
  unfold convertText
  rw [parseTextSignature_encode, sanitizeSurrogates_eq]
  refine .message id phase content ?_
  dsimp only
  by_cases hempty : id = ""
  · rw [if_pos hempty]
    refine Or.inr ⟨hempty, ?_⟩
    split
    · exact hprefix _
    · rw [String.append_assoc, String.append_assoc]
      exact hprefix _
  · rw [if_neg hempty, if_neg (Nat.not_lt.mpr hid)]
    exact Or.inl ⟨rfl, hempty⟩

theorem yields_call {id : Option String} {callId : String} (hplain : '|' ∉ callId.toList ∧ ∀ id' ∈ id, '|' ∉ id'.toList)
    (name : String) {arguments : String} {args : Json} (hargs : JsonCodec.parse N arguments = some args) :
    Yields N (.functionCall id callId name arguments) (convertCall N false ⟨joinIds callId id, name, args, none⟩) := by
  have hid : '|' ∉ (id.getD "undefined").toList := by
    cases id with
    | none => decide
    | some id => exact hplain.2 id rfl
  rw [convertCall, splitBar_joinIds hplain.1 hid]
  exact .functionCall id callId name ((JsonCodec.parse_stringify (JsonCodec.held_of_parse hargs)).trans hargs.symm)

/-- The blocks of items are sent as the items, but for what identifies them. -/
theorem convertBlocks_becomes (msgIndex : ℕ) {items : List OutputItem} {blocks : List AssistantBlock}
    (h : List.Forall₂ (Becomes N) items blocks) : (∀ item ∈ items, item.Plain) → ∀ k,
      ∃ sent, convertBlocks N false msgIndex k blocks = some sent ∧ List.Forall₂ (Yields N) items sent := by
  induction h with
  | nil => exact fun _ k => ⟨[], rfl, .nil⟩
  | cons hfirst _ ih =>
    intro hplain k
    obtain ⟨hitem, hitems⟩ := List.forall_mem_cons.mp hplain
    cases hfirst with
    | reasoning thinking hheld =>
      obtain ⟨sent, hsent, hall⟩ := ih hitems k
      refine ⟨_, ?_, .cons (.reasoning _) hall⟩
      rw [convertBlocks, Option.filter_some, if_pos (decide_eq_true (JsonCodec.stringify_ne_empty hheld))]
      dsimp only
      rw [JsonCodec.parse_stringify hheld, hsent]
      rfl
    | message id phase content =>
      obtain ⟨sent, hsent, hall⟩ := ih hitems (k + 1)
      exact ⟨_, by rw [convertBlocks, hsent]; rfl, .cons (yields_text hitem phase content msgIndex k) hall⟩
    | functionCall id callId name hargs =>
      obtain ⟨sent, hsent, hall⟩ := ih hitems k
      exact ⟨_, by rw [convertBlocks, hsent]; rfl, .cons (yields_call hitem name hargs) hall⟩

/-! ### The message in its history -/

variable {model : ResponsesModel} {normalize : Option Normalizer} {now : ℕ → ℤ}

/-- The blocks of items are passed on to the model they are from. -/
theorem transformContent_becomes {m : AssistantMessage} (hsame : isSameModel model.toModel m = true) (ids : OrdMap String String)
    {items : List OutputItem} {blocks : List AssistantBlock} (h : List.Forall₂ (Becomes N) items blocks) :
    transformContent model.toModel normalize m ids blocks = (ids, blocks) := by
  induction h with
  | nil => rfl
  | cons hfirst _ ih =>
    cases hfirst with
    | reasoning thinking hheld =>
      have hset : isSet (some (JsonCodec.stringify N _)) = true := decide_eq_true (JsonCodec.stringify_ne_empty hheld)
      rw [transformContent, ih, hsame, transformThinking, if_neg (by rintro ⟨⟩), hset]
      rfl
    | message id phase content =>
      rw [transformContent, ih, hsame]
      rfl
    | functionCall id callId name hargs =>
      have hcall : ∀ call : ToolCall, transformCall model.toModel normalize m ids call = (ids, call) := by
        intro call
        unfold transformCall
        rw [hsame]
        cases normalize <;> rfl
      rw [transformContent, hcall]
      dsimp only
      rw [ih]

/-- A message that the first pass passes on parts the history. -/
theorem transformFrom_split {m : AssistantMessage}
    (hm : ∀ ids, transformContent model.toModel normalize m ids m.content = (ids, m.content)) (after : List Message) :
    ∀ (before : List Message) (ids : OrdMap String String), ∃ ids',
      transformFrom model.toModel normalize ids (before ++ .assistant m :: after) =
        transformFrom model.toModel normalize ids before ++ .assistant m :: transformFrom model.toModel normalize ids' after
  | [], ids => ⟨ids, by simp only [List.nil_append, transformFrom, hm]⟩
  | .user content timestamp :: before, ids => by
    obtain ⟨ids', h⟩ := transformFrom_split hm after before ids
    exact ⟨ids', by rw [List.cons_append, transformFrom, transformFrom, h]; rfl⟩
  | .toolResult r :: before, ids => by
    obtain ⟨ids', h⟩ := transformFrom_split hm after before ids
    exact ⟨ids', by rw [List.cons_append, transformFrom, transformFrom, h]; rfl⟩
  | .assistant m' :: before, ids => by
    obtain ⟨ids', h⟩ := transformFrom_split hm after before (transformContent model.toModel normalize m' ids m'.content).1
    exact ⟨ids', by rw [List.cons_append, transformFrom, transformFrom]; dsimp only; rw [h]; rfl⟩

/-- So does one that did not fail, in the second pass. -/
theorem fill_append {m : AssistantMessage} (hm : m.failed = false) (after : List Message) :
    ∀ (before : List Message) (n : ℕ) (pending : List ToolCall) (existing : List String), ∃ n',
      fill now n pending existing (before ++ .assistant m :: after) =
        fill now n pending existing before ++ .assistant m :: fill now n' m.toolCalls [] after
  | [], n, pending, existing =>
    ⟨n + (synthetic now n existing pending).length + 1, by
      simp only [List.nil_append, fill, hm, Bool.false_eq_true, if_false]⟩
  | .toolResult r :: before, n, pending, existing => by
    obtain ⟨n', h⟩ := fill_append hm after before (n + 1) pending (existing ++ [r.toolCallId])
    exact ⟨n', by rw [List.cons_append, fill, fill, h]; rfl⟩
  | .user content timestamp :: before, n, pending, existing => by
    obtain ⟨n', h⟩ := fill_append hm after before (n + (synthetic now n existing pending).length + 1) [] []
    exact ⟨n', by rw [List.cons_append, fill, fill, h, List.append_assoc]; rfl⟩
  | .assistant m' :: before, n, pending, existing => by
    by_cases hm' : m'.failed = true
    · obtain ⟨n', h⟩ := fill_append hm after before (n + (synthetic now n existing pending).length) [] []
      refine ⟨n', ?_⟩
      rw [List.cons_append, fill, fill, if_pos hm', if_pos hm', h, List.append_assoc]
    · obtain ⟨n', h⟩ := fill_append hm after before (n + (synthetic now n existing pending).length + 1) m'.toolCalls []
      refine ⟨n', ?_⟩
      rw [List.cons_append, fill, fill, if_neg hm', if_neg hm', h, List.append_assoc]
      rfl

/-- A message parts a transformed history, too. -/
theorem transformMessages_split {m : AssistantMessage} {items : List OutputItem} (hsame : isSameModel model.toModel m = true)
    (hfailed : m.failed = false) (hcontent : List.Forall₂ (Becomes N) items m.content) (before after : List Message) :
    ∃ n ids, transformMessages now (before ++ .assistant m :: after) model.toModel normalize =
      transformMessages now before model.toModel normalize ++ .assistant m ::
        fill now n m.toolCalls [] (transformFrom model.toModel normalize ids (downgradeUnsupportedImages after model.toModel)) := by
  have hkept : ∀ ids, transformContent model.toModel normalize m ids m.content = (ids, m.content) :=
    fun ids => transformContent_becomes hsame ids hcontent
  have himages : downgradeUnsupportedImages (before ++ .assistant m :: after) model.toModel =
      downgradeUnsupportedImages before model.toModel ++ .assistant m :: downgradeUnsupportedImages after model.toModel := by
    rw [downgradeUnsupportedImages, List.map_append, List.map_cons, imageAware_assistant]
    rfl
  unfold transformMessages
  dsimp only
  rw [foldl_step_eq_fill, foldl_step_eq_fill, himages]
  obtain ⟨ids, hids⟩ := @transformFrom_split model normalize m hkept (downgradeUnsupportedImages after model.toModel)
    (downgradeUnsupportedImages before model.toModel) .empty
  rw [hids]
  obtain ⟨n, hn⟩ := @fill_append now m hfailed
    (transformFrom model.toModel normalize ids (downgradeUnsupportedImages after model.toModel))
    (transformFrom model.toModel normalize .empty (downgradeUnsupportedImages before model.toModel)) 0 [] []
  exact ⟨n, ids, hn⟩

/-- A history is converted piece by piece. -/
theorem convertFrom_append (messages : List Message) : ∀ (before : List Message) (k : ℕ), ∃ k',
    convertFrom N model k (before ++ messages) =
      (convertFrom N model k before).bind fun front => (convertFrom N model k' messages).map (front ++ ·)
  | [], k => ⟨k, by simp [convertFrom]⟩
  | .user content timestamp :: before, k => by
    rw [List.cons_append, convertFrom, convertFrom]
    cases convertUser content with
    | none => exact convertFrom_append messages before k
    | some item =>
      obtain ⟨k', h⟩ := convertFrom_append messages before (k + 1)
      refine ⟨k', ?_⟩
      dsimp only
      rw [h]
      cases convertFrom N model (k + 1) before with
      | none => rfl
      | some front => cases convertFrom N model k' messages <;> rfl
  | .toolResult r :: before, k => by
    obtain ⟨k', h⟩ := convertFrom_append messages before (k + 1)
    refine ⟨k', ?_⟩
    rw [List.cons_append, convertFrom, convertFrom, h]
    cases convertFrom N model (k + 1) before with
    | none => rfl
    | some front => cases convertFrom N model k' messages <;> rfl
  | .assistant m :: before, k => by
    rw [List.cons_append, convertFrom, convertFrom]
    cases convertAssistant N model k m with
    | none => exact ⟨k, rfl⟩
    | some output =>
      rw [Option.bind_some, Option.bind_some]
      by_cases hempty : output.length = 0
      · rw [if_pos hempty, if_pos hempty]
        exact convertFrom_append messages before k
      · obtain ⟨k', h⟩ := convertFrom_append messages before (k + 1)
        refine ⟨k', ?_⟩
        rw [if_neg hempty, if_neg hempty, h]
        cases convertFrom N model (k + 1) before with
        | none => rfl
        | some front =>
          cases convertFrom N model k' messages with
          | none => rfl
          | some back => exact congrArg some (List.append_assoc output front back).symm

/-- The message of items is sent as them, whatever follows. -/
theorem convertFrom_becomes {m : AssistantMessage} {items : List OutputItem} (hsame : isSameModel model.toModel m = true)
    (hcontent : List.Forall₂ (Becomes N) items m.content) (hplain : ∀ item ∈ items, item.Plain) (k : ℕ) :
    ∃ sent, List.Forall₂ (Yields N) items sent ∧ ∀ messages, ∃ k',
      convertFrom N model k (.assistant m :: messages) = (convertFrom N model k' messages).map (sent ++ ·) := by
  have hdifferent : (m.model ≠ model.id && m.provider = model.provider && m.api = model.api) = false := by
    simp only [isSameModel, Bool.and_eq_true, decide_eq_true_eq] at hsame
    simp [hsame.2]
  obtain ⟨sent, hsent, hall⟩ := convertBlocks_becomes k hcontent hplain 0
  refine ⟨sent, hall, fun messages => ?_⟩
  have hassistant : convertAssistant N model k m = some sent := by
    rw [convertAssistant, hdifferent, hsent]
  rw [convertFrom, hassistant, Option.bind_some]
  by_cases hempty : sent.length = 0
  · refine ⟨k, ?_⟩
    rw [if_pos hempty, List.length_eq_zero_iff.mp hempty]
    cases convertFrom N model k messages <;> rfl
  · exact ⟨k + 1, if_neg hempty⟩

/-- The history has no message of a model. -/
def NoAssistant (messages : List Message) : Prop := ∀ m, .assistant m ∉ messages

theorem noAssistant_images {messages : List Message} (h : NoAssistant messages) :
    NoAssistant (downgradeUnsupportedImages messages model.toModel) := by
  intro m hmem
  obtain ⟨msg, hmsg, himage⟩ := List.mem_map.mp hmem
  cases msg with
  | assistant m' => exact h m' hmsg
  | user content timestamp =>
    obtain ⟨content', hcontent⟩ := @imageAware_user model.toModel content timestamp
    cases hcontent.symm.trans himage
  | toolResult r =>
    obtain ⟨r', hr, -⟩ := @imageAware_toolResult model.toModel r
    cases hr.symm.trans himage

theorem noAssistant_transformFrom : ∀ {messages : List Message}, NoAssistant messages → ∀ ids : OrdMap String String,
    NoAssistant (transformFrom model.toModel normalize ids messages)
  | [], h, _ => h
  | .user content timestamp :: messages, h, ids => by
    have hrest := noAssistant_transformFrom (fun m hm => h m (List.mem_cons_of_mem _ hm)) ids
    intro m hmem
    rcases List.mem_cons.mp hmem with heq | hmem
    · cases heq
    · exact hrest m hmem
  | .toolResult r :: messages, h, ids => by
    have hrest := noAssistant_transformFrom (fun m hm => h m (List.mem_cons_of_mem _ hm)) ids
    intro m hmem
    rcases List.mem_cons.mp hmem with heq | hmem
    · cases heq
    · exact hrest m hmem
  | .assistant m :: _, h, _ => absurd List.mem_cons_self (h m)

theorem noAssistant_fill : ∀ {messages : List Message}, NoAssistant messages → ∀ (n : ℕ) (pending : List ToolCall)
    (existing : List String), NoAssistant (fill now n pending existing messages)
  | [], _, n, pending, existing => by
    intro m hmem
    obtain ⟨r, hr⟩ := mem_synthetic hmem
    cases hr
  | .user content timestamp :: messages, h, n, pending, existing => by
    have hrest := noAssistant_fill (fun m hm => h m (List.mem_cons_of_mem _ hm))
    intro m hmem
    rcases List.mem_append.mp hmem with hmem | hmem
    · obtain ⟨r, hr⟩ := mem_synthetic hmem
      cases hr
    · rcases List.mem_cons.mp hmem with heq | hmem
      · cases heq
      · exact hrest _ _ _ m hmem
  | .toolResult r :: messages, h, n, pending, existing => by
    have hrest := noAssistant_fill (fun m hm => h m (List.mem_cons_of_mem _ hm))
    intro m hmem
    rcases List.mem_cons.mp hmem with heq | hmem
    · cases heq
    · exact hrest _ _ _ m hmem
  | .assistant m :: _, h, _, _, _ => absurd List.mem_cons_self (h m)

/-- Only a message of a model can have a reasoning item that cannot be read. -/
theorem convertFrom_of_noAssistant : ∀ {messages : List Message}, NoAssistant messages → ∀ k : ℕ,
    ∃ items, convertFrom N model k messages = some items
  | [], _, _ => ⟨[], rfl⟩
  | .user content timestamp :: messages, h, k => by
    have hrest := convertFrom_of_noAssistant (fun m hm => h m (List.mem_cons_of_mem _ hm))
    rw [convertFrom]
    cases convertUser content with
    | none => exact hrest k
    | some item =>
      obtain ⟨items, hitems⟩ := hrest (k + 1)
      exact ⟨item :: items, congrArg (Option.map (item :: ·)) hitems⟩
  | .toolResult r :: messages, h, k => by
    obtain ⟨items, hitems⟩ := convertFrom_of_noAssistant (fun m hm => h m (List.mem_cons_of_mem _ hm)) (k + 1)
    exact ⟨_, congrArg (Option.map (convertResult model r :: ·)) hitems⟩
  | .assistant m :: _, h, _ => absurd List.mem_cons_self (h m)

section

variable (N) (model) (now)

/-- In every history, the message is sent as the items: between what the messages before it are sent as and the rest. The
conversion fails for no reason of its own. -/
def Replayed (items : List OutputItem) (m : AssistantMessage) : Prop :=
  ∀ (before after : List Message) (systemPrompt : Option String) (allowed : List String) (includeSystemPrompt : Option Bool),
    (∀ output, convertResponsesMessages N model now ⟨systemPrompt, before ++ .assistant m :: after⟩ allowed includeSystemPrompt =
        some output → ∃ front replayed back,
          convertResponsesMessages N model now ⟨systemPrompt, before⟩ allowed includeSystemPrompt = some front ∧
            List.Forall₂ (Replays N) items replayed ∧ output = front ++ replayed ++ back) ∧
      (convertResponsesMessages N model now ⟨systemPrompt, before⟩ allowed includeSystemPrompt ≠ none → NoAssistant after →
        convertResponsesMessages N model now ⟨systemPrompt, before ++ .assistant m :: after⟩ allowed includeSystemPrompt ≠ none)

end

/-- The items of the message stand between those of the messages before it and the rest. -/
theorem converted_split {m : AssistantMessage} {items : List OutputItem} (hsame : isSameModel model.toModel m = true)
    (hfailed : m.failed = false) (hcontent : List.Forall₂ (Becomes N) items m.content) (hplain : ∀ item ∈ items, item.Plain)
    (before after : List Message) (systemPrompt : Option String) (allowed : List String) (includeSystemPrompt : Option Bool) :
    ∃ sent back, List.Forall₂ (Yields N) items sent ∧ (NoAssistant after → back ≠ none) ∧
      convertResponsesMessages N model now ⟨systemPrompt, before ++ .assistant m :: after⟩ allowed includeSystemPrompt =
        (convertResponsesMessages N model now ⟨systemPrompt, before⟩ allowed includeSystemPrompt).bind fun front =>
          back.map (front ++ sent ++ ·) := by
  unfold convertResponsesMessages
  dsimp only
  obtain ⟨n, ids, hsplit⟩ := @transformMessages_split N model (some (normalizeToolCallId model allowed)) now m items hsame hfailed
    hcontent before after
  rw [hsplit]
  generalize transformMessages now before model.toModel (some (normalizeToolCallId model allowed)) = front
  generalize hrest : fill now n m.toolCalls [] _ = rest
  obtain ⟨k, hk⟩ := @convertFrom_append N model (.assistant m :: rest) front 0
  obtain ⟨sent, hall, hsent⟩ := @convertFrom_becomes N model m items hsame hcontent hplain k
  obtain ⟨k', hk'⟩ := hsent rest
  refine ⟨sent, convertFrom N model k' rest, hall, fun hafter => ?_, ?_⟩
  · obtain ⟨back, hback⟩ := @convertFrom_of_noAssistant N model rest
      (hrest ▸ noAssistant_fill (noAssistant_transformFrom (noAssistant_images hafter) ids) n _ _) k'
    rw [hback]
    exact Option.some_ne_none back
  · rw [hk, hk']
    cases convertFrom N model 0 front with
    | none => rfl
    | some items =>
      cases convertFrom N model k' rest with
      | none => rfl
      | some back => simp

theorem forall_identified_iff {items : List OutputItem} {sent : List InputItem} (h : List.Forall₂ (Yields N) items sent) :
    List.Forall₂ (Replays N) items sent ↔ ∀ item ∈ items, item.Identified := by
  induction h with
  | nil => exact ⟨fun _ _ hitem => absurd hitem List.not_mem_nil, fun _ => .nil⟩
  | cons hfirst _ ih => rw [List.forall₂_cons, replays_iff hfirst, ih, List.forall_mem_cons]

/-- A message of items is sent as them exactly when each has what identifies it. -/
theorem replayed_iff_of_becomes {m : AssistantMessage} {items : List OutputItem} (hsame : isSameModel model.toModel m = true)
    (hfailed : m.failed = false) (hcontent : List.Forall₂ (Becomes N) items m.content) (hplain : ∀ item ∈ items, item.Plain) :
    Replayed N model now items m ↔ ∀ item ∈ items, item.Identified := by
  constructor
  · intro hreplayed
    obtain ⟨sent, back, hall, hback, hconvert⟩ := @converted_split N model now m items hsame hfailed hcontent hplain [] [] none []
      none
    obtain ⟨rest, hrest⟩ := Option.ne_none_iff_exists'.mp (hback fun _ h => absurd h List.not_mem_nil)
    have hempty : convertResponsesMessages N model now ⟨none, []⟩ [] none = some [] := rfl
    rw [hempty, hrest] at hconvert
    obtain ⟨front, replayed, back', hfront, hreplays, heq⟩ := (hreplayed [] [] none [] none).1 _ hconvert
    obtain rfl := Option.some.inj (hempty.symm.trans hfront)
    have hlength : sent.length = replayed.length := hall.length_eq.symm.trans hreplays.length_eq
    rw [List.nil_append, List.nil_append] at heq
    rw [← forall_identified_iff hall, (List.append_inj heq hlength).1]
    exact hreplays
  · intro hidentified before after systemPrompt allowed includeSystemPrompt
    obtain ⟨sent, back, hall, hback, hconvert⟩ := @converted_split N model now m items hsame hfailed hcontent hplain before after
      systemPrompt allowed includeSystemPrompt
    rw [hconvert]
    constructor
    · intro output houtput
      obtain ⟨front, hfront, houtput⟩ := Option.bind_eq_some_iff.mp houtput
      obtain ⟨rest, hrest, rfl⟩ := Option.map_eq_some_iff.mp houtput
      exact ⟨front, sent, rest, hfront, (forall_identified_iff hall).mpr hidentified, rfl⟩
    · intro hbefore hafter
      obtain ⟨front, hfront⟩ := Option.ne_none_iff_exists'.mp hbefore
      obtain ⟨rest, hrest⟩ := Option.ne_none_iff_exists'.mp (hback hafter)
      rw [hfront, hrest]
      exact Option.some_ne_none _

/-- **Items are replayed exactly when they are identified.** For items that are streamed one after the other, the stream is
put together to a message. Unless it ended in an error, the model it is from is sent the message as the items, in every
history, if and only if every call has an id of its own besides that of the call, and every message has an id that is not
empty. -/
theorem replayed_iff {items : List OutputItem} {events : List Event} (hstreams : Streams N items events)
    (hplain : ∀ item ∈ items, item.Plain) {output : AssistantMessage} (hsame : isSameModel model.toModel output = true)
    (hempty : output.content = []) : ∃ m pushed, processResponsesStream N partialParse events output = .ok (m, pushed) ∧
      (m.failed = false → (Replayed N model now items m ↔ ∀ item ∈ items, item.Identified)) := by
  obtain ⟨s, blocks, hrun, hnone, hcontent, hbecomes⟩ := @run_streams N partialParse items events hstreams
    ⟨output.content, none, none, output.responseId, output.usage, output.stopReason, []⟩ rfl
  refine ⟨_, s.pushed, by rw [processResponsesStream, hrun]; rfl, fun hfailed => ?_⟩
  refine replayed_iff_of_becomes hsame hfailed ?_ hplain
  have hblocks : s.blocks = blocks := by
    rw [Loop.blocks, hnone, hcontent, hempty]
    exact List.append_nil blocks
  exact hblocks ▸ hbecomes

/-! ### A call without an id -/

/-- The numbers of one digit. -/
def digitText : NumberText where
  read literal := match literal with
    | [c] => if c.isDigit then some (c.toNat - 48 : ℕ) else none
    | _ => none
  write q := [Char.ofNat (48 + q.num.toNat % 10)]
  read_one := rfl
  isNumber_write := by
    intro literal q _
    have hall : ∀ n < 10, JsonCodec.isNumber [Char.ofNat (48 + n)] = true := by decide
    exact hall _ (Nat.mod_lt _ (by decide))
  read_write := by
    intro literal q h
    split at h
    · next c =>
      split at h
      · next hdigit =>
        obtain rfl := Option.some.inj h
        have hn : c.toNat - 48 < 10 := by
          simp only [Char.isDigit, Bool.and_eq_true, decide_eq_true_eq, ge_iff_le, UInt32.le_iff_toNat_le] at hdigit
          have hle : c.toNat ≤ 57 := hdigit.2
          omega
        generalize c.toNat - 48 = n at hn
        have hall : ∀ n < 10, (Char.ofNat (48 + n)).isDigit = true ∧ (Char.ofNat (48 + n)).toNat - 48 = n := by decide
        rw [Rat.num_natCast, Int.toNat_natCast, Nat.mod_eq_of_lt hn, if_pos (hall n hn).1, (hall n hn).2]
      · cases h
    · cases h

def someModel : ResponsesModel := ⟨⟨"gpt-5", "openai-responses", "openai", ["text"]⟩, true⟩

def noOutput : AssistantMessage :=
  ⟨[], "openai-responses", "openai", "gpt-5", none, none, ⟨0, 0, 0, 0, 0⟩, .stop, none, 0⟩

/-- A reasoning item, with a summary that is not streamed. -/
def someReasoning : Json := .obj [("type", .str "reasoning"), ("id", .str "rs_1"), ("summary", .arr [])]

/-- A reasoning item, a message and a call. -/
def threeItems (id : Option String) : List OutputItem :=
  [.reasoning someReasoning, .message "msg_1" (some .commentary) [.outputText "Reading."],
    .functionCall id "call_1" "read" "\x7b\"n\":1\x7d"]

/-- The response that streams them. -/
def threeEvents (id : Option String) : List Event :=
  [.created "resp_1",
    .itemAdded (.reasoning someReasoning), .itemDone (.reasoning someReasoning),
    .itemAdded (.message "msg_1" none []), .contentPartAdded (some (.outputText "")), .outputTextDelta "Reading.",
    .itemDone (.message "msg_1" (some .commentary) [.outputText "Reading."]),
    .itemAdded (.functionCall id "call_1" "read" ""), .argumentsDelta "\x7b\"n\"", .argumentsDelta ":1\x7d",
    .argumentsDone "\x7b\"n\":1\x7d", .itemDone (.functionCall id "call_1" "read" "\x7b\"n\":1\x7d"),
    .completed (some ⟨some "resp_1", none, some .completed⟩)]

theorem streams_threeEvents (id : Option String) : Streams digitText (threeItems id) (threeEvents id) := by
  have hreasoning : StreamsItem digitText (.reasoning someReasoning)
      [.itemAdded (.reasoning someReasoning), .itemDone (.reasoning someReasoning)] :=
    .reasoning someReasoning someReasoning [] (fun _ h => absurd h List.not_mem_nil)
      (by simp [someReasoning, Held, JsonCodec.HeldMembers, JsonCodec.HeldElements])
  have hmessage : StreamsItem digitText (.message "msg_1" (some .commentary) [.outputText "Reading."])
      [.itemAdded (.message "msg_1" none []), .contentPartAdded (some (.outputText "")), .outputTextDelta "Reading.",
        .itemDone (.message "msg_1" (some .commentary) [.outputText "Reading."])] :=
    .message "msg_1" "msg_1" none (some .commentary) [] _
      [.contentPartAdded (some (.outputText "")), .outputTextDelta "Reading."] (by decide)
  have hcall : StreamsItem digitText (.functionCall id "call_1" "read" "\x7b\"n\":1\x7d")
      [.itemAdded (.functionCall id "call_1" "read" ""), .argumentsDelta "\x7b\"n\"", .argumentsDelta ":1\x7d",
        .argumentsDone "\x7b\"n\":1\x7d", .itemDone (.functionCall id "call_1" "read" "\x7b\"n\":1\x7d")] :=
    .functionCall id "call_1" "read" "" _ [("n", .num 1)] [.argumentsDelta "\x7b\"n\"", .argumentsDelta ":1\x7d"]
      [.argumentsDone "\x7b\"n\":1\x7d"] (by decide) (by simp [Event.isDelta, Event.argumentsDelta?, Event.argumentsDone?])
      (by decide) (by decide +kernel)
  exact .aside rfl (.item hreasoning (.item hmessage (.item hcall (.aside rfl .nil))))

theorem plain_threeItems : ∀ item ∈ threeItems (some "fc_1"), item.Plain := by
  simp [threeItems, OutputItem.Plain]
  decide

theorem replayed_threeItems : ∃ m pushed,
    processResponsesStream digitText (fun _ => none) (threeEvents (some "fc_1")) noOutput = .ok (m, pushed) ∧
      Replayed digitText someModel (fun _ => 0) (threeItems (some "fc_1")) m := by
  obtain ⟨m, pushed, hrun, hreplayed⟩ := @replayed_iff digitText (fun _ => none) someModel (fun _ => 0) (threeItems (some "fc_1"))
    (threeEvents (some "fc_1")) (streams_threeEvents _) plain_threeItems noOutput rfl rfl
  have hfailed : (processResponsesStream digitText (fun _ => none) (threeEvents (some "fc_1")) noOutput).toOption.map
      (·.1.failed) = some false := by decide +kernel
  rw [hrun] at hfailed
  exact ⟨m, pushed, hrun, (hreplayed (Option.some.inj hfailed)).mpr (by simp [threeItems, OutputItem.Identified])⟩

/-- The call is sent with the id `undefined`. -/
theorem id_made_up : ∃ m pushed,
    processResponsesStream digitText (fun _ => none) (threeEvents none) noOutput = .ok (m, pushed) ∧ m.failed = false ∧
      ¬ Replayed digitText someModel (fun _ => 0) (threeItems none) m := by
  have hsent : (processResponsesStream digitText (fun _ => none) (threeEvents none) noOutput).toOption.map (fun r =>
      (r.1.failed, convertResponsesMessages digitText someModel (fun _ => 0)
        ⟨none, [] ++ [Message.assistant r.1]⟩ [] none)) =
    some (false, some [.reasoning someReasoning, .message "Reading." "msg_1" (some .commentary),
      .functionCall (some "undefined") "call_1" "read" "\x7b\"n\":1\x7d",
      .functionCallOutput "call_1" (.text "No result provided")]) := by decide +kernel
  cases hrun : processResponsesStream digitText (fun _ => none) (threeEvents none) noOutput with
  | error message => rw [hrun] at hsent; cases hsent
  | ok r =>
    obtain ⟨m, pushed⟩ := r
    rw [hrun] at hsent
    obtain ⟨hfailed, hconvert⟩ := Prod.mk.inj (Option.some.inj hsent)
    refine ⟨m, pushed, rfl, hfailed, fun hreplayed => ?_⟩
    obtain ⟨front, replayed, back, hfront, hitems, houtput⟩ := (hreplayed [] [] none [] none).1 _ hconvert
    obtain rfl : [] = front := Option.some.inj hfront
    -- the third item that is sent has an id, which that of the response has not
    rcases hitems with _ | ⟨-, _ | ⟨-, _ | ⟨hcall, -⟩⟩⟩
    cases hcall
    simp at houtput

end Trek.Ai.Responses
