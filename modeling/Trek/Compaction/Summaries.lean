/-
# What a compaction asks for and what it returns

`compact` of `core/compaction/compaction.ts`: a request for a summary of the messages cut off, next
to it one for the start of a turn that is split, and the summary put together from the replies. The
summary of the compaction before goes into the first request. Where the turn that is split is all
there is to summarize that request is not made, and the summary before is dropped
(`compact_keepsPreviousSummary_iff`).
-/
import Trek.Compaction.Conversation

namespace Trek

/-! ### Prompts -/

def COMPACTION_LESSON_RULE : String := "Keep the user intent, lesson ids, and errors. Drop verbose tool output."

def SUMMARIZATION_SYSTEM_PROMPT : String :=
  "\n".intercalate [
    "You are a context summarization assistant. Your task is to read a conversation between a user and an AI coding assistant, then produce a structured summary following the exact format specified.",
    "",
    "Do NOT continue the conversation. Do NOT respond to any questions in the conversation. ONLY output the structured summary."]

def SUMMARIZATION_PROMPT : String :=
  "\n".intercalate [
    "The messages above are a conversation to summarize. Create a structured context checkpoint summary that another LLM will use to continue the work.",
    "", "Use this EXACT format:", "", "## Goal",
    "[What is the user trying to accomplish? Can be multiple items if the session covers different tasks.]", "",
    "## Constraints & Preferences", "- [Any constraints, preferences, or requirements mentioned by user]",
    "- [Or \"(none)\" if none were mentioned]", "", "## Progress", "### Done", "- [x] [Completed tasks/changes]", "",
    "### In Progress", "- [ ] [Current work]", "", "### Blocked", "- [Issues preventing progress, if any]", "",
    "## Key Decisions", "- **[Decision]**: [Brief rationale]", "", "## Next Steps",
    "1. [Ordered list of what should happen next]", "", "## Critical Context",
    "- [Any data, examples, or references needed to continue]", "- [Or \"(none)\" if not applicable]", "",
    "Keep each section concise. Preserve exact file paths, function names, and error messages.",
    COMPACTION_LESSON_RULE]

def UPDATE_SUMMARIZATION_PROMPT : String :=
  "\n".intercalate [
    "The messages above are NEW conversation messages to incorporate into the existing summary provided in <previous-summary> tags.",
    "", "Update the existing structured summary with new information. RULES:",
    "- PRESERVE all existing information from the previous summary",
    "- ADD new progress, decisions, and context from the new messages",
    "- UPDATE the Progress section: move items from \"In Progress\" to \"Done\" when completed",
    "- UPDATE \"Next Steps\" based on what was accomplished",
    "- PRESERVE exact file paths, function names, and error messages",
    "- If something is no longer relevant, you may remove it", "", "Use this EXACT format:", "", "## Goal",
    "[Preserve existing goals, add new ones if the task expanded]", "", "## Constraints & Preferences",
    "- [Preserve existing, add new ones discovered]", "", "## Progress", "### Done",
    "- [x] [Include previously done items AND newly completed items]", "", "### In Progress",
    "- [ ] [Current work - update based on progress]", "", "### Blocked",
    "- [Current blockers - remove if resolved]", "", "## Key Decisions",
    "- **[Decision]**: [Brief rationale] (preserve all previous, add new)", "", "## Next Steps",
    "1. [Update based on current state]", "", "## Critical Context",
    "- [Preserve important context, add new if needed]", "",
    "Keep each section concise. Preserve exact file paths, function names, and error messages.",
    COMPACTION_LESSON_RULE]

def TURN_PREFIX_SUMMARIZATION_PROMPT : String :=
  "\n".intercalate [
    "This is the PREFIX of a turn that was too large to keep. The SUFFIX (recent work) is retained.", "",
    "Summarize the prefix to provide context for the retained suffix:", "", "## Original Request",
    "[What did the user ask for in this turn?]", "", "## Early Progress",
    "- [Key decisions and work done in the prefix]", "", "## Context for Suffix",
    "- [Information needed to understand the retained recent work]", "",
    "Be concise. Focus on what's needed to understand the kept suffix.", COMPACTION_LESSON_RULE]

/-! ### Requests and their replies -/

/-- The texts a request for a summary sends. -/
structure SummarizationRequest where
  systemPrompt : String
  promptText : String
  deriving DecidableEq

/-- `CompactionResult`. -/
structure CompactionResult where
  summary : String
  firstKeptEntryId : String
  tokensBefore : ℕ
  readFiles : List String
  modifiedFiles : List String
  deriving DecidableEq

/-- Requests that are sent, and what comes of their replies. -/
abbrev Summarizing (α : Type) := List SummarizationRequest × Except String α

/-- The text of a reply. -/
def summaryText (failure : String) (response : AssistantMessage) : Except String String :=
  if response.stopReason = .error then
    .error (failure ++ ": " ++
      match response.errorMessage with
      | some message => if truthy message then message else "Unknown error"
      | none => "Unknown error")
  else
    .ok (String.intercalate "\n" (response.content.filterMap fun
      | .text text => some text
      | _ => none))

section

variable (stringify : Json → String) (complete : SummarizationRequest → AssistantMessage)

/-- The request of `generateSummary`. -/
def summaryRequest (currentMessages : List AgentMessage) (customInstructions previousSummary : Option String) :
    SummarizationRequest :=
  let given (text : Option String) : Option String := text.filter truthy
  let basePrompt := if (given previousSummary).isSome then UPDATE_SUMMARIZATION_PROMPT else SUMMARIZATION_PROMPT
  let basePrompt := match given customInstructions with
    | some instructions => basePrompt ++ "\n\nAdditional focus: " ++ instructions
    | none => basePrompt
  let conversationText := serializeConversation stringify (convertToLlm currentMessages)
  let promptText := "<conversation>\n" ++ conversationText ++ "\n</conversation>\n\n"
  let promptText := match given previousSummary with
    | some summary => promptText ++ ("<previous-summary>\n" ++ summary ++ "\n</previous-summary>\n\n")
    | none => promptText
  ⟨SUMMARIZATION_SYSTEM_PROMPT, promptText ++ basePrompt⟩

/-- `generateSummary`. -/
def generateSummary (currentMessages : List AgentMessage) (customInstructions previousSummary : Option String) :
    Summarizing String :=
  let request := summaryRequest stringify currentMessages customInstructions previousSummary
  ([request], summaryText "Summarization failed" (complete request))

/-- The request of `generateTurnPrefixSummary`. -/
def turnPrefixRequest (messages : List AgentMessage) : SummarizationRequest :=
  let conversationText := serializeConversation stringify (convertToLlm messages)
  ⟨SUMMARIZATION_SYSTEM_PROMPT,
    "<conversation>\n" ++ conversationText ++ "\n</conversation>\n\n" ++ TURN_PREFIX_SUMMARIZATION_PROMPT⟩

/-- `generateTurnPrefixSummary`. -/
def generateTurnPrefixSummary (messages : List AgentMessage) : Summarizing String :=
  let request := turnPrefixRequest stringify messages
  ([request], summaryText "Turn prefix summarization failed" (complete request))

/-- What stands for the history where there is none. -/
def NO_PRIOR_HISTORY : String := "No prior history."

/-- What stands between the two summaries. -/
def TURN_CONTEXT : String := "\n\n---\n\n**Turn Context (split turn):**\n\n"

/-- The summary, before the files are added. Where both requests fail the first failure is reported. -/
def summarize (p : CompactionPreparation) (customInstructions : Option String) : Summarizing String :=
  if p.isSplitTurn ∧ p.turnPrefixMessages ≠ [] then
    let history : Summarizing String :=
      if p.messagesToSummarize ≠ [] then
        generateSummary stringify complete p.messagesToSummarize customInstructions p.previousSummary
      else ([], .ok NO_PRIOR_HISTORY)
    let turnPrefix := generateTurnPrefixSummary stringify complete p.turnPrefixMessages
    (history.1 ++ turnPrefix.1, do
      let historyResult ← history.2
      let turnPrefixResult ← turnPrefix.2
      pure (historyResult ++ TURN_CONTEXT ++ turnPrefixResult))
  else generateSummary stringify complete p.messagesToSummarize customInstructions p.previousSummary

/-- `compact`. -/
def compact (p : CompactionPreparation) (customInstructions : Option String) : Summarizing CompactionResult :=
  let summarized := summarize stringify complete p customInstructions
  (summarized.1, do
    let summary ← summarized.2
    let files := computeFileLists p.fileOps
    if truthy p.firstKeptEntryId then
      pure ⟨summary ++ formatFileOperations files.1 files.2, p.firstKeptEntryId, p.tokensBefore, files.1, files.2⟩
    else throw "First kept entry has no UUID - session may need migration")

end

/-! ### The summary of the compaction before -/

/-- A text is found in another one. -/
def Occurs (s t : String) : Prop := s.toList <:+: t.toList

/-- A text is found in a request. -/
def SummarizationRequest.Contains (request : SummarizationRequest) (text : String) : Prop :=
  Occurs text request.systemPrompt ∨ Occurs text request.promptText

/-- Whatever the replies are, if `compact` returns then one of its requests or the summary it returns
contains the summary before. -/
def KeepsPreviousSummary (stringify : Json → String) (p : CompactionPreparation) (customInstructions : Option String)
    (previousSummary : String) : Prop :=
  ∀ complete result, (compact stringify complete p customInstructions).2 = .ok result →
    (∃ request ∈ (compact stringify complete p customInstructions).1, request.Contains previousSummary) ∨
      Occurs previousSummary result.summary

/-- There is nothing to summarize but the start of the turn that is split. -/
def OnlyTurnPrefix (p : CompactionPreparation) : Prop :=
  p.isSplitTurn = true ∧ p.turnPrefixMessages ≠ [] ∧ p.messagesToSummarize = []

/-- The text occurs by itself in what is said about the start of a turn. -/
def OccursAnyway (stringify : Json → String) (p : CompactionPreparation) (text : String) : Prop :=
  (turnPrefixRequest stringify p.turnPrefixMessages).Contains text ∨ Occurs text (NO_PRIOR_HISTORY ++ TURN_CONTEXT) ∨
    Occurs text (formatFileOperations (computeFileLists p.fileOps).1 (computeFileLists p.fileOps).2)

theorem occurs_append_left {s t : String} (h : Occurs s t) (u : String) : Occurs s (t ++ u) := by
  rw [Occurs, String.toList_append]
  exact List.infix_append_of_infix_left h

theorem occurs_append_right {s u : String} (t : String) (h : Occurs s u) : Occurs s (t ++ u) := by
  rw [Occurs, String.toList_append]
  exact List.infix_append_of_infix_right h

theorem occurs_self (s : String) : Occurs s s := List.infix_rfl

variable {stringify : Json → String} {p : CompactionPreparation} {customInstructions : Option String}
  {previousSummary : String}

/-- The request for a summary contains the summary before. -/
theorem summaryRequest_contains (messages : List AgentMessage) (hprev : previousSummary ≠ "") :
    (summaryRequest stringify messages customInstructions (some previousSummary)).Contains previousSummary := by
  refine Or.inr ?_
  have hgiven : (some previousSummary).filter truthy = some previousSummary := by simp [truthy, hprev]
  simp only [summaryRequest, hgiven]
  exact occurs_append_left (occurs_append_right _
    (occurs_append_left (occurs_append_right _ (occurs_self _)) _)) _

/-- Where there is anything else to summarize, one of the requests contains the summary before. -/
theorem compact_contains (complete : SummarizationRequest → AssistantMessage) (hp : ¬ OnlyTurnPrefix p)
    (hprev : previousSummary ≠ "") (hsome : p.previousSummary = some previousSummary) :
    ∃ request ∈ (compact stringify complete p customInstructions).1, request.Contains previousSummary := by
  refine ⟨summaryRequest stringify p.messagesToSummarize customInstructions (some previousSummary), ?_,
    summaryRequest_contains p.messagesToSummarize hprev⟩
  simp only [compact, summarize]
  split
  · rename_i hsplit
    have hhistory : p.messagesToSummarize ≠ [] := fun h => hp ⟨hsplit.1, hsplit.2, h⟩
    rw [if_pos hhistory, ← hsome]
    exact List.mem_append_left _ (List.mem_singleton_self _)
  · rw [← hsome]
    exact List.mem_singleton_self _

/-- The request that is made where there is nothing but the start of a turn. -/
theorem compact_requests (complete : SummarizationRequest → AssistantMessage) (hp : OnlyTurnPrefix p) :
    (compact stringify complete p customInstructions).1 = [turnPrefixRequest stringify p.turnPrefixMessages] := by
  simp only [compact, summarize, if_pos (And.intro hp.1 hp.2.1), if_neg (not_not.mpr hp.2.2)]
  rfl

/-- What `compact` returns there. -/
theorem compact_result (complete : SummarizationRequest → AssistantMessage) (hp : OnlyTurnPrefix p)
    {result : CompactionResult} (h : (compact stringify complete p customInstructions).2 = .ok result) :
    p.firstKeptEntryId ≠ "" ∧ ∃ text, result.summary = NO_PRIOR_HISTORY ++ TURN_CONTEXT ++ text ++
      formatFileOperations (computeFileLists p.fileOps).1 (computeFileLists p.fileOps).2 := by
  simp only [compact, summarize, if_pos (And.intro hp.1 hp.2.1), if_neg (not_not.mpr hp.2.2)] at h
  cases htext : (generateTurnPrefixSummary stringify complete p.turnPrefixMessages).2 with
  | error failure =>
    rw [htext] at h
    cases h
  | ok text =>
    rw [htext] at h
    by_cases hid : truthy p.firstKeptEntryId = true
    · simp only [if_pos hid] at h
      cases h
      exact ⟨of_decide_eq_true hid, text, rfl⟩
    · simp only [if_neg hid] at h
      cases h

/-- A reply with one text. -/
def textReply (text : String) : AssistantMessage := ⟨[.text text], "", "", "", none, .stop, none, 0⟩

theorem compact_textReply (stringify : Json → String) (customInstructions : Option String) (text : String) (hp : OnlyTurnPrefix p) (hid : p.firstKeptEntryId ≠ "") :
    ∃ result, (compact stringify (fun _ => textReply text) p customInstructions).2 = .ok result ∧
      result.summary = NO_PRIOR_HISTORY ++ TURN_CONTEXT ++ text ++
        formatFileOperations (computeFileLists p.fileOps).1 (computeFileLists p.fileOps).2 := by
  have htruthy : truthy p.firstKeptEntryId = true := decide_eq_true hid
  simp only [compact, summarize, if_pos (And.intro hp.1 hp.2.1), if_neg (not_not.mpr hp.2.2), if_pos htruthy]
  exact ⟨_, rfl, rfl⟩

/-- Some character is neither the first nor the last of a text. -/
theorem exists_other_char (l : List Char) : ∃ c, l.head? ≠ some c ∧ l.getLast? ≠ some c := by
  by_cases ha : l.head? ≠ some 'a' ∧ l.getLast? ≠ some 'a'
  · exact ⟨'a', ha⟩
  · by_cases hb : l.head? ≠ some 'b' ∧ l.getLast? ≠ some 'b'
    · exact ⟨'b', hb⟩
    · refine ⟨'c', fun hc => ?_, fun hc => ?_⟩ <;> grind

/-- **Whatever the replies are, the summary before goes into a request or the returned summary, just if
there is more to summarize than the start of a turn that is split, or nothing is returned, or the
text of the summary is found there anyway.** -/
theorem compact_keepsPreviousSummary_iff (stringify : Json → String) (p : CompactionPreparation)
    (customInstructions : Option String) (previousSummary : String) (hprev : previousSummary ≠ "")
    (hsome : p.previousSummary = some previousSummary) :
    KeepsPreviousSummary stringify p customInstructions previousSummary ↔
      ¬ OnlyTurnPrefix p ∨ p.firstKeptEntryId = "" ∨ OccursAnyway stringify p previousSummary := by
  by_cases hp : OnlyTurnPrefix p
  · constructor
    · intro h
      by_cases hid : p.firstKeptEntryId = ""
      · exact Or.inr (Or.inl hid)
      refine Or.inr (Or.inr ?_)
      -- a reply that neither contains the summary nor completes it on either side
      obtain ⟨c, hhead, hlast⟩ := exists_other_char previousSummary.toList
      obtain ⟨result, hresult, hsummary⟩ :=
        compact_textReply stringify customInstructions
          (String.ofList (List.replicate previousSummary.toList.length c)) hp hid
      rcases h _ result hresult with ⟨request, hrequest, hcontains⟩ | hoccurs
      · rw [compact_requests _ hp, List.mem_singleton] at hrequest
        exact Or.inl (hrequest ▸ hcontains)
      · rw [hsummary, Occurs, String.toList_append, String.toList_append, String.toList_ofList,
          List.append_assoc] at hoccurs
        have hne : previousSummary.toList ≠ [] := fun he => hprev (String.toList_inj.mp he)
        exact Or.inr (infix_of_infix_replicate hne hhead hlast le_rfl hoccurs)
    · rintro (h | hid | hanyway) complete result hresult
      · exact absurd hp h
      · exact absurd hid (compact_result complete hp hresult).1
      · obtain ⟨-, text, hsummary⟩ := compact_result complete hp hresult
        rcases hanyway with hrequest | hfixed | hfiles
        · rw [compact_requests complete hp]
          exact Or.inl ⟨_, List.mem_singleton_self _, hrequest⟩
        · rw [hsummary]
          exact Or.inr (occurs_append_left (occurs_append_left hfixed _) _)
        · rw [hsummary]
          exact Or.inr (occurs_append_right _ hfiles)
  · exact iff_of_true (fun complete _ _ => Or.inl (compact_contains complete hp hprev hsome)) (Or.inl hp)

/-! ### A long turn right after a compaction -/

/-- The session was compacted before, and the turn that is split is the first one kept. -/
def longTurn : CompactionPreparation :=
  ⟨"e", [], [.user (.text "go on") 0], true, 10, some "Goal: a 3×4 grid", ⟨[], [], []⟩, ⟨true, 1, 1⟩⟩

theorem not_occurs_of_not_mem {s t : String} {c : Char} (hs : c ∈ s.toList) (ht : c ∉ t.toList) : ¬ Occurs s t :=
  fun h => ht (h.subset hs)

theorem notMem_intercalate {c : Char} {sep : String} {lines : List String} (hsep : c ∉ sep.toList)
    (hlines : ∀ line ∈ lines, c ∉ line.toList) : c ∉ (sep.intercalate lines).toList := by
  rw [String.toList_intercalate]
  induction lines with
  | nil => exact List.not_mem_nil
  | cons line lines ih =>
    obtain ⟨hline, hlines⟩ := List.forall_mem_cons.mp hlines
    cases lines with
    | nil => simpa [List.intercalate] using hline
    | cons next lines =>
      rw [List.map_cons, List.map_cons, List.intercalate_cons_cons, List.mem_append, List.mem_append, not_or, not_or]
      exact ⟨⟨hline, hsep⟩, ih hlines⟩

theorem systemPrompt_toList : '×' ∉ SUMMARIZATION_SYSTEM_PROMPT.toList := by
  apply notMem_intercalate (by decide)
  simp only [List.forall_mem_cons, List.not_mem_nil, false_implies, implies_true, and_true]
  and_intros <;> rw [String.toList_ofList] <;> decide

theorem turnPrefixPrompt_toList : '×' ∉ TURN_PREFIX_SUMMARIZATION_PROMPT.toList := by
  unfold TURN_PREFIX_SUMMARIZATION_PROMPT COMPACTION_LESSON_RULE
  apply notMem_intercalate (by decide)
  simp only [List.forall_mem_cons, List.not_mem_nil, false_implies, implies_true, and_true]
  and_intros <;> rw [String.toList_ofList] <;> decide

theorem longTurn_onlyTurnPrefix : OnlyTurnPrefix longTurn := ⟨rfl, List.cons_ne_nil _ _, rfl⟩

/-- The summary before is neither asked about nor returned. -/
theorem longTurn_not_keepsPreviousSummary :
    ¬ KeepsPreviousSummary (fun _ => "") longTurn none "Goal: a 3×4 grid" := by
  intro h
  have hmem : '×' ∈ "Goal: a 3×4 grid".toList := by decide
  obtain ⟨result, hresult, hsummary⟩ := compact_textReply (fun _ => "") none "ok"
    longTurn_onlyTurnPrefix (by decide)
  rcases h _ result hresult with ⟨request, hrequest, hcontains⟩ | hoccurs
  · rw [compact_requests _ longTurn_onlyTurnPrefix, List.mem_singleton] at hrequest
    subst hrequest
    rcases hcontains with hsystem | hprompt
    · exact not_occurs_of_not_mem hmem systemPrompt_toList hsystem
    · refine not_occurs_of_not_mem hmem ?_ hprompt
      rw [turnPrefixRequest, String.toList_append, List.mem_append, not_or]
      exact ⟨by decide, turnPrefixPrompt_toList⟩
  · rw [hsummary] at hoccurs
    exact not_occurs_of_not_mem hmem (by decide +kernel) hoccurs

/-- With one message before the turn the summary is kept. -/
theorem longTurn_keepsPreviousSummary : KeepsPreviousSummary (fun _ => "")
    { longTurn with messagesToSummarize := [.user (.text "hello") 0] } none "Goal: a 3×4 grid" :=
  (compact_keepsPreviousSummary_iff (fun _ => "") { longTurn with messagesToSummarize := [.user (.text "hello") 0] } none
    "Goal: a 3×4 grid" (by decide) rfl).mpr (Or.inl fun h => List.cons_ne_nil _ _ h.2.2)

end Trek
