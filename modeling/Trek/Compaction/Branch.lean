/-
# What the summary of a branch is made from

`prepareBranchEntries` of `core/compaction/branch-summarization.ts` walks the entries of a branch from the newest one back
and takes their messages until the next one does not fit into the budget, a summary apart, which may go beyond it. So the
messages are those of the newest entries (`prepareBranchEntries_spec`). The files of the branch are collected on the way,
and those of its summaries before the walk, unless a hook made them.
-/
import Trek.Compaction.Prepare

namespace Trek

/-! ### File operations -/

/-- A file is read, written or edited. -/
inductive FileOperation
  | read (path : String)
  | written (path : String)
  | edited (path : String)
  deriving DecidableEq

/-- A file operation was collected. -/
def FileOperations.Has (fileOps : FileOperations) : FileOperation → Prop
  | .read path => path ∈ fileOps.read
  | .written path => path ∈ fileOps.written
  | .edited path => path ∈ fileOps.edited

/-- The operation that a tool call stands for. -/
def ToolCall.operation (call : ToolCall) : Option FileOperation :=
  match call.arguments.get? "path" with
  | some (.str path) =>
    if truthy path then
      if call.name = "read" then some (.read path)
      else if call.name = "write" then some (.written path)
      else if call.name = "edit" then some (.edited path)
      else none
    else none
  | _ => none

/-- The operations of the tool calls of an assistant message. -/
def AgentMessage.operations : AgentMessage → List FileOperation
  | .assistant a => a.toolCalls.filterMap (·.operation)
  | _ => []

/-- The operations in the details of a summary. -/
def detailOperations (details : Json) : List FileOperation :=
  (detailFiles details "readFiles").map .read ++ (detailFiles details "modifiedFiles").map .edited

@[simp] theorem mem_setAdd {s : List String} {x y : String} : y ∈ setAdd s x ↔ y ∈ s ∨ y = x := by
  unfold setAdd
  split
  · next h => exact ⟨Or.inl, fun hy => hy.elim id fun heq => heq ▸ h⟩
  · simp

theorem mem_foldl_setAdd {y : String} : ∀ {xs s : List String}, y ∈ xs.foldl setAdd s ↔ y ∈ s ∨ y ∈ xs
  | [], _ => by simp
  | x :: xs, s => by
    rw [List.foldl_cons, mem_foldl_setAdd, mem_setAdd, List.mem_cons, or_assoc]

/-- The operations with one more. -/
def FileOperations.add (fileOps : FileOperations) : FileOperation → FileOperations
  | .read path => { fileOps with read := setAdd fileOps.read path }
  | .written path => { fileOps with written := setAdd fileOps.written path }
  | .edited path => { fileOps with edited := setAdd fileOps.edited path }

theorem has_add {fileOps : FileOperations} {op op' : FileOperation} :
    (fileOps.add op').Has op ↔ fileOps.Has op ∨ op = op' := by
  cases op' <;> cases op <;> simp [FileOperations.add, FileOperations.Has]

/-- A message adds the operations of its tool calls, one after the other. -/
theorem extractFileOpsFromMessage_eq (fileOps : FileOperations) (message : AgentMessage) :
    extractFileOpsFromMessage fileOps message = message.operations.foldl FileOperations.add fileOps := by
  cases message with
  | assistant a =>
    simp only [extractFileOpsFromMessage, AgentMessage.operations, List.foldl_filterMap]
    apply List.foldl_ext
    intro fileOps call _
    unfold ToolCall.operation
    cases call.arguments.get? "path" with
    | none => rfl
    | some value =>
      cases value with
      | str path =>
        dsimp only
        split_ifs <;> rfl
      | _ => rfl
  | _ => rfl

theorem has_foldl_add {op : FileOperation} : ∀ {ops : List FileOperation} {fileOps : FileOperations},
    (ops.foldl FileOperations.add fileOps).Has op ↔ fileOps.Has op ∨ op ∈ ops
  | [], _ => by simp
  | op' :: ops, fileOps => by rw [List.foldl_cons, has_foldl_add, has_add, List.mem_cons, or_assoc]

theorem has_extractFileOpsFromMessage {fileOps : FileOperations} {message : AgentMessage} {op : FileOperation} :
    (extractFileOpsFromMessage fileOps message).Has op ↔ fileOps.Has op ∨ op ∈ message.operations := by
  rw [extractFileOpsFromMessage_eq, has_foldl_add]

namespace BranchSummarization

/-! ### The preparation -/

/-- `BranchPreparation`. -/
structure BranchPreparation where
  messages : List AgentMessage
  fileOps : FileOperations
  totalTokens : ℕ
  deriving DecidableEq

/-- A compaction or the summary of a branch. -/
def isSummary (entry : SessionEntry) : Bool :=
  match entry.body with
  | .compaction .. | .branchSummary .. => true
  | _ => false

/-- The first pass adds the files of the summaries that no hook made. -/
def collectDetails (fileOps : FileOperations) (entry : SessionEntry) : FileOperations :=
  match entry.body with
  | .branchSummary _ _ (some details) fromHook =>
    if fromHook.getD false then fileOps
    else
      { fileOps with
        read := (detailFiles details "readFiles").foldl setAdd fileOps.read
        edited := (detailFiles details "modifiedFiles").foldl setAdd fileOps.edited }
  | _ => fileOps

section

variable (getTime : String → ℤ) (argumentsLength : Json → ℕ)

/-- `getMessageFromEntry`. -/
def getMessageFromEntry (entry : SessionEntry) : Option AgentMessage :=
  match entry.body with
  | .message (.toolResult _) => none
  | .message message => some message
  | .customMessage customType content details display =>
    some (createCustomMessage getTime customType content display details entry.timestamp)
  | .branchSummary fromId summary _ _ => some (createBranchSummaryMessage getTime summary fromId entry.timestamp)
  | .compaction summary _ tokensBefore _ _ _ =>
    some (createCompactionSummaryMessage getTime summary tokensBefore entry.timestamp)
  | .thinkingLevelChange _ | .modelChange .. | .custom .. | .label .. | .sessionInfo _ | .promptMeta .. => none

/-- The second pass, from the newest entry back. -/
def walkBack (tokenBudget : ℚ) : List SessionEntry → BranchPreparation → BranchPreparation
  | [], p => p
  | entry :: older, p =>
    match getMessageFromEntry getTime entry with
    | none => walkBack tokenBudget older p
    | some message =>
      let p := { p with fileOps := extractFileOpsFromMessage p.fileOps message }
      let tokens := estimateTokens argumentsLength message
      if 0 < tokenBudget ∧ tokenBudget < (p.totalTokens + tokens : ℕ) then
        if isSummary entry ∧ (p.totalTokens : ℚ) < tokenBudget * (9 / 10) then
          { p with messages := message :: p.messages, totalTokens := p.totalTokens + tokens }
        else p
      else walkBack tokenBudget older { p with messages := message :: p.messages, totalTokens := p.totalTokens + tokens }

/-- `prepareBranchEntries`. A budget that is not positive is no limit. -/
def prepareBranchEntries (entries : List SessionEntry) (tokenBudget : ℚ) : BranchPreparation :=
  walkBack getTime argumentsLength tokenBudget entries.reverse
    { messages := [], fileOps := entries.foldl collectDetails ⟨[], [], []⟩, totalTokens := 0 }

end

/-! ### What is prepared -/

section

variable {getTime : String → ℤ} {argumentsLength : Json → ℕ}

/-- The messages of entries. -/
def messagesOf (getTime : String → ℤ) (entries : List SessionEntry) : List AgentMessage :=
  entries.filterMap (getMessageFromEntry getTime)

/-- The estimated tokens of messages. -/
def tokensOf (argumentsLength : Json → ℕ) (messages : List AgentMessage) : ℕ :=
  (messages.map (estimateTokens argumentsLength)).sum

theorem messagesOf_append (entries entries' : List SessionEntry) :
    messagesOf getTime (entries ++ entries') = messagesOf getTime entries ++ messagesOf getTime entries' :=
  List.filterMap_append

theorem messagesOf_singleton_some {entry : SessionEntry} {message : AgentMessage}
    (h : getMessageFromEntry getTime entry = some message) : messagesOf getTime [entry] = [message] := by
  rw [messagesOf, List.filterMap_cons_some h]
  rfl

theorem messagesOf_singleton_none {entry : SessionEntry} (h : getMessageFromEntry getTime entry = none) :
    messagesOf getTime [entry] = [] := by
  rw [messagesOf, List.filterMap_cons_none h]
  rfl

/-- The messages are those of the newest entries, and of all entries where there is no limit. They stay within the budget,
or the oldest one is a summary and those after it do not amount to nine tenths of the budget. -/
structure NewestWithin (getTime : String → ℤ) (argumentsLength : Json → ℕ) (tokenBudget : ℚ) (entries : List SessionEntry)
    (p : BranchPreparation) (older newer : List SessionEntry) : Prop where
  entries : entries = older ++ newer
  messages : p.messages = messagesOf getTime newer
  totalTokens : p.totalTokens = tokensOf argumentsLength p.messages
  unlimited : ¬ 0 < tokenBudget → older = []
  budget : 0 < tokenBudget → (p.totalTokens : ℚ) ≤ tokenBudget ∨
    ∃ summary rest, newer = summary :: rest ∧ isSummary summary = true ∧
      (tokensOf argumentsLength (messagesOf getTime rest) : ℚ) < tokenBudget * (9 / 10)

/-- The walk goes on from the newest entries. -/
theorem walkBack_spec {tokenBudget : ℚ} : ∀ (older : List SessionEntry) {newer : List SessionEntry} {p : BranchPreparation},
    p.messages = messagesOf getTime newer → p.totalTokens = tokensOf argumentsLength p.messages →
    (0 < tokenBudget → (p.totalTokens : ℚ) ≤ tokenBudget) →
      ∃ older' newer', NewestWithin getTime argumentsLength tokenBudget (older.reverse ++ newer)
        (walkBack getTime argumentsLength tokenBudget older p) older' newer'
  | [], newer, p, hmessages, htokens, hbudget =>
    ⟨[], newer, rfl, hmessages, htokens, fun _ => rfl, fun hpos => Or.inl (hbudget hpos)⟩
  | entry :: older, newer, p, hmessages, htokens, hbudget => by
    have hassoc : (entry :: older).reverse ++ newer = older.reverse ++ ([entry] ++ newer) := by simp
    rw [hassoc]
    unfold walkBack
    cases hmessage : getMessageFromEntry getTime entry with
    | none =>
      refine walkBack_spec older ?_ htokens hbudget
      rw [messagesOf_append, messagesOf_singleton_none hmessage]
      exact hmessages
    | some message =>
      have hmessages' : message :: p.messages = messagesOf getTime ([entry] ++ newer) := by
        rw [messagesOf_append, messagesOf_singleton_some hmessage, hmessages]
        rfl
      have htokens' : p.totalTokens + estimateTokens argumentsLength message =
          tokensOf argumentsLength (message :: p.messages) := by
        rw [htokens, Nat.add_comm]
        rfl
      dsimp only
      split
      · next hover =>
        split
        · next hsummary =>
          refine ⟨older.reverse, [entry] ++ newer, rfl, hmessages', htokens', fun hpos => absurd hover.1 hpos, fun _ => ?_⟩
          refine Or.inr ⟨entry, newer, rfl, hsummary.1, ?_⟩
          rw [← hmessages, ← htokens]
          exact hsummary.2
        · refine ⟨older.reverse ++ [entry], newer, (List.append_assoc _ _ _).symm, hmessages, htokens,
            fun hpos => absurd hover.1 hpos, fun hpos => Or.inl (hbudget hpos)⟩
      · next hfits =>
        refine walkBack_spec older hmessages' htokens' fun hpos => ?_
        exact Rat.not_lt.mp fun hover => hfits ⟨hpos, hover⟩

theorem has_walkBack {tokenBudget : ℚ} {op : FileOperation} : ∀ (older : List SessionEntry) {p : BranchPreparation},
    p.fileOps.Has op → (walkBack getTime argumentsLength tokenBudget older p).fileOps.Has op
  | [], _, h => h
  | entry :: older, p, h => by
    unfold walkBack
    cases getMessageFromEntry getTime entry with
    | none => exact has_walkBack older h
    | some message =>
      have hadd : (extractFileOpsFromMessage p.fileOps message).Has op := has_extractFileOpsFromMessage.mpr (Or.inl h)
      dsimp only
      split_ifs
      · exact hadd
      · exact hadd
      · exact has_walkBack older hadd

/-- The operations of every message that is taken are collected. -/
theorem has_walkBack_of_mem {tokenBudget : ℚ} {op : FileOperation} :
    ∀ (older : List SessionEntry) {p : BranchPreparation}, (∀ m ∈ p.messages, op ∈ m.operations → p.fileOps.Has op) →
      ∀ m ∈ (walkBack getTime argumentsLength tokenBudget older p).messages, op ∈ m.operations →
        (walkBack getTime argumentsLength tokenBudget older p).fileOps.Has op
  | [], _, h => h
  | entry :: older, p, h => by
    unfold walkBack
    cases getMessageFromEntry getTime entry with
    | none => exact has_walkBack_of_mem older h
    | some message =>
      have hadd : ∀ m ∈ message :: p.messages, op ∈ m.operations →
          (extractFileOpsFromMessage p.fileOps message).Has op := by
        intro m hm hop
        rw [has_extractFileOpsFromMessage]
        rcases List.mem_cons.mp hm with rfl | hm
        · exact Or.inr hop
        · exact Or.inl (h m hm hop)
      dsimp only
      split_ifs
      · exact hadd
      · exact fun m hm => hadd m (List.mem_cons_of_mem _ hm)
      · exact has_walkBack_of_mem older hadd

/-- The operations in the details of an earlier summary, of a branch or of a compaction. -/
def summaryOperations (entry : SessionEntry) : List FileOperation :=
  match entry.body with
  | .branchSummary _ _ (some details) _ => detailOperations details
  | .compaction _ _ _ (some details) _ _ => detailOperations details
  | _ => []

/-- The summary of a branch that no hook made. -/
def isOwnBranchSummary (entry : SessionEntry) : Bool :=
  match entry.body with
  | .branchSummary _ _ _ fromHook => !fromHook.getD false
  | _ => false

/-- The operations of all entries: the tool calls of their messages, and the details of their summaries. -/
def OfEntries (getTime : String → ℤ) (entries : List SessionEntry) (op : FileOperation) : Prop :=
  ∃ entry ∈ entries, (∃ m ∈ getMessageFromEntry getTime entry, op ∈ m.operations) ∨ op ∈ summaryOperations entry

/-- The operations of the tool calls of the messages taken, and of the details of the summaries of branches in all entries
that no hook made. -/
def Tracked (entries : List SessionEntry) (messages : List AgentMessage) (op : FileOperation) : Prop :=
  (∃ m ∈ messages, op ∈ m.operations) ∨
    ∃ entry ∈ entries, isOwnBranchSummary entry = true ∧ op ∈ summaryOperations entry

/-- A preparation takes the newest messages within the budget, and collects the operations it is to collect. -/
structure Prepares (getTime : String → ℤ) (argumentsLength : Json → ℕ) (tokenBudget : ℚ) (entries : List SessionEntry)
    (p : BranchPreparation) (required : FileOperation → Prop) : Prop where
  newest : ∃ older newer, NewestWithin getTime argumentsLength tokenBudget entries p older newer
  fileOps : ∀ op, required op → p.fileOps.Has op

theorem has_collectDetails {fileOps : FileOperations} {entry : SessionEntry} {op : FileOperation} :
    (collectDetails fileOps entry).Has op ↔
      fileOps.Has op ∨ isOwnBranchSummary entry = true ∧ op ∈ summaryOperations entry := by
  unfold collectDetails isOwnBranchSummary summaryOperations
  cases entry.body with
  | branchSummary fromId summary details fromHook =>
    cases details with
    | none => simp
    | some details =>
      cases hhook : fromHook.getD false with
      | true => simp [hhook]
      | false => cases op <;> simp [hhook, FileOperations.Has, detailOperations, mem_foldl_setAdd]
  | _ => simp

theorem has_foldl_collectDetails {op : FileOperation} : ∀ {entries : List SessionEntry} {fileOps : FileOperations},
    (entries.foldl collectDetails fileOps).Has op ↔
      fileOps.Has op ∨ ∃ entry ∈ entries, isOwnBranchSummary entry = true ∧ op ∈ summaryOperations entry
  | [], _ => by simp
  | entry :: entries, fileOps => by
    rw [List.foldl_cons, has_foldl_collectDetails, has_collectDetails, List.exists_mem_cons_iff, or_assoc]

/-- **The messages are those of the newest entries within the budget, and the files of the messages taken and of all
summaries of branches that no hook made are collected.** -/
theorem prepareBranchEntries_spec (getTime : String → ℤ) (argumentsLength : Json → ℕ) (entries : List SessionEntry)
    (tokenBudget : ℚ) :
    Prepares getTime argumentsLength tokenBudget entries (prepareBranchEntries getTime argumentsLength entries tokenBudget)
      (Tracked entries (prepareBranchEntries getTime argumentsLength entries tokenBudget).messages) := by
  constructor
  · have hwalk : ∃ older newer, NewestWithin getTime argumentsLength tokenBudget (entries.reverse.reverse ++ [])
        (prepareBranchEntries getTime argumentsLength entries tokenBudget) older newer :=
      walkBack_spec entries.reverse rfl rfl fun hpos => by simpa using Rat.le_of_lt hpos
    rwa [List.reverse_reverse, List.append_nil] at hwalk
  · rintro op (⟨m, hm, hop⟩ | hsummary)
    · exact has_walkBack_of_mem entries.reverse (fun m hm => absurd hm List.not_mem_nil) m hm hop
    · exact has_walkBack entries.reverse (has_foldl_collectDetails.mpr (Or.inr hsummary))

/-- The summary of a branch that a hook made. -/
def hookEntries : List SessionEntry :=
  [⟨"a", none, "", .branchSummary "root" "tried" (some (.obj [("readFiles", .arr [.str "notes.md"])])) (some true)⟩]

/-- Its files are not collected. -/
theorem not_prepares_ofEntries :
    ¬ Prepares (fun _ => 0) (fun _ => 0) 0 hookEntries (prepareBranchEntries (fun _ => 0) (fun _ => 0) hookEntries 0)
      (OfEntries (fun _ => 0) hookEntries) := by
  intro h
  have hread := h.fileOps (.read "notes.md") ⟨_, List.mem_singleton_self _, Or.inr (by decide)⟩
  have hnone : "notes.md" ∉ (prepareBranchEntries (fun _ => 0) (fun _ => 0) hookEntries 0).fileOps.read := by decide
  exact hnone hread

end

end BranchSummarization

end Trek
