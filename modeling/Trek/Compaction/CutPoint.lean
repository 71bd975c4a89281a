/-
# Where a compaction cuts the conversation

`estimateTokens`, `estimateContextTokens` and `findCutPoint` of
`core/compaction/compaction.ts`: walk backwards over the entries until enough
tokens are kept, cut at the next valid cut point, move the cut back over entries
that are no messages, and find the turn that the cut splits. Whatever the
estimates are, the cut lies between the bounds and the turn it splits starts
before it (`findCutPoint_spec`).
-/
import Trek.Session.Entry
import Trek.Lib.Text

namespace Trek

/-! ### Token estimates

`argumentsLength` is `JSON.stringify(arguments).length`. -/

/-- `calculateContextTokens`. -/
def calculateContextTokens (usage : Usage) : ℕ :=
  if usage.totalTokens = 0 then usage.input + usage.output + usage.cacheRead + usage.cacheWrite
  else usage.totalTokens

/-- `getAssistantUsage`. -/
def getAssistantUsage : AgentMessage → Option Usage
  | .assistant a => if a.stopReason ≠ .aborted ∧ a.stopReason ≠ .error then a.usage else none
  | _ => none

def ESTIMATED_IMAGE_CHARS : ℕ := 4800

/-- `estimateTextAndImageContentChars`. -/
def estimateTextAndImageContentChars : UserContent → ℕ
  | .text s => jsLength s
  | .blocks bs => (bs.map fun
    | .text s => jsLength s
    | .image _ _ => ESTIMATED_IMAGE_CHARS).sum

section

variable (argumentsLength : Json → ℕ)

/-- The `chars` of `estimateTokens`. -/
def estimateChars : AgentMessage → ℕ
  | .user content _ => estimateTextAndImageContentChars content
  | .assistant a => (a.content.map fun
    | .text s => jsLength s
    | .thinking s => jsLength s
    | .toolCall c => jsLength c.name + argumentsLength c.arguments).sum
  | .custom m => estimateTextAndImageContentChars m.content
  | .toolResult m => estimateTextAndImageContentChars (.blocks m.content)
  | .bashExecution m => jsLength m.command + jsLength m.output
  | .branchSummary summary _ _ => jsLength summary
  | .compactionSummary summary _ _ => jsLength summary
  | .hookMessage _ => 0

/-- `estimateTokens`: `Math.ceil(chars / 4)`. -/
def estimateTokens (message : AgentMessage) : ℕ := (estimateChars argumentsLength message + 3) / 4

/-- The `tokens` of `estimateContextTokens`: the usage the last assistant
message reports, and an estimate of the messages after it. -/
def estimateContextTokens (messages : List AgentMessage) : ℕ :=
  let trailing := messages.reverse.takeWhile fun m => (getAssistantUsage m).isNone
  let usageTokens := match (messages.reverse.drop trailing.length).head?.bind getAssistantUsage with
    | some usage => calculateContextTokens usage
    | none => 0
  usageTokens + (trailing.map (estimateTokens argumentsLength)).sum

end

/-! ### Cut points -/

/-- The entries `findValidCutPoints` collects: messages other than tool
results, and the entries that become messages of the user. -/
def isCutPoint (e : SessionEntry) : Bool :=
  match e.body with
  | .message (.toolResult _) | .message (.hookMessage _) => false
  | .message _ | .branchSummary .. | .customMessage .. => true
  | _ => false

/-- `findValidCutPoints`. -/
def findValidCutPoints (entries : List SessionEntry) (startIndex endIndex : ℕ) : List ℕ :=
  (List.range' startIndex (endIndex - startIndex)).filter fun i => entries[i]?.any isCutPoint

/-- The entries at which `findTurnStartIndex` stops. -/
def startsTurn (e : SessionEntry) : Bool :=
  match e.body with
  | .branchSummary .. | .customMessage .. | .message (.user ..) | .message (.bashExecution _) => true
  | _ => false

/-- `findTurnStartIndex`; `none` is `-1`. -/
def findTurnStartIndex (entries : List SessionEntry) (entryIndex startIndex : ℕ) : Option ℕ :=
  (List.range' startIndex (entryIndex + 1 - startIndex)).reverse.find? fun i => entries[i]?.any startsTurn

/-- `CutPointResult`. -/
structure CutPointResult where
  firstKeptEntryIndex : ℕ
  turnStartIndex : Option ℕ
  isSplitTurn : Bool
  deriving DecidableEq

/-- The backward walk over the entries at the given indices: once the messages
seen amount to `keepRecentTokens`, the cut is the first cut point from there on. -/
def budgetCut (argumentsLength : Json → ℕ) (entries : List SessionEntry) (cutPoints : List ℕ)
    (keepRecentTokens : ℚ) (cutIndex : ℕ) : List ℕ → ℕ → ℕ
  | [], _ => cutIndex
  | i :: is, accumulatedTokens =>
    match entries[i]? with
    | some ⟨_, _, _, .message m⟩ =>
      let accumulatedTokens := accumulatedTokens + estimateTokens argumentsLength m
      if (accumulatedTokens : ℚ) ≥ keepRecentTokens then (cutPoints.find? (i ≤ ·)).getD cutIndex
      else budgetCut argumentsLength entries cutPoints keepRecentTokens cutIndex is accumulatedTokens
    | _ => budgetCut argumentsLength entries cutPoints keepRecentTokens cutIndex is accumulatedTokens

/-- The scan backwards from the cut over entries that are neither messages nor
compactions. -/
def scanBack (entries : List SessionEntry) (startIndex : ℕ) : ℕ → ℕ
  | 0 => 0
  | i + 1 =>
    if startIndex < i + 1 ∧ entries[i]?.all (fun e => !e.isCompaction && !e.isMessage) then
      scanBack entries startIndex i
    else i + 1

/-- `findCutPoint`. -/
def findCutPoint (argumentsLength : Json → ℕ) (entries : List SessionEntry) (startIndex endIndex : ℕ)
    (keepRecentTokens : ℚ) : CutPointResult :=
  match findValidCutPoints entries startIndex endIndex with
  | [] => ⟨startIndex, none, false⟩
  | first :: rest =>
    let cutIndex := scanBack entries startIndex
      (budgetCut argumentsLength entries (first :: rest) keepRecentTokens first
        (List.range' startIndex (endIndex - startIndex)).reverse 0)
    let isUserMessage := entries[cutIndex]?.any fun e =>
      match e.body with
      | .message (.user ..) => true
      | _ => false
    let turnStartIndex := if isUserMessage then none else findTurnStartIndex entries cutIndex startIndex
    ⟨cutIndex, turnStartIndex, !isUserMessage && turnStartIndex.isSome⟩

/-! ### Where the cut is -/

theorem mem_findValidCutPoints {entries : List SessionEntry} {startIndex endIndex i : ℕ}
    (h : i ∈ findValidCutPoints entries startIndex endIndex) : startIndex ≤ i ∧ i < endIndex := by
  have := List.mem_range'_1.mp (List.mem_of_mem_filter h)
  omega

theorem findTurnStartIndex_bounds {entries : List SessionEntry} {entryIndex startIndex i : ℕ}
    (h : findTurnStartIndex entries entryIndex startIndex = some i) : startIndex ≤ i ∧ i ≤ entryIndex := by
  have := List.mem_range'_1.mp (List.mem_reverse.mp (List.mem_of_find?_eq_some h))
  omega

/-- The walk ends at a cut point. -/
theorem budgetCut_mem (argumentsLength : Json → ℕ) (entries : List SessionEntry) (cutPoints : List ℕ)
    (keepRecentTokens : ℚ) {cutIndex : ℕ} (hc : cutIndex ∈ cutPoints) : ∀ (is : List ℕ) (accumulatedTokens : ℕ),
    budgetCut argumentsLength entries cutPoints keepRecentTokens cutIndex is accumulatedTokens ∈ cutPoints
  | [], _ => hc
  | i :: is, acc => by
    have ih := budgetCut_mem argumentsLength entries cutPoints keepRecentTokens hc is
    unfold budgetCut
    split
    · show (if ((acc + estimateTokens argumentsLength _ : ℕ) : ℚ) ≥ keepRecentTokens then _ else _) ∈ cutPoints
      split
      · cases hf : cutPoints.find? (i ≤ ·) with
        | none => exact hc
        | some j => exact List.mem_of_find?_eq_some hf
      · exact ih _
    · exact ih _

theorem scanBack_le (entries : List SessionEntry) (startIndex : ℕ) : ∀ i, scanBack entries startIndex i ≤ i
  | 0 => le_rfl
  | i + 1 => by
    have := scanBack_le entries startIndex i
    unfold scanBack
    split <;> omega

theorem le_scanBack (entries : List SessionEntry) (startIndex : ℕ) :
    ∀ i, startIndex ≤ i → startIndex ≤ scanBack entries startIndex i
  | 0, h => h
  | i + 1, h => by
    unfold scanBack
    split
    · exact le_scanBack entries startIndex i (by omega)
    · exact h

/-- **The cut lies between the bounds, and the turn it splits starts before it.** -/
theorem findCutPoint_spec (argumentsLength : Json → ℕ) (entries : List SessionEntry) {startIndex endIndex : ℕ}
    (keepRecentTokens : ℚ) (h : startIndex ≤ endIndex) :
    let cut := findCutPoint argumentsLength entries startIndex endIndex keepRecentTokens
    startIndex ≤ cut.firstKeptEntryIndex ∧ cut.firstKeptEntryIndex ≤ endIndex ∧
      (cut.isSplitTurn = true → ∃ t, cut.turnStartIndex = some t ∧ startIndex ≤ t ∧ t ≤ cut.firstKeptEntryIndex) := by
  unfold findCutPoint
  split
  · exact ⟨le_rfl, h, by simp⟩
  · rename_i first rest hcut
    have hb := budgetCut_mem argumentsLength entries (first :: rest) keepRecentTokens (List.mem_cons_self)
      (List.range' startIndex (endIndex - startIndex)).reverse 0
    set b := budgetCut argumentsLength entries (first :: rest) keepRecentTokens first
      (List.range' startIndex (endIndex - startIndex)).reverse 0
    rw [← hcut] at hb
    have hbounds := mem_findValidCutPoints hb
    have hle := scanBack_le entries startIndex b
    refine ⟨le_scanBack entries startIndex b hbounds.1, by dsimp only; omega, fun hsplit => ?_⟩
    simp only [Bool.and_eq_true, Bool.not_eq_true'] at hsplit
    obtain ⟨hu, ht⟩ := hsplit
    obtain ⟨t, ht⟩ := Option.isSome_iff_exists.mp ht
    refine ⟨t, ht, ?_⟩
    rw [hu, if_neg Bool.false_ne_true] at ht
    exact findTurnStartIndex_bounds ht

end Trek
