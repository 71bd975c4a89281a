/-
# A result of a tool and its call

After a compaction the context is its summary and the messages from the first kept entry on, so a
result there has its call before it exactly when the kept entries do not lead with a result
(`toolPaired_iff`). `findCutPoint` never chooses a result to cut at, but a custom message or a summary
of a branch it does, and one may stand between two results of one assistant message. The pairs stay
together just if no result is the next message there (`compaction_toolPaired_iff`).
-/
import Trek.Compaction.Split

namespace Trek

/-- The entry is a result of a tool. -/
def SessionEntry.isResult (e : SessionEntry) : Bool :=
  match e.body with
  | .message (.toolResult _) => true
  | _ => false

/-- The first message of some entries is a result. -/
def leadsWithResult (entries : List SessionEntry) : Bool := (entries.find? (·.isMessage)).any (·.isResult)

/-- An assistant message with a call of the given id. -/
def HasCall (id : String) : AgentMessage → Prop
  | .assistant a => ∃ call ∈ a.toolCalls, call.id = id
  | _ => False

/-- Every result has its call in an assistant message before it. -/
def ToolPaired (messages : List AgentMessage) : Prop :=
  ∀ before (r : ToolResultMessage) after, messages = before ++ AgentMessage.toolResult r :: after →
    ∃ m ∈ before, HasCall r.toolCallId m

/-- Every result follows the assistant message with its call, and between are only results and entries that
are no messages. -/
def ResultsFollowCalls (path : List SessionEntry) : Prop :=
  ∀ before (e : SessionEntry) after (r : ToolResultMessage), path = before ++ e :: after →
    e.body = EntryBody.message (.toolResult r) → ∃ before', ∃ x : SessionEntry, ∃ between m,
      before = before' ++ x :: between ∧ x.body = EntryBody.message m ∧ HasCall r.toolCallId m ∧
      ∀ y ∈ between, y.isMessage = true → y.isResult = true

/-- The cut point that the budget chooses, or the start of the range if it has no valid one. -/
def CutsAt (argumentsLength : Json → ℕ) (entries : List SessionEntry) (startIndex endIndex : ℕ) (keepRecentTokens : ℚ)
    (b : ℕ) : Prop :=
  IsBudgetCut argumentsLength entries startIndex endIndex keepRecentTokens b ∨
    findValidCutPoints entries startIndex endIndex = [] ∧ b = startIndex

theorem SessionEntry.isResult_iff {e : SessionEntry} :
    e.isResult = true ↔ ∃ r, e.body = .message (.toolResult r) := by
  unfold isResult
  constructor
  · intro h
    split at h
    · rename_i r he
      exact ⟨r, he⟩
    · cases h
  · rintro ⟨r, hr⟩
    rw [hr]

/-- Entries that are no messages do not change which message is the first. -/
theorem leadsWithResult_append {before entries : List SessionEntry} (h : ∀ e ∈ before, e.isMessage = false) :
    leadsWithResult (before ++ entries) = leadsWithResult entries := by
  have hnone : before.find? (·.isMessage) = none := List.find?_eq_none.mpr fun e he => by simp [h e he]
  rw [leadsWithResult, List.find?_append, hnone, Option.none_or, leadsWithResult]

section

variable {getTime : String → ℤ}

theorem contextMessage_of_body {e : SessionEntry} {m : AgentMessage} (h : e.body = .message m) :
    contextMessage getTime e = some m := by
  rw [contextMessage, h]

/-- An entry that is no message has no call, and is no result. -/
theorem body_of_contextMessage {e : SessionEntry} {m : AgentMessage} (h : contextMessage getTime e = some m)
    (hm : (∃ id, HasCall id m) ∨ ∃ r, m = .toolResult r) : e.body = .message m := by
  unfold contextMessage at h
  split at h
  · rename_i m' he
    rw [he, Option.some.inj h]
  · rw [← Option.some.inj h] at hm
    rcases hm with ⟨id, hm⟩ | ⟨r, hm⟩ <;> cases hm
  · split at h
    · rw [← Option.some.inj h] at hm
      rcases hm with ⟨id, hm⟩ | ⟨r, hm⟩ <;> cases hm
    · cases h
  · cases h

/-- **The results of a context have their calls just if the kept entries do not lead with one.** -/
theorem toolPaired_iff (front : List SessionEntry) {kept : List SessionEntry} {summary : AgentMessage}
    (hsummary : ∀ id, ¬ HasCall id summary) (hresult : ∀ r, summary ≠ .toolResult r)
    (hpath : ResultsFollowCalls (front ++ kept)) :
    ToolPaired (summary :: entryMessages getTime kept) ↔ leadsWithResult kept = false := by
  constructor
  · intro h
    by_contra hleads
    rw [Bool.not_eq_false] at hleads
    obtain ⟨e, he, hresult⟩ := (Option.any_eq_true _ _).mp hleads
    obtain ⟨-, before, after, rfl, hbefore⟩ := List.find?_eq_some_iff_append.mp he
    obtain ⟨r, hr⟩ := SessionEntry.isResult_iff.mp hresult
    have hcons : entryMessages getTime (e :: after) = .toolResult r :: entryMessages getTime after :=
      List.filterMap_cons_some (contextMessage_of_body hr)
    obtain ⟨m, hm, hcall⟩ := h (summary :: entryMessages getTime before) r (entryMessages getTime after) (by
      rw [entryMessages_append, hcons, List.cons_append])
    rcases List.mem_cons.mp hm with rfl | hm
    · exact hsummary _ hcall
    · obtain ⟨x, hx, hxm⟩ := List.mem_filterMap.mp hm
      have hno := hbefore x hx
      simp [SessionEntry.isMessage, body_of_contextMessage hxm (Or.inl ⟨_, hcall⟩)] at hno
  · intro hleads before r after happ
    obtain ⟨before, rfl, heq⟩ : ∃ before', before = summary :: before' ∧
        entryMessages getTime kept = before' ++ .toolResult r :: after := by
      cases before with
      | nil => exact absurd (List.cons.inj happ).1 (hresult r)
      | cons m before =>
        obtain ⟨rfl, heq⟩ := List.cons.inj happ
        exact ⟨before, rfl, heq⟩
    rw [entryMessages] at heq
    obtain ⟨kept₁, kept₂, rfl, hkept₁, hkept₂⟩ := List.filterMap_eq_append_iff.mp heq
    obtain ⟨skipped, e, rest, rfl, hskipped, he, -⟩ := List.filterMap_eq_cons_iff.mp hkept₂
    have hbody := body_of_contextMessage he (Or.inr ⟨r, rfl⟩)
    obtain ⟨front', x, between, m, hfront, hx, hcall, hbetween⟩ :=
      hpath (front ++ (kept₁ ++ skipped)) e rest r (by simp) hbody
    -- the call is kept, or the result leads
    have hmem : x ∈ kept₁ ++ skipped := by
      rcases List.append_eq_append_iff.mp hfront with ⟨t, -, ht⟩ | ⟨t, -, ht⟩
      · rw [ht]
        simp
      · cases t with
        | nil => exact ht ▸ List.mem_cons_self
        | cons y t =>
          obtain ⟨rfl, rfl⟩ := List.cons.inj ht
          refine absurd hleads ?_
          have happ : kept₁ ++ (skipped ++ e :: rest) = (kept₁ ++ skipped) ++ e :: rest := by simp
          rw [Bool.not_eq_false, leadsWithResult, happ, List.find?_append]
          cases hfind : (kept₁ ++ skipped).find? (·.isMessage) with
          | none =>
            have hmessage : e.isMessage = true := by rw [SessionEntry.isMessage, hbody]
            rw [Option.none_or, List.find?_cons_of_pos hmessage]
            exact SessionEntry.isResult_iff.mpr ⟨r, hbody⟩
          | some y =>
            exact hbetween y (List.mem_append_right _ (List.mem_of_find?_eq_some hfind)) (List.find?_some hfind)
    refine ⟨m, List.mem_cons_of_mem _ ?_, hcall⟩
    rw [← hkept₁]
    rcases List.mem_append.mp hmem with hx₁ | hx₂
    · exact List.mem_filterMap.mpr ⟨x, hx₁, contextMessage_of_body hx⟩
    · have := hskipped x hx₂
      rw [contextMessage_of_body hx] at this
      cases this

end

/-! ### The context of a compaction -/

/-- The scan back does not change which message is the first to keep. -/
theorem leadsWithResult_drop {path : List SessionEntry} {startIndex b j : ℕ} (h : IsScanStart path startIndex b j) :
    leadsWithResult (path.drop j) = leadsWithResult (path.drop b) := by
  obtain ⟨-, hjb, hpassed⟩ := h.1
  have hdrop : (path.drop j).drop (b - j) = path.drop b := by rw [List.drop_drop, Nat.add_sub_cancel' hjb]
  rw [← List.take_append_drop (b - j) (path.drop j), hdrop]
  refine leadsWithResult_append fun e he => ?_
  obtain ⟨i, hi⟩ := List.mem_iff_getElem?.mp he
  rw [List.getElem?_take] at hi
  split at hi
  · rename_i hlt
    rw [List.getElem?_drop] at hi
    have hpass := hpassed (j + i) (by omega) (by omega)
    rw [hi] at hpass
    simp only [isPassedOver, Option.all_some, Bool.and_eq_true, Bool.not_eq_true'] at hpass
    exact hpass.2
  · cases hi

/-- **After a compaction every result has its call, just if no result is the first message from the cut
point on that the budget chooses.** -/
theorem compaction_toolPaired_iff {getTime : String → ℤ} {argumentsLength : Json → ℕ} {path : List SessionEntry}
    {settings : CompactionSettings} {p : CompactionPreparation} {c : SessionEntry} {summary : String}
    {tokensBefore : ℕ} {details : Option Json} {fromHook : Option Bool} {index : Option ℕ}
    (hpath : RootToLeaf (path ++ [c]))
    (hc : c.body = .compaction summary p.firstKeptEntryId tokensBefore details fromHook index)
    (hresults : ResultsFollowCalls path)
    (hp : prepareCompaction getTime argumentsLength path settings = some (some p)) :
    ∃ context, buildSessionContext getTime (path ++ [c]) none (indexById (path ++ [c])) = some context ∧
      (ToolPaired context.messages ↔
        ∀ b, CutsAt argumentsLength path (compactionBoundary path).2 path.length settings.keepRecentTokens b →
          leadsWithResult (path.drop b) = false) := by
  have hlast : path.getLast?.any (·.isCompaction) = false := by
    by_contra h
    rw [prepareCompaction, if_pos (by simpa using h)] at hp
    cases hp
  obtain ⟨k, e, hcut, hk, hfirst, hle, -⟩ := prepareCompaction_spec getTime (compactionBoundary_le hlast) hp
  refine ⟨_, hpath.context getTime (by simp), ?_⟩
  have hmessages : contextMessages getTime (path ++ [c]) =
      createCompactionSummaryMessage getTime summary tokensBefore c.timestamp :: entryMessages getTime (path.drop k) := by
    rw [contextMessages_cut getTime hc (by simp) hpath.nodup, entryMessages_nil, List.append_nil, hfirst,
      keptFrom_eq_drop hpath.of_append.nodup hk]
  have hpaired : ToolPaired (contextMessages getTime (path ++ [c])) ↔ leadsWithResult (path.drop k) = false := by
    rw [hmessages]
    refine toolPaired_iff (path.take k) (fun id h => by cases h) (fun r h => by cases h) ?_
    rwa [List.take_append_drop]
  -- the cut leads with a result just if the cut point does that it was moved back from
  obtain ⟨b, hb, hkb⟩ : ∃ b, CutsAt argumentsLength path (compactionBoundary path).2 path.length
      settings.keepRecentTokens b ∧ leadsWithResult (path.drop k) = leadsWithResult (path.drop b) := by
    by_cases hnil : findValidCutPoints path (compactionBoundary path).2 path.length = []
    · rw [findCutPoint_of_nil argumentsLength settings.keepRecentTokens hnil] at hcut
      exact ⟨_, Or.inr ⟨hnil, rfl⟩, by rw [hcut]⟩
    · obtain ⟨b, hb, hresult⟩ := findCutPoint_eq argumentsLength settings.keepRecentTokens hnil
      rw [hresult] at hcut
      refine ⟨b, Or.inl hb, hcut ▸ leadsWithResult_drop (scanBack_isScanStart path _ b ?_)⟩
      exact (mem_findValidCutPoints hb.mem).1
  have hunique : ∀ b', CutsAt argumentsLength path (compactionBoundary path).2 path.length
      settings.keepRecentTokens b' → b' = b := by
    rintro b' (hb' | ⟨hnil', rfl⟩) <;> rcases hb with hb | ⟨hnil, rfl⟩
    · exact isBudgetCut_unique hb' hb
    · exact absurd hb'.mem (by rw [hnil]; exact List.not_mem_nil)
    · exact absurd hb.mem (by rw [hnil']; exact List.not_mem_nil)
    · rfl
  refine hpaired.trans ⟨fun h b' hb' => ?_, fun h => hkb.trans (h b hb)⟩
  rw [hunique b' hb', ← hkb, h]

/-! ### A message of an extension between two results -/

/-- An assistant message with two calls, and a message of an extension between their results. -/
def extensionPath : List SessionEntry :=
  [⟨"a", none, "", .message (.user (.text "go") 0)⟩,
    ⟨"b", some "a", "", .message (.assistant ⟨[.toolCall ⟨"one", "read", .obj []⟩, .toolCall ⟨"two", "read", .obj []⟩],
      "api", "provider", "model", none, .toolUse, none, 1⟩)⟩,
    ⟨"c", some "b", "", .message (.toolResult ⟨"one", "read", [.text "a long result of a tool"], none, false, 2⟩)⟩,
    ⟨"d", some "c", "", .customMessage "note" (.text "note") none true⟩,
    ⟨"e", some "d", "", .message (.toolResult ⟨"two", "read", [.text "ok"], none, false, 3⟩)⟩]

/-- The compaction of that path. -/
def extensionCompaction : SessionEntry := ⟨"f", some "e", "", .compaction "summary" "d" 10 none none none⟩

/-- It keeps the message of the extension and the second result. -/
def extensionPreparation : CompactionPreparation where
  firstKeptEntryId := "d"
  messagesToSummarize := extensionPath.take 3 |>.filterMap (contextMessage fun _ => 0)
  turnPrefixMessages := []
  isSplitTurn := true
  tokensBefore := 12
  previousSummary := none
  fileOps := ⟨[], [], []⟩
  settings := ⟨true, 16384, 3⟩

theorem extensionPath_rootToLeaf : RootToLeaf (extensionPath ++ [extensionCompaction]) where
  nodup := by decide
  id_ne := by decide
  links := by simp [extensionPath, extensionCompaction, Links]
  root := by decide

theorem extensionPath_results : ResultsFollowCalls extensionPath := by
  have hcases : ∀ before e after, extensionPath = before ++ e :: after →
      extensionPath.take before.length = before ∧ extensionPath[before.length]? = some e := by
    intro before e after h
    rw [h]
    simp
  intro before e after r h he
  obtain ⟨hbefore, hat⟩ := hcases before e after h
  have hlen : before.length < 5 := (List.getElem?_eq_some_iff.mp hat).1
  obtain h2 | h4 : before.length = 2 ∨ before.length = 4 := by
    have hresult : (extensionPath[before.length]?).any SessionEntry.isResult = true := by
      rw [hat]
      exact SessionEntry.isResult_iff.mpr ⟨r, he⟩
    have hall : ∀ n < 5, (extensionPath[n]?).any SessionEntry.isResult = true → n = 2 ∨ n = 4 := by decide
    exact hall _ hlen hresult
  · rw [h2] at hbefore hat
    obtain rfl := Option.some.inj hat
    cases he
    exact ⟨extensionPath.take 1, _, [], _, hbefore.symm, rfl, ⟨_, List.mem_cons_self, rfl⟩, by simp⟩
  · rw [h4] at hbefore hat
    obtain rfl := Option.some.inj hat
    cases he
    refine ⟨extensionPath.take 1, _, (extensionPath.take 4).drop 2, _, hbefore.symm, rfl,
      ⟨_, List.mem_cons_of_mem _ List.mem_cons_self, rfl⟩, by decide⟩

theorem prepareCompaction_extension : prepareCompaction (fun _ => 0) (fun _ => 2) extensionPath ⟨true, 16384, 3⟩ =
    some (some extensionPreparation) := by
  decide

/-- The second result is kept, and its call is not. -/
theorem extensionContext_not_toolPaired : ∃ context, buildSessionContext (fun _ => 0)
    (extensionPath ++ [extensionCompaction]) none (indexById (extensionPath ++ [extensionCompaction])) = some context ∧
      ¬ ToolPaired context.messages := by
  refine ⟨_, extensionPath_rootToLeaf.context _ (by simp), fun h => ?_⟩
  obtain ⟨m, hm, hcall⟩ := h [_, _] ⟨"two", "read", [.text "ok"], none, false, 3⟩ [] rfl
  simp only [List.mem_cons, List.not_mem_nil, or_false] at hm
  rcases hm with rfl | rfl <;> cases hcall

/-- A compaction of a path with an unlucky cut separates a result from its call. -/
theorem compaction_not_toolPaired : ¬ ∀ (getTime : String → ℤ) (argumentsLength : Json → ℕ) (path : List SessionEntry)
    (settings : CompactionSettings) (p : CompactionPreparation) (c : SessionEntry) (summary : String)
    (tokensBefore : ℕ) (details : Option Json) (fromHook : Option Bool) (index : Option ℕ),
    RootToLeaf (path ++ [c]) →
    c.body = .compaction summary p.firstKeptEntryId tokensBefore details fromHook index →
    ResultsFollowCalls path →
    prepareCompaction getTime argumentsLength path settings = some (some p) →
    ∀ context, buildSessionContext getTime (path ++ [c]) none (indexById (path ++ [c])) = some context →
      ToolPaired context.messages := by
  intro h
  obtain ⟨context, hcontext, hnot⟩ := extensionContext_not_toolPaired
  exact hnot (h _ _ extensionPath _ extensionPreparation extensionCompaction "summary" 10 none none none
    extensionPath_rootToLeaf rfl extensionPath_results prepareCompaction_extension context hcontext)

theorem extensionContext_iff : ∃ context, buildSessionContext (fun _ => 0)
    (extensionPath ++ [extensionCompaction]) none (indexById (extensionPath ++ [extensionCompaction])) = some context ∧
      (ToolPaired context.messages ↔
        ∀ b, CutsAt (fun _ => 2) extensionPath (compactionBoundary extensionPath).2 extensionPath.length 3 b →
          leadsWithResult (extensionPath.drop b) = false) :=
  compaction_toolPaired_iff extensionPath_rootToLeaf (c := extensionCompaction) rfl extensionPath_results
    prepareCompaction_extension

end Trek
