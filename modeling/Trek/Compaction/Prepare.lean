/-
# What a compaction summarizes and what it keeps

`prepareCompaction` of `core/compaction/compaction.ts` cuts the path of a session
into messages to summarize, the start of a turn that is split, and the entries to
keep; the compaction entry that is appended then makes `buildSessionContext`
keep them. The two read the boundary of the compaction before that on their own:
the context looks for its first kept entry before it only, the preparation on the
whole path. No message is lost exactly when that makes no difference
(`prepareCompaction_keeps_iff`).
-/
import Trek.Session.Context
import Trek.Compaction.CutPoint

namespace Trek

/-! ### File operations -/

/-- `FileOperations`. A `Set` is the list of its elements. -/
structure FileOperations where
  read : List String
  written : List String
  edited : List String
  deriving DecidableEq

/-- `set.add(x)`. -/
def setAdd (s : List String) (x : String) : List String := if x ∈ s then s else s ++ [x]

/-- `extractFileOpsFromMessage`. -/
def extractFileOpsFromMessage (fileOps : FileOperations) : AgentMessage → FileOperations
  | .assistant a => a.toolCalls.foldl (fun ops call =>
      match call.arguments.get? "path" with
      | some (.str path) =>
        if truthy path then
          if call.name = "read" then { ops with read := setAdd ops.read path }
          else if call.name = "write" then { ops with written := setAdd ops.written path }
          else if call.name = "edit" then { ops with edited := setAdd ops.edited path }
          else ops
        else ops
      | _ => ops) fileOps
  | _ => fileOps

/-- The strings of a field of `CompactionDetails`, if it is an array. -/
def detailFiles (details : Json) (key : String) : List String :=
  match details.get? key with
  | some (.arr xs) => xs.filterMap fun
    | .str s => some s
    | _ => none
  | _ => []

/-- `extractFileOperations`. -/
def extractFileOperations (messages : List AgentMessage) (entries : List SessionEntry)
    (prevCompactionIndex : Option ℕ) : FileOperations :=
  let fileOps : FileOperations :=
    match prevCompactionIndex.bind (entries[·]?) with
    | some ⟨_, _, _, .compaction _ _ _ (some details) fromHook _⟩ =>
      if fromHook.getD false then ⟨[], [], []⟩
      else ⟨(detailFiles details "readFiles").foldl setAdd [], [], (detailFiles details "modifiedFiles").foldl setAdd []⟩
    | _ => ⟨[], [], []⟩
  messages.foldl extractFileOpsFromMessage fileOps

/-! ### The preparation -/

/-- `CompactionSettings`. -/
structure CompactionSettings where
  enabled : Bool
  reserveTokens : ℚ
  keepRecentTokens : ℚ
  deriving DecidableEq

/-- `CompactionPreparation`. -/
structure CompactionPreparation where
  firstKeptEntryId : String
  messagesToSummarize : List AgentMessage
  turnPrefixMessages : List AgentMessage
  isSplitTurn : Bool
  tokensBefore : ℕ
  previousSummary : Option String
  fileOps : FileOperations
  settings : CompactionSettings
  deriving DecidableEq

/-- The index of the last entry that is a compaction. -/
def prevCompactionIndex (pathEntries : List SessionEntry) : Option ℕ :=
  (List.range pathEntries.length).reverse.find? fun i => pathEntries[i]?.any (·.isCompaction)

/-- `previousSummary` and `boundaryStart`: what the last compaction of the path
was about, and the first entry it kept. -/
def compactionBoundary (pathEntries : List SessionEntry) : Option String × ℕ :=
  match prevCompactionIndex pathEntries with
  | none => (none, 0)
  | some i =>
    match pathEntries[i]? with
    | some ⟨_, _, _, .compaction summary firstKeptEntryId _ _ _ _⟩ =>
      (some summary, (pathEntries.findIdx? (·.id = firstKeptEntryId)).getD (i + 1))
    | _ => (none, 0)

section

variable (getTime : String → ℤ)

/-- `getMessageFromEntry`. -/
def getMessageFromEntry (e : SessionEntry) : Option AgentMessage :=
  match e.body with
  | .message m => some m
  | .customMessage t c d disp => some (createCustomMessage getTime t c disp d e.timestamp)
  | .branchSummary f s _ _ => some (createBranchSummaryMessage getTime s f e.timestamp)
  | .compaction s _ t _ _ _ => some (createCompactionSummaryMessage getTime s t e.timestamp)
  | _ => none

/-- `getMessageFromEntryForCompaction`. -/
def getMessageFromEntryForCompaction (e : SessionEntry) : Option AgentMessage :=
  if e.isCompaction then none else getMessageFromEntry getTime e

/-- The messages of the entries from index `a` to before index `b`. -/
def messagesBetween (entries : List SessionEntry) (a b : ℕ) : List AgentMessage :=
  ((entries.take b).drop a).filterMap (getMessageFromEntryForCompaction getTime)

/-- `prepareCompaction`; `some none` is `undefined`. `none` if the walk to the
root that builds the context does not end. -/
def prepareCompaction (argumentsLength : Json → ℕ) (pathEntries : List SessionEntry)
    (settings : CompactionSettings) : Option (Option CompactionPreparation) :=
  if pathEntries.getLast?.any (·.isCompaction) then some none
  else
    let (previousSummary, boundaryStart) := compactionBoundary pathEntries
    match buildSessionContext getTime pathEntries none (indexById pathEntries) with
    | none => none
    | some context =>
      let cutPoint := findCutPoint argumentsLength pathEntries boundaryStart pathEntries.length settings.keepRecentTokens
      match pathEntries[cutPoint.firstKeptEntryIndex]? with
      | none => some none
      | some firstKeptEntry =>
        if truthy firstKeptEntry.id then
          let turnStartIndex := cutPoint.turnStartIndex.getD 0
          let historyEnd := if cutPoint.isSplitTurn then turnStartIndex else cutPoint.firstKeptEntryIndex
          let messagesToSummarize := messagesBetween getTime pathEntries boundaryStart historyEnd
          let turnPrefixMessages :=
            if cutPoint.isSplitTurn then
              messagesBetween getTime pathEntries turnStartIndex cutPoint.firstKeptEntryIndex
            else []
          let fileOps := turnPrefixMessages.foldl extractFileOpsFromMessage
            (extractFileOperations messagesToSummarize pathEntries (prevCompactionIndex pathEntries))
          some (some
            { firstKeptEntryId := firstKeptEntry.id
              messagesToSummarize := messagesToSummarize
              turnPrefixMessages := turnPrefixMessages
              isSplitTurn := cutPoint.isSplitTurn
              tokensBefore := estimateContextTokens argumentsLength context.messages
              previousSummary := previousSummary
              fileOps := fileOps
              settings := settings })
        else some none

/-! ### What is cut off -/

theorem messagesBetween_append (entries : List SessionEntry) {a t k : ℕ} (h : t ≤ k) (ha : a ≤ t) :
    messagesBetween getTime entries a t ++ messagesBetween getTime entries t k =
      messagesBetween getTime entries a k := by
  unfold messagesBetween
  rw [← List.filterMap_append]
  congr 1
  have hk : entries.take k = entries.take t ++ (entries.take k).drop t := by
    conv_lhs => rw [← List.take_append_drop t (entries.take k)]
    rw [List.take_take, min_eq_left h]
  by_cases hl : t ≤ entries.length
  · conv_rhs => rw [hk]
    rw [List.drop_append_of_le_length (by rw [List.length_take]; omega)]
  · have hd : (entries.take k).drop t = [] := List.drop_eq_nil_of_le (by rw [List.length_take]; omega)
    rw [hd, List.append_nil] at hk ⊢
    rw [hk]

/-- What a preparation says: the entries before the cut go into the two lists of
messages, the one at the cut is the first to keep. -/
theorem prepareCompaction_spec {argumentsLength : Json → ℕ} {pathEntries : List SessionEntry}
    {settings : CompactionSettings} {p : CompactionPreparation}
    (hb : (compactionBoundary pathEntries).2 ≤ pathEntries.length)
    (hp : prepareCompaction getTime argumentsLength pathEntries settings = some (some p)) :
    ∃ k e, k = (findCutPoint argumentsLength pathEntries (compactionBoundary pathEntries).2 pathEntries.length
          settings.keepRecentTokens).firstKeptEntryIndex ∧
      pathEntries[k]? = some e ∧ p.firstKeptEntryId = e.id ∧ (compactionBoundary pathEntries).2 ≤ k ∧
      p.messagesToSummarize ++ p.turnPrefixMessages =
        messagesBetween getTime pathEntries (compactionBoundary pathEntries).2 k := by
  obtain ⟨hstart, -, hsplit⟩ := findCutPoint_spec argumentsLength pathEntries settings.keepRecentTokens hb
  unfold prepareCompaction at hp
  dsimp only at hp
  set cut := findCutPoint argumentsLength pathEntries (compactionBoundary pathEntries).2 pathEntries.length
    settings.keepRecentTokens
  split at hp
  · cases hp
  · split at hp
    · cases hp
    · split at hp
      · cases hp
      · rename_i e he
        split at hp
        · rw [Option.some.injEq, Option.some.injEq] at hp
          subst hp
          refine ⟨cut.firstKeptEntryIndex, e, rfl, he, rfl, hstart, ?_⟩
          by_cases hs : cut.isSplitTurn = true
          · obtain ⟨t, ht, hbt, htk⟩ := hsplit hs
            simp only [hs, ht, ↓reduceIte, Option.getD_some]
            exact messagesBetween_append getTime pathEntries htk hbt
          · simp only [hs, Bool.false_eq_true, ↓reduceIte, List.append_nil]
        · cases hp

end

/-! ### The compaction before -/

theorem find?_congr_mem {α : Type*} {p q : α → Bool} : ∀ {l : List α}, (∀ x ∈ l, p x = q x) → l.find? p = l.find? q
  | [], _ => rfl
  | x :: l, h => by
    rw [List.find?_cons, List.find?_cons, h x List.mem_cons_self,
      find?_congr_mem fun y hy => h y (List.mem_cons_of_mem _ hy)]

theorem prevCompactionIndex_snoc (path : List SessionEntry) (e : SessionEntry) :
    prevCompactionIndex (path ++ [e]) = if e.isCompaction then some path.length else prevCompactionIndex path := by
  have hlast : ((path ++ [e])[path.length]?).any (·.isCompaction) = e.isCompaction := by simp
  unfold prevCompactionIndex
  rw [List.length_append, List.length_singleton, List.range_succ, List.reverse_append, List.reverse_singleton,
    List.singleton_append, List.find?_cons, hlast]
  cases e.isCompaction with
  | true => rfl
  | false =>
    refine find?_congr_mem fun i hi => ?_
    have : i < path.length := List.mem_range.mp (List.mem_reverse.mp hi)
    rw [List.getElem?_append_left this]

theorem prevCompactionIndex_append_of_none {path post : List SessionEntry}
    (h : ∀ x ∈ post, x.isCompaction = false) : prevCompactionIndex (path ++ post) = prevCompactionIndex path := by
  induction post using List.reverseRecOn with
  | nil => simp
  | append_singleton post x ih =>
    rw [← List.append_assoc, prevCompactionIndex_snoc, h x (by simp)]
    exact ih fun y hy => h y (by simp [hy])

theorem compactionBoundary_of_none {path : List SessionEntry} (h : ∀ x ∈ path, x.isCompaction = false) :
    compactionBoundary path = (none, 0) := by
  have : prevCompactionIndex path = none := @prevCompactionIndex_append_of_none [] path h
  rw [compactionBoundary, this]

theorem compactionBoundary_cut {pre post : List SessionEntry} {c : SessionEntry} {summary firstKeptEntryId : String}
    {tokensBefore : ℕ} {details : Option Json} {fromHook : Option Bool} {index : Option ℕ}
    (hb : c.body = .compaction summary firstKeptEntryId tokensBefore details fromHook index)
    (hpost : ∀ x ∈ post, x.isCompaction = false) :
    compactionBoundary (pre ++ c :: post) =
      (some summary, ((pre ++ c :: post).findIdx? (·.id = firstKeptEntryId)).getD (pre.length + 1)) := by
  have hi : prevCompactionIndex (pre ++ c :: post) = some pre.length := by
    have happ : pre ++ c :: post = (pre ++ [c]) ++ post := by simp
    rw [happ, prevCompactionIndex_append_of_none hpost, prevCompactionIndex_snoc, if_pos]
    exact SessionEntry.isCompaction_iff.mpr ⟨_, _, _, _, _, _, hb⟩
  obtain ⟨id, parentId, timestamp, body⟩ := c
  subst hb
  unfold compactionBoundary
  rw [hi]
  simp

/-! ### Nothing is lost -/

/-- The messages of a path without the summary of its last compaction. -/
def messagesWithoutSummary (getTime : String → ℤ) (path : List SessionEntry) : Option (List AgentMessage) :=
  (buildSessionContext getTime path none (indexById path)).map fun context =>
    if path.any (·.isCompaction) then context.messages.tail else context.messages

/-- Every branch summary on the path says something. -/
def BranchSummariesNonEmpty (path : List SessionEntry) : Prop :=
  ∀ e ∈ path, ∀ fromId summary details fromHook, e.body = .branchSummary fromId summary details fromHook →
    summary ≠ ""

/-- If the last compaction of the path names an entry after itself as its first
kept one, nothing between the two carries a message. -/
def NothingBeforeFirstKept (getTime : String → ℤ) (path : List SessionEntry) : Prop :=
  ∀ (pre : List SessionEntry) (c : SessionEntry) post, path = pre ++ c :: post → (∀ x ∈ post, x.isCompaction = false) →
    ∀ summary first tokens details hook index, c.body = EntryBody.compaction summary first tokens details hook index →
      ∀ a (k : SessionEntry) b, post = a ++ k :: b → k.id = first → entryMessages getTime a = []

section

variable (getTime : String → ℤ)

/-- Both traversals read the same message from an entry. -/
theorem messagesBetween_eq {path : List SessionEntry} (h : BranchSummariesNonEmpty path) (a b : ℕ) :
    messagesBetween getTime path a b = entryMessages getTime ((path.take b).drop a) := by
  refine List.filterMap_congr fun e he => ?_
  have hs := h e (List.mem_of_mem_take (List.mem_of_mem_drop he))
  unfold getMessageFromEntryForCompaction getMessageFromEntry contextMessage
  cases hb : e.body with
  | branchSummary f s d ho =>
    have : s ≠ "" := hs f s d ho hb
    simp [SessionEntry.isCompaction, hb, truthy, this]
  | _ => simp [SessionEntry.isCompaction, hb]

/-- The compaction that is appended keeps the entries from the first kept one on. -/
theorem messagesWithoutSummary_compacted {path : List SessionEntry} {c : SessionEntry} {k : ℕ} {e : SessionEntry}
    {summary : String} {tokensBefore : ℕ} {details : Option Json} {fromHook : Option Bool} {index : Option ℕ}
    (h : RootToLeaf (path ++ [c])) (hk : path[k]? = some e)
    (hc : c.body = .compaction summary e.id tokensBefore details fromHook index) :
    messagesWithoutSummary getTime (path ++ [c]) = some (entryMessages getTime (path.drop k)) := by
  have hcc : c.isCompaction = true := SessionEntry.isCompaction_iff.mpr ⟨_, _, _, _, _, _, hc⟩
  have hany : (path ++ [c]).any (·.isCompaction) = true := by simp [hcc]
  rw [messagesWithoutSummary, h.context getTime (by simp), Option.map_some, if_pos hany]
  show some (contextMessages getTime (path ++ [c])).tail = _
  rw [contextMessages_cut getTime hc (by simp) h.nodup, List.tail_cons, entryMessages_nil, List.append_nil,
    keptFrom_eq_drop h.of_append.nodup hk]

/-- The search for the first kept entry, in a path that has it. -/
theorem findIdx?_id {a b : List SessionEntry} {k : SessionEntry} (hn : (ids (a ++ k :: b)).Nodup) :
    (a ++ k :: b).findIdx? (fun e => decide (e.id = k.id)) = some a.length := by
  have ha : a.findIdx? (fun e => decide (e.id = k.id)) = none := by
    rw [List.findIdx?_eq_none_iff]
    intro x hx
    rw [ids_append, List.nodup_append] at hn
    have hne : x.id ≠ k.id := hn.2.2 _ (mem_ids_of_mem hx) _ (by simp)
    simpa using hne
  simp [List.findIdx?_append, ha, List.findIdx?_cons]

theorem exists_of_mem_ids {es : List SessionEntry} {id : String} (h : id ∈ ids es) :
    ∃ a, ∃ k : SessionEntry, ∃ b, es = a ++ k :: b ∧ k.id = id := by
  obtain ⟨k, hk, rfl⟩ := List.mem_map.mp h
  obtain ⟨a, b, rfl⟩ := List.append_of_mem hk
  exact ⟨a, k, b, rfl, rfl⟩

/-- What the last compaction kept, and where the next one starts to read. -/
theorem boundary_messages_iff {pre post : List SessionEntry} {c : SessionEntry} {first : String}
    (hc : c.isCompaction = true) (hn : (ids (pre ++ c :: post)).Nodup) :
    entryMessages getTime (keptFrom first pre) ++ entryMessages getTime post =
        entryMessages getTime ((pre ++ c :: post).drop
          (((pre ++ c :: post).findIdx? (·.id = first)).getD (pre.length + 1))) ↔
      ∀ a (k : SessionEntry) b, post = a ++ k :: b → k.id = first → entryMessages getTime a = [] := by
  have hcm : entryMessages getTime [c] = [] := by
    obtain ⟨s, f, t, de, ho, i, hb⟩ := SessionEntry.isCompaction_iff.mp hc
    simp [entryMessages, contextMessage, hb]
  have hcons : ∀ es, entryMessages getTime (c :: es) = entryMessages getTime es := by
    intro es
    rw [← List.singleton_append, entryMessages_append, hcm, List.nil_append]
  have hsplit := hn
  rw [ids_append, ids_cons, List.nodup_append, List.nodup_cons] at hsplit
  obtain ⟨hpre, ⟨hcpost, hpost⟩, hdisj⟩ := hsplit
  -- a first kept entry that is not after the compaction leaves nothing out
  have hvac : first ∉ ids post → ∀ a (k : SessionEntry) b, post = a ++ k :: b → k.id = first → entryMessages getTime a = [] := by
    rintro h a k b rfl rfl
    exact absurd (mem_ids_of_mem (by simp)) h
  by_cases h1 : first ∈ ids pre
  · obtain ⟨a, k, b, rfl, rfl⟩ := exists_of_mem_ids h1
    refine iff_of_true ?_ (hvac fun h => hdisj _ h1 _ (List.mem_cons_of_mem _ h) rfl)
    rw [List.append_assoc, List.cons_append] at hn ⊢
    rw [findIdx?_id hn, Option.getD_some, List.drop_left, keptFrom_eq_drop hpre (k := a.length) (by simp),
      List.drop_left, ← List.cons_append, entryMessages_append, hcons]
  · rw [keptFrom_eq_nil h1, entryMessages_nil, List.nil_append]
    by_cases h2 : c.id = first
    · subst h2
      refine iff_of_true ?_ (hvac hcpost)
      rw [findIdx?_id hn, Option.getD_some, List.drop_left, hcons]
    · by_cases h3 : first ∈ ids post
      · obtain ⟨a, k, b, rfl, rfl⟩ := exists_of_mem_ids h3
        have happ : pre ++ c :: (a ++ k :: b) = (pre ++ c :: a) ++ k :: b := by simp
        rw [happ] at hn ⊢
        rw [findIdx?_id hn, Option.getD_some, List.drop_left, entryMessages_append, List.append_left_eq_self]
        refine ⟨fun h a' k' b' hab hk => ?_, fun h => h a k b rfl rfl⟩
        have hlen : a = a' := by
          have hl := findIdx?_id hpost
          rw [hab] at hl hpost
          rw [← hk, findIdx?_id hpost, Option.some.injEq] at hl
          exact List.append_inj_left hab hl.symm
        exact hlen ▸ h
      · refine iff_of_true ?_ (hvac h3)
        have hnone : (pre ++ c :: post).findIdx? (fun e => decide (e.id = first)) = none := by
          rw [List.findIdx?_eq_none_iff]
          intro x hx
          have hne : x.id ≠ first := by
            rintro rfl
            have := mem_ids_of_mem hx
            rw [ids_append, ids_cons, List.mem_append, List.mem_cons] at this
            exact this.elim h1 fun h => h.elim (fun h => h2 h.symm) h3
          simpa using hne
        have happ : pre ++ c :: post = (pre ++ [c]) ++ post := by simp
        rw [hnone, Option.getD_none, happ, List.drop_left' (by simp)]

/-- The messages before the compaction are those from the boundary of the last
one on, if nothing carries a message that stands between that one and a boundary
after it. -/
theorem messagesWithoutSummary_iff {path : List SessionEntry} (h : RootToLeaf path) (hne : path ≠ []) :
    ∃ before, messagesWithoutSummary getTime path = some before ∧
      (before = entryMessages getTime (path.drop (compactionBoundary path).2) ↔
        NothingBeforeFirstKept getTime path) := by
  refine ⟨_, by rw [messagesWithoutSummary, h.context getTime hne, Option.map_some], ?_⟩
  rcases lastCompaction_cases path with ⟨h0, hnc⟩ | ⟨pre, c, post, rfl, hc, hpost, -⟩
  · have hany : path.any (·.isCompaction) = false := by simpa using hnc
    rw [hany, compactionBoundary_of_none hnc, List.drop_zero]
    refine iff_of_true (contextMessages_of_none getTime h0) fun pre c post hp _ s f t de ho i hb => ?_
    have := hnc c (hp ▸ by simp)
    simp [SessionEntry.isCompaction, hb] at this
  · obtain ⟨s, f, t, de, ho, i, hb⟩ := SessionEntry.isCompaction_iff.mp hc
    have hany : (pre ++ c :: post).any (·.isCompaction) = true := by simp [hc]
    have hnothing : NothingBeforeFirstKept getTime (pre ++ c :: post) ↔
        ∀ a (k : SessionEntry) b, post = a ++ k :: b → k.id = f → entryMessages getTime a = [] := by
      refine ⟨fun hN => hN pre c post rfl hpost s f t de ho i hb, fun hN pre' c' post' hp hpost' => ?_⟩
      intro s' f' t' de' ho' i' hb'
      obtain ⟨rfl, rfl, rfl⟩ := lastCut_unique hp hc (SessionEntry.isCompaction_iff.mpr ⟨_, _, _, _, _, _, hb'⟩)
        hpost hpost'
      rw [hb] at hb'
      cases hb'
      exact hN
    rw [if_pos hany, hnothing, ← boundary_messages_iff getTime hc h.nodup, compactionBoundary_cut hb hpost]
    show (contextMessages getTime (pre ++ c :: post)).tail = _ ↔ _
    rw [contextMessages_cut getTime hb hpost h.nodup, List.tail_cons]

theorem compactionBoundary_le {path : List SessionEntry} (hlast : path.getLast?.any (·.isCompaction) = false) :
    (compactionBoundary path).2 ≤ path.length := by
  rcases lastCompaction_cases path with ⟨-, hnc⟩ | ⟨pre, c, post, rfl, hc, hpost, -⟩
  · rw [compactionBoundary_of_none hnc]
    exact Nat.zero_le _
  · obtain ⟨s, f, t, de, ho, i, hb⟩ := SessionEntry.isCompaction_iff.mp hc
    rw [compactionBoundary_cut hb hpost]
    cases hf : (pre ++ c :: post).findIdx? (fun e => decide (e.id = f)) with
    | none => simp
    | some j => exact (List.findIdx?_eq_some_iff_getElem.mp hf).1.le

/-- **A compaction loses and duplicates no message exactly when nothing that
carries one stands between the last compaction and a first kept entry after it.** -/
theorem prepareCompaction_keeps_iff {argumentsLength : Json → ℕ} {path : List SessionEntry}
    {settings : CompactionSettings} {p : CompactionPreparation} {c : SessionEntry} {summary : String}
    {tokensBefore : ℕ} {details : Option Json} {fromHook : Option Bool} {index : Option ℕ}
    (hpath : RootToLeaf (path ++ [c]))
    (hc : c.body = .compaction summary p.firstKeptEntryId tokensBefore details fromHook index)
    (hbs : BranchSummariesNonEmpty path)
    (hp : prepareCompaction getTime argumentsLength path settings = some (some p)) :
    ∃ before after, messagesWithoutSummary getTime path = some before ∧
      messagesWithoutSummary getTime (path ++ [c]) = some after ∧
      (before = p.messagesToSummarize ++ p.turnPrefixMessages ++ after ↔ NothingBeforeFirstKept getTime path) := by
  have hlast : path.getLast?.any (·.isCompaction) = false := by
    by_contra h
    rw [prepareCompaction, if_pos (by simpa using h)] at hp
    cases hp
  obtain ⟨k, e, -, hk, hfirst, hle, hmsgs⟩ := prepareCompaction_spec getTime (compactionBoundary_le hlast) hp
  have hne : path ≠ [] := by
    rintro rfl
    simp at hk
  obtain ⟨before, hbefore, hiff⟩ := messagesWithoutSummary_iff getTime hpath.of_append hne
  refine ⟨before, _, hbefore, messagesWithoutSummary_compacted getTime hpath hk (hfirst ▸ hc), ?_⟩
  have hcat : ((path.take k).drop (compactionBoundary path).2) ++ path.drop k =
      path.drop (compactionBoundary path).2 := by
    have hkl : k < path.length := (List.getElem?_eq_some_iff.mp hk).1
    generalize (compactionBoundary path).2 = b at hle
    conv_rhs => rw [← List.take_append_drop k path]
    rw [List.drop_append_of_le_length (by rw [List.length_take]; omega)]
  rw [hmsgs, messagesBetween_eq getTime hbs, ← entryMessages_append, hcat, hiff]

end

/-! ### A compaction whose first kept entry comes after it -/

/-- A compaction that names the last of the two messages after it. -/
def aheadPath : List SessionEntry :=
  [⟨"c", none, "t", .compaction "old" "k" 10 none none none⟩, ⟨"m", some "c", "t", .message (.user (.text "lost") 0)⟩,
    ⟨"k", some "m", "t", .message (.user (.text "kept") 0)⟩]

/-- The compaction of that path. -/
def aheadCompaction : SessionEntry := ⟨"d", some "k", "t", .compaction "new" "k" 10 none none none⟩

/-- It keeps the last message and summarizes none. -/
def aheadPreparation : CompactionPreparation :=
  ⟨"k", [], [], false, 3, some "old", ⟨[], [], []⟩, ⟨true, 16384, 20000⟩⟩

theorem aheadPath_rootToLeaf : RootToLeaf (aheadPath ++ [aheadCompaction]) where
  nodup := by decide
  id_ne := by decide
  links := by simp [aheadPath, aheadCompaction, Links]
  root := by decide

theorem aheadPath_summaries : BranchSummariesNonEmpty aheadPath := by
  intro e he f s d h hb
  simp only [aheadPath, List.mem_cons, List.not_mem_nil, or_false] at he
  rcases he with rfl | rfl | rfl <;> cases hb

theorem prepareCompaction_ahead :
    prepareCompaction (fun _ => 0) (fun _ => 0) aheadPath ⟨true, 16384, 20000⟩ = some (some aheadPreparation) := by
  decide

/-- The message between the two is neither summarized nor kept. -/
theorem prepareCompaction_loses : ¬ ∀ (getTime : String → ℤ) (argumentsLength : Json → ℕ) (path : List SessionEntry)
    (settings : CompactionSettings) (p : CompactionPreparation) (c : SessionEntry) (summary : String)
    (tokensBefore : ℕ) (details : Option Json) (fromHook : Option Bool) (index : Option ℕ),
    RootToLeaf (path ++ [c]) →
    c.body = .compaction summary p.firstKeptEntryId tokensBefore details fromHook index →
    BranchSummariesNonEmpty path →
    prepareCompaction getTime argumentsLength path settings = some (some p) →
    ∀ before after, messagesWithoutSummary getTime path = some before →
      messagesWithoutSummary getTime (path ++ [c]) = some after →
      before = p.messagesToSummarize ++ p.turnPrefixMessages ++ after := by
  intro h
  have := h (fun _ => 0) (fun _ => 0) aheadPath ⟨true, 16384, 20000⟩ aheadPreparation aheadCompaction "new" 10 none none
    none aheadPath_rootToLeaf rfl aheadPath_summaries prepareCompaction_ahead
    [.user (.text "lost") 0, .user (.text "kept") 0] [.user (.text "kept") 0] (by decide) (by decide)
  revert this
  decide

theorem prepareCompaction_keeps_iff_ahead : ∃ before after,
    messagesWithoutSummary (fun _ => 0) aheadPath = some before ∧
      messagesWithoutSummary (fun _ => 0) (aheadPath ++ [aheadCompaction]) = some after ∧
      (before = aheadPreparation.messagesToSummarize ++ aheadPreparation.turnPrefixMessages ++ after ↔
        NothingBeforeFirstKept (fun _ => 0) aheadPath) :=
  prepareCompaction_keeps_iff (fun _ => 0) aheadPath_rootToLeaf (c := aheadCompaction) rfl aheadPath_summaries
    prepareCompaction_ahead

end Trek
