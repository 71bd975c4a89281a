/-
# When a compaction splits a turn

`findCutPoint` cuts at the entry its budget chooses and then moves the cut back over the entries
before it that are neither messages nor compactions. It reads off the entry it ends at whether a
turn is split. That is right just if the entry is a message of the user, or no turn starts at the
cut or before it, or none starts from the cut to the entry the budget chose
(`findCutPoint_realSplit_iff`); a marker of a prompt before a message of the user makes it report
that the turn before is split.
-/
import Mathlib.Order.Bounds.Basic
import Trek.Compaction.Prepare

namespace Trek

/-! ### Searches of sorted lists -/

/-- The first element with a property of a list that is sorted. -/
theorem find?_spec_of_pairwise {α : Type*} {r : α → α → Prop} {p : α → Bool} {l : List α} {a : α} (hl : l.Pairwise r)
    (h : l.find? p = some a) : a ∈ l ∧ p a = true ∧ ∀ x ∈ l, p x = true → x = a ∨ r a x := by
  obtain ⟨hp, before, after, rfl, hbefore⟩ := List.find?_eq_some_iff_append.mp h
  refine ⟨List.mem_append_right _ List.mem_cons_self, hp, fun x hx hpx => ?_⟩
  rcases List.mem_append.mp hx with hx | hx
  · have hno := hbefore x hx
    rw [hpx] at hno
    cases hno
  · rcases List.mem_cons.mp hx with rfl | hx
    · exact Or.inl rfl
    · exact Or.inr ((List.pairwise_cons.mp (List.pairwise_append.mp hl).2.1).1 x hx)

theorem find?_isLeast {p : ℕ → Bool} {l : List ℕ} {a : ℕ} (hl : l.Pairwise (· < ·)) (h : l.find? p = some a) :
    IsLeast {x | x ∈ l ∧ p x = true} a := by
  obtain ⟨ha, hp, hleast⟩ := find?_spec_of_pairwise hl h
  refine ⟨⟨ha, hp⟩, fun x hx => ?_⟩
  have := hleast x hx.1 hx.2
  omega

theorem find?_isGreatest {p : ℕ → Bool} {l : List ℕ} {a : ℕ} (hl : l.Pairwise (· > ·)) (h : l.find? p = some a) :
    IsGreatest {x | x ∈ l ∧ p x = true} a := by
  obtain ⟨ha, hp, hgreatest⟩ := find?_spec_of_pairwise hl h
  refine ⟨⟨ha, hp⟩, fun x hx => ?_⟩
  have := hgreatest x hx.1 hx.2
  omega

/-! ### The cut the budget chooses -/

section

variable (argumentsLength : Json → ℕ) (entries : List SessionEntry)

/-- The tokens of the message at an index. -/
def messageTokens (i : ℕ) : ℕ :=
  match entries[i]? with
  | some ⟨_, _, _, .message m⟩ => estimateTokens argumentsLength m
  | _ => 0

/-- The tokens of the messages from an index on. -/
def tokensFrom (i endIndex : ℕ) : ℕ := ((List.range' i (endIndex - i)).map (messageTokens argumentsLength entries)).sum

/-- From this message on the messages of the range amount to `keepRecentTokens`. -/
structure FillsBudget (startIndex endIndex : ℕ) (keepRecentTokens : ℚ) (i : ℕ) : Prop where
  le : startIndex ≤ i
  lt : i < endIndex
  message : entries[i]?.any (·.isMessage)
  fills : keepRecentTokens ≤ tokensFrom argumentsLength entries i endIndex

/-- The cut point that the budget chooses: the first one from the last message on that fills it, or
the first of all if there is none. -/
def IsBudgetCut (startIndex endIndex : ℕ) (keepRecentTokens : ℚ) (b : ℕ) : Prop :=
  let cutPoints := findValidCutPoints entries startIndex endIndex
  let filled := {i | FillsBudget argumentsLength entries startIndex endIndex keepRecentTokens i}
  (∃ w, IsGreatest filled w ∧ IsLeast {c | c ∈ cutPoints ∧ w ≤ c} b) ∨
    ((∀ w, IsGreatest filled w → ∀ c ∈ cutPoints, c < w) ∧ IsLeast {c | c ∈ cutPoints} b)

/-- The cut is moved over an entry. -/
def isPassedOver (e : SessionEntry) : Bool := !e.isCompaction && !e.isMessage

/-- The first of the entries before `b`, one next to the other, that the cut is moved over. -/
def IsScanStart (startIndex b j : ℕ) : Prop :=
  IsLeast {j | startIndex ≤ j ∧ j ≤ b ∧ ∀ i, j ≤ i → i < b → entries[i]?.all isPassedOver} j

/-- An entry of the given index starts a turn. -/
def turnAt (i : ℕ) : Bool := entries[i]?.any startsTurn

/-- The message at the given index is one of the user. -/
def userAt (i : ℕ) : Bool :=
  entries[i]?.any fun e =>
    match e.body with
    | .message (.user ..) => true
    | _ => false

/-- The first entry from `cut` on that makes a message of the context. -/
def IsFirstMessage (getTime : String → ℤ) (cut f : ℕ) : Prop :=
  IsLeast {f | cut ≤ f ∧ (entries[f]?.bind (getMessageFromEntryForCompaction getTime)).isSome} f

/-- A turn that is reported as split is split: the first message that is kept does not start it, and
the last start of a turn before that message is the one reported. -/
def RealSplit (getTime : String → ℤ) (startIndex : ℕ) (cut : CutPointResult) : Prop :=
  cut.isSplitTurn = true → ∃ f, IsFirstMessage entries getTime cut.firstKeptEntryIndex f ∧ turnAt entries f = false ∧
    ∃ t, cut.turnStartIndex = some t ∧ IsGreatest {t | startIndex ≤ t ∧ t < f ∧ turnAt entries t = true} t

end

variable {argumentsLength : Json → ℕ} {entries : List SessionEntry} {startIndex endIndex : ℕ} {keepRecentTokens : ℚ}

theorem isScanStart_unique {b i j : ℕ} (hi : IsScanStart entries startIndex b i) (hj : IsScanStart entries startIndex b j) :
    i = j := hi.unique hj

theorem isBudgetCut_unique {b c : ℕ} (hb : IsBudgetCut argumentsLength entries startIndex endIndex keepRecentTokens b)
    (hc : IsBudgetCut argumentsLength entries startIndex endIndex keepRecentTokens c) : b = c := by
  rcases hb with ⟨w, hw, hb⟩ | ⟨hno, hb⟩ <;> rcases hc with ⟨v, hv, hc⟩ | ⟨hno', hc⟩
  · obtain rfl := hw.unique hv
    exact hb.unique hc
  · exact absurd hb.1.2 (Nat.not_le.mpr (hno' w hw b hb.1.1))
  · exact absurd hc.1.2 (Nat.not_le.mpr (hno v hv c hc.1.1))
  · exact hb.unique hc

theorem IsBudgetCut.mem {b : ℕ} (hb : IsBudgetCut argumentsLength entries startIndex endIndex keepRecentTokens b) :
    b ∈ findValidCutPoints entries startIndex endIndex := by
  rcases hb with ⟨w, -, hb⟩ | ⟨-, hb⟩
  · exact hb.1.1
  · exact hb.1

theorem pairwise_findValidCutPoints (entries : List SessionEntry) (startIndex endIndex : ℕ) :
    (findValidCutPoints entries startIndex endIndex).Pairwise (· < ·) :=
  List.Pairwise.filter _ List.pairwise_lt_range'

theorem tokensFrom_of_lt {i : ℕ} (h : i < endIndex) : tokensFrom argumentsLength entries i endIndex =
    messageTokens argumentsLength entries i + tokensFrom argumentsLength entries (i + 1) endIndex := by
  have hn : endIndex - i = (endIndex - (i + 1)) + 1 := by omega
  rw [tokensFrom, hn, List.range'_succ, List.map_cons, List.sum_cons, tokensFrom]

/-- One step of the walk. -/
theorem budgetCut_cons (cutPoints : List ℕ) (cutIndex i : ℕ) (is : List ℕ) (accumulatedTokens : ℕ) :
    budgetCut argumentsLength entries cutPoints keepRecentTokens cutIndex (i :: is) accumulatedTokens =
      if entries[i]?.any (·.isMessage) ∧
          keepRecentTokens ≤ (messageTokens argumentsLength entries i + accumulatedTokens : ℕ) then
        (cutPoints.find? (i ≤ ·)).getD cutIndex
      else budgetCut argumentsLength entries cutPoints keepRecentTokens cutIndex is
        (messageTokens argumentsLength entries i + accumulatedTokens) := by
  rw [budgetCut.eq_def]
  dsimp only
  split
  · rename_i m heq
    have htokens : messageTokens argumentsLength entries i = estimateTokens argumentsLength m := by
      unfold messageTokens
      rw [heq]
    rw [heq, htokens, Nat.add_comm accumulatedTokens]
    simp [SessionEntry.isMessage]
  · rename_i hno
    have hmessage : entries[i]?.any (·.isMessage) = false := by
      cases he : entries[i]? with
      | none => rfl
      | some e =>
        obtain ⟨id, parentId, timestamp, body⟩ := e
        cases body with
        | message m => exact absurd he (hno id parentId timestamp m)
        | _ => rfl
    have htokens : messageTokens argumentsLength entries i = 0 := by
      unfold messageTokens
      split
      · rename_i m heq
        exact absurd heq (hno _ _ _ m)
      · rfl
    rw [if_neg fun h => (by rw [hmessage] at h; cases h.1), htokens, Nat.zero_add]

theorem isLeast_head {first : ℕ} {rest : List ℕ} (hcut : findValidCutPoints entries startIndex endIndex = first :: rest) :
    IsLeast {c | c ∈ findValidCutPoints entries startIndex endIndex} first := by
  have hsorted := pairwise_findValidCutPoints entries startIndex endIndex
  rw [hcut] at hsorted ⊢
  refine ⟨List.mem_cons_self, fun c hc => ?_⟩
  rcases List.mem_cons.mp hc with rfl | hc
  · exact le_rfl
  · exact ((List.pairwise_cons.mp hsorted).1 c hc).le

/-- The walk ends at the cut point the budget chooses. The induction is on the entries still to
visit; none of those visited fills the budget. -/
theorem budgetCut_isBudgetCut {first : ℕ} {rest : List ℕ}
    (hcut : findValidCutPoints entries startIndex endIndex = first :: rest) : ∀ n, startIndex + n ≤ endIndex →
    (∀ i, startIndex + n ≤ i → ¬ FillsBudget argumentsLength entries startIndex endIndex keepRecentTokens i) →
    IsBudgetCut argumentsLength entries startIndex endIndex keepRecentTokens
      (budgetCut argumentsLength entries (first :: rest) keepRecentTokens first (List.range' startIndex n).reverse
        (tokensFrom argumentsLength entries (startIndex + n) endIndex))
  | 0, _, hno => Or.inr ⟨fun w hw => absurd hw.1 (hno w hw.1.le), isLeast_head hcut⟩
  | n + 1, hn, hno => by
    have hrange : (List.range' startIndex (n + 1)).reverse = (startIndex + n) :: (List.range' startIndex n).reverse := by
      rw [List.range'_concat, List.reverse_append, Nat.one_mul]
      rfl
    have htokens : tokensFrom argumentsLength entries (startIndex + n) endIndex =
        messageTokens argumentsLength entries (startIndex + n) +
          tokensFrom argumentsLength entries (startIndex + n + 1) endIndex := tokensFrom_of_lt (by omega)
    rw [hrange, budgetCut_cons, ← Nat.add_assoc startIndex n 1, ← htokens]
    split
    · -- this message fills the budget, and no later one does
      rename_i hfills
      have hgreatest : IsGreatest {i | FillsBudget argumentsLength entries startIndex endIndex keepRecentTokens i}
          (startIndex + n) := by
        refine ⟨⟨by omega, by omega, hfills.1, hfills.2⟩, fun i hi => ?_⟩
        by_contra hlt
        exact hno i (by omega) hi
      cases hfind : (first :: rest).find? (startIndex + n ≤ ·) with
      | none =>
        refine Or.inr ⟨fun w hw c hc => ?_, isLeast_head hcut⟩
        obtain rfl := hw.unique hgreatest
        rw [hcut] at hc
        have := List.find?_eq_none.mp hfind c hc
        simp only [decide_eq_true_eq] at this
        omega
      | some b =>
        have hleast := find?_isLeast (hcut ▸ pairwise_findValidCutPoints entries startIndex endIndex) hfind
        refine Or.inl ⟨startIndex + n, hgreatest, ?_⟩
        simp only [decide_eq_true_eq, ← hcut] at hleast
        exact hleast
    · rename_i hfills
      refine budgetCut_isBudgetCut hcut n (by omega) fun i hi hfill => ?_
      rcases Nat.eq_or_lt_of_le hi with rfl | hlt
      · exact hfills ⟨hfill.message, hfill.fills⟩
      · exact hno i (by omega) hfill

/-- The scan ends at the first of the entries it may be moved over. -/
theorem scanBack_isScanStart (entries : List SessionEntry) (startIndex : ℕ) : ∀ b, startIndex ≤ b →
    IsScanStart entries startIndex b (scanBack entries startIndex b)
  | 0, h => ⟨⟨h, le_rfl, fun i _ hi => absurd hi (Nat.not_lt_zero i)⟩, fun _ _ => Nat.zero_le _⟩
  | b + 1, h => by
    rw [scanBack]
    split
    · rename_i hpassed
      obtain ⟨⟨hstart, hle, hall⟩, hleast⟩ := scanBack_isScanStart entries startIndex b (by omega)
      refine ⟨⟨hstart, by omega, fun i hi hib => ?_⟩, fun j hj => ?_⟩
      · rcases Nat.eq_or_lt_of_le (Nat.lt_succ_iff.mp hib) with rfl | hlt
        · exact hpassed.2
        · exact hall i hi hlt
      · rcases Nat.eq_or_lt_of_le hj.2.1 with rfl | hlt
        · omega
        · exact hleast ⟨hj.1, by omega, fun i hi hib => hj.2.2 i hi (by omega)⟩
    · rename_i hstop
      refine ⟨⟨h, le_rfl, fun i hi hib => absurd hib (by omega)⟩, fun j hj => ?_⟩
      by_contra hlt
      exact hstop ⟨by have := hj.1; omega, hj.2.2 b (by omega) (by omega)⟩

/-! ### What the cut says about the turn -/

/-- The result of a cut at an entry. -/
def cutResultAt (entries : List SessionEntry) (startIndex cutIndex : ℕ) : CutPointResult :=
  let turnStartIndex := if userAt entries cutIndex then none else findTurnStartIndex entries cutIndex startIndex
  ⟨cutIndex, turnStartIndex, !userAt entries cutIndex && turnStartIndex.isSome⟩

theorem findTurnStartIndex_isGreatest {cutIndex t : ℕ} (h : findTurnStartIndex entries cutIndex startIndex = some t) :
    IsGreatest {t | startIndex ≤ t ∧ t ≤ cutIndex ∧ turnAt entries t = true} t := by
  have hsorted : (List.range' startIndex (cutIndex + 1 - startIndex)).reverse.Pairwise (· > ·) :=
    List.pairwise_reverse.mpr List.pairwise_lt_range'
  obtain ⟨⟨hmem, hp⟩, hgreatest⟩ := find?_isGreatest hsorted h
  have hbounds := List.mem_range'_1.mp (List.mem_reverse.mp hmem)
  refine ⟨⟨by omega, by omega, hp⟩, fun i hi => hgreatest ⟨List.mem_reverse.mpr (List.mem_range'_1.mpr ?_), hi.2.2⟩⟩
  have := hi.1
  have := hi.2.1
  omega

theorem findTurnStartIndex_eq_none {cutIndex : ℕ} (h : findTurnStartIndex entries cutIndex startIndex = none) {i : ℕ}
    (hi : startIndex ≤ i) (hic : i ≤ cutIndex) : turnAt entries i = false := by
  refine Bool.eq_false_iff.mpr (List.find?_eq_none.mp h i (List.mem_reverse.mpr (List.mem_range'_1.mpr ?_)))
  omega

/-- A cut moved from `b` back to `j` says what it says of the entry at `b`: it is at a message of the
user, or no turn starts up to it, or none starts from it to `b`. -/
def ClearCut (entries : List SessionEntry) (startIndex b j : ℕ) : Prop :=
  userAt entries j = true ∨ (∀ i, startIndex ≤ i → i ≤ j → turnAt entries i = false) ∨
    ∀ i, j ≤ i → i ≤ b → turnAt entries i = false

section

variable {getTime : String → ℤ} {e : SessionEntry}

theorem isSome_of_isCutPoint (h : isCutPoint e = true) : (getMessageFromEntryForCompaction getTime e).isSome := by
  obtain ⟨id, parentId, timestamp, body⟩ := e
  cases body <;> first | rfl | cases h

theorem isSome_of_startsTurn (h : startsTurn e = true) : (getMessageFromEntryForCompaction getTime e).isSome := by
  obtain ⟨id, parentId, timestamp, body⟩ := e
  cases body <;> first | rfl | cases h

/-- An entry the cut is moved over that makes a message starts a turn. -/
theorem startsTurn_of_isPassedOver (hpassed : isPassedOver e = true)
    (h : (getMessageFromEntryForCompaction getTime e).isSome) : startsTurn e = true := by
  obtain ⟨id, parentId, timestamp, body⟩ := e
  cases body with
  | message m => cases hpassed
  | branchSummary | customMessage => rfl
  | _ => cases h

theorem isSome_of_turnAt {i : ℕ} (h : turnAt entries i = true) :
    (entries[i]?.bind (getMessageFromEntryForCompaction getTime)).isSome := by
  obtain ⟨e, he, hturn⟩ := (Option.any_eq_true _ _).mp h
  rw [he]
  exact isSome_of_startsTurn hturn

theorem turnAt_of_passedOver {i : ℕ} (hpassed : entries[i]?.all isPassedOver)
    (h : (entries[i]?.bind (getMessageFromEntryForCompaction getTime)).isSome) : turnAt entries i = true := by
  cases he : entries[i]? with
  | none =>
    rw [he] at h
    cases h
  | some e =>
    rw [he] at hpassed h
    rw [turnAt, he]
    exact startsTurn_of_isPassedOver hpassed h

end

/-- Whether the turn is split for sure, at the cut that the scan reaches from a cut point. -/
theorem cutResultAt_realSplit_iff (getTime : String → ℤ) {b j : ℕ} (hb : b ∈ findValidCutPoints entries startIndex endIndex)
    (hj : IsScanStart entries startIndex b j) :
    RealSplit entries getTime startIndex (cutResultAt entries startIndex j) ↔ ClearCut entries startIndex b j := by
  obtain ⟨⟨hstart, hjb, hpassed⟩, -⟩ := hj
  -- the entry at `b` makes a message
  have hbmessage : (entries[b]?.bind (getMessageFromEntryForCompaction getTime)).isSome := by
    have hcut := (List.mem_filter.mp hb).2
    obtain ⟨e, he, hcut⟩ := (Option.any_eq_true _ _).mp hcut
    rw [he]
    exact isSome_of_isCutPoint hcut
  cases huser : userAt entries j with
  | true => exact iff_of_true (fun h => by simp [cutResultAt, huser] at h) (Or.inl huser)
  | false =>
    cases hturn : findTurnStartIndex entries j startIndex with
    | none =>
      refine iff_of_true (fun h => by simp [cutResultAt, huser, hturn] at h) (Or.inr (Or.inl ?_))
      exact fun i hi hij => findTurnStartIndex_eq_none hturn hi hij
    | some t =>
      have ht := findTurnStartIndex_isGreatest hturn
      have hresult : cutResultAt entries startIndex j = ⟨j, some t, true⟩ := by simp [cutResultAt, huser, hturn]
      rw [hresult]
      constructor
      · rintro h
        obtain ⟨f, ⟨⟨hjf, hfmessage⟩, hfirst⟩, hfturn, -⟩ := h rfl
        -- the first message is the entry at `b`: any before it would start a turn
        have hfb : f = b := by
          have hle : f ≤ b := hfirst ⟨hjb, hbmessage⟩
          by_contra hne
          rw [turnAt_of_passedOver (hpassed f hjf (by omega)) hfmessage] at hfturn
          cases hfturn
        refine Or.inr (Or.inr fun i hi hib => ?_)
        by_contra hturn
        rw [Bool.not_eq_false] at hturn
        have hle : f ≤ i := hfirst ⟨hi, isSome_of_turnAt hturn⟩
        obtain rfl : i = f := by omega
        rw [hturn] at hfturn
        cases hfturn
      · intro h _
        have hclear : ∀ i, j ≤ i → i ≤ b → turnAt entries i = false := by
          rcases h with h | h | h
          · rw [huser] at h
            cases h
          · have := h t ht.1.1 ht.1.2.1
            rw [ht.1.2.2] at this
            cases this
          · exact h
        refine ⟨b, ⟨⟨hjb, hbmessage⟩, fun f hf => ?_⟩, hclear b hjb le_rfl, t, rfl, ⟨ht.1.1, ?_, ht.1.2.2⟩, fun i hi => ?_⟩
        · by_contra hlt
          have hno := hclear f hf.1 (by omega)
          rw [turnAt_of_passedOver (hpassed f hf.1 (by omega)) hf.2] at hno
          cases hno
        · by_contra hlt
          have hno := hclear t (by omega) (by have := ht.1.2.1; omega)
          rw [ht.1.2.2] at hno
          cases hno
        · by_contra hlt
          rcases Nat.le_total i j with hij | hij
          · exact hlt (ht.2 ⟨hi.1, hij, hi.2.2⟩)
          · have hno := hclear i hij (by have := hi.2.1; omega)
            rw [hi.2.2] at hno
            cases hno

/-- The cut is where the scan ends from the cut point that the budget chooses. -/
theorem findCutPoint_eq (argumentsLength : Json → ℕ) (keepRecentTokens : ℚ) (hne : findValidCutPoints entries startIndex endIndex ≠ []) :
    ∃ b, IsBudgetCut argumentsLength entries startIndex endIndex keepRecentTokens b ∧
      findCutPoint argumentsLength entries startIndex endIndex keepRecentTokens =
        cutResultAt entries startIndex (scanBack entries startIndex b) := by
  obtain ⟨first, rest, hcut⟩ := List.exists_cons_of_ne_nil hne
  have hfirst := mem_findValidCutPoints (hcut ▸ List.mem_cons_self : first ∈ findValidCutPoints entries startIndex endIndex)
  have hle : startIndex + (endIndex - startIndex) = endIndex := by omega
  have hb : IsBudgetCut argumentsLength entries startIndex endIndex keepRecentTokens _ :=
    budgetCut_isBudgetCut hcut (endIndex - startIndex) hle.le fun i hi hfills => by have := hfills.lt; omega
  have htokens : tokensFrom argumentsLength entries (startIndex + (endIndex - startIndex)) endIndex = 0 := by
    rw [hle, tokensFrom, Nat.sub_self]
    rfl
  rw [htokens] at hb
  refine ⟨_, hb, ?_⟩
  simp only [findCutPoint, hcut]
  rfl

/-- Without a valid cut point the cut is the start of the range. -/
theorem findCutPoint_of_nil (argumentsLength : Json → ℕ) (keepRecentTokens : ℚ) (hnil : findValidCutPoints entries startIndex endIndex = []) :
    findCutPoint argumentsLength entries startIndex endIndex keepRecentTokens = ⟨startIndex, none, false⟩ := by
  rw [findCutPoint, hnil]

/-- **A turn that is reported as split is split, just if the cut the budget chooses is clear.** -/
theorem findCutPoint_realSplit_iff (getTime : String → ℤ) (argumentsLength : Json → ℕ) (entries : List SessionEntry)
    (startIndex endIndex : ℕ) (keepRecentTokens : ℚ) :
    RealSplit entries getTime startIndex (findCutPoint argumentsLength entries startIndex endIndex keepRecentTokens) ↔
      ∀ b j, IsBudgetCut argumentsLength entries startIndex endIndex keepRecentTokens b →
        IsScanStart entries startIndex b j → ClearCut entries startIndex b j := by
  by_cases hnil : findValidCutPoints entries startIndex endIndex = []
  · rw [findCutPoint_of_nil argumentsLength keepRecentTokens hnil]
    refine iff_of_true (fun h => by cases h) fun b j hb => ?_
    have := hb.mem
    rw [hnil] at this
    cases this
  · obtain ⟨b, hb, hresult⟩ := findCutPoint_eq argumentsLength keepRecentTokens hnil
    have hj := scanBack_isScanStart entries startIndex b (mem_findValidCutPoints hb.mem).1
    rw [hresult, cutResultAt_realSplit_iff getTime hb.mem hj]
    refine ⟨fun h b' j' hb' hj' => ?_, fun h => h b _ hb hj⟩
    obtain rfl := isBudgetCut_unique hb hb'
    obtain rfl := isScanStart_unique hj hj'
    exact h

/-! ### A marker before a message of the user -/

/-- A request that was answered, and the next one with its marker. -/
def markedEntries : List SessionEntry :=
  [⟨"a", none, "", .message (.user (.text "first") 0)⟩,
    ⟨"b", some "a", "", .message (.assistant ⟨[.text "done"], "api", "provider", "model", none, .stop, none, 1⟩)⟩,
    ⟨"c", some "b", "", .promptMeta 2 "p" none⟩,
    ⟨"d", some "c", "", .message (.user (.text "second") 2)⟩,
    ⟨"e", some "d", "", .message (.assistant ⟨[.text "done"], "api", "provider", "model", none, .stop, none, 3⟩)⟩]

theorem findCutPoint_marked : findCutPoint (fun _ => 0) markedEntries 0 5 3 = ⟨2, some 0, true⟩ := by decide

/-- The cut is at the start of a turn, and the turn before is reported as split. -/
theorem findCutPoint_marked_not_realSplit :
    ¬ RealSplit markedEntries (fun _ => 0) 0 (findCutPoint (fun _ => 0) markedEntries 0 5 3) := by
  rw [findCutPoint_marked]
  intro h
  obtain ⟨f, hf, hturn, -⟩ := h rfl
  have hfirst : IsFirstMessage markedEntries (fun _ => 0) 2 3 := by
    refine ⟨⟨by decide, rfl⟩, fun i hi => ?_⟩
    by_contra hlt
    obtain rfl : i = 2 := by have := hi.1; omega
    have := hi.2
    revert this
    decide
  obtain rfl := hf.unique hfirst
  revert hturn
  decide

end Trek
