/-
# What a compaction keeps of the budget

`findCutPoint` walks back until the messages amount to `keepRecentTokens`. The cut point it chooses
is at or after the message at which they do, so what is kept after the first kept message stays below
the budget (`findCutPoint_budget`). Where no cut point comes after that message, as after a long
result of a tool at the end, it falls back on the first cut point of all and keeps everything.
-/
import Mathlib.Order.Lattice.Nat
import Trek.Compaction.Split

namespace Trek

variable {argumentsLength : Json → ℕ} {entries : List SessionEntry} {startIndex endIndex : ℕ} {keepRecentTokens : ℚ}

/-- An entry of the range is a message. -/
def messageAt (entries : List SessionEntry) (endIndex i : ℕ) : Prop :=
  i < endIndex ∧ entries[i]?.any (·.isMessage) = true

/-- The messages after the first one from `cut` on amount to less than the budget, or there are none. -/
def KeepsBudget (argumentsLength : Json → ℕ) (entries : List SessionEntry) (endIndex : ℕ) (keepRecentTokens : ℚ)
    (cut : ℕ) : Prop :=
  ∀ f, IsLeast {f | cut ≤ f ∧ messageAt entries endIndex f} f →
    (∀ i, f < i → ¬ messageAt entries endIndex i) ∨ tokensFrom argumentsLength entries (f + 1) endIndex < keepRecentTokens

/-- The cut is a valid cut point, and unless it is the last one of the range, the messages after the first
kept one amount to less than the budget. -/
def RespectsBudget (argumentsLength : Json → ℕ) (entries : List SessionEntry) (startIndex endIndex : ℕ)
    (keepRecentTokens : ℚ) (cut : ℕ) : Prop :=
  cut ∈ findValidCutPoints entries startIndex endIndex ∧
    ((∀ c ∈ findValidCutPoints entries startIndex endIndex, c ≤ cut) ∨
      ∀ f, IsLeast {f | cut ≤ f ∧ messageAt entries endIndex f} f →
        tokensFrom argumentsLength entries (f + 1) endIndex < keepRecentTokens)

/-- Where messages follow, the tokens from there on are those from the first of them on. -/
theorem tokensFrom_firstMessage {i k : ℕ} (h : IsLeast {k | i ≤ k ∧ messageAt entries endIndex k} k) :
    tokensFrom argumentsLength entries i endIndex = tokensFrom argumentsLength entries k endIndex := by
  obtain ⟨⟨hik, hmessage⟩, hleast⟩ := h
  induction hik using Nat.decreasingInduction with
  | self => rfl
  | of_succ j hjk ih =>
    have hj : messageTokens argumentsLength entries j = 0 := by
      unfold messageTokens
      split
      · rename_i m he
        have := hleast ⟨le_rfl, by have := hmessage.1; omega, by rw [he]; rfl⟩
        omega
      · rfl
    rw [tokensFrom_of_lt (by have := hmessage.1; omega), hj, Nat.zero_add]
    exact ih fun x hx => hleast ⟨by have := hx.1; omega, hx.2⟩

/-- After a message from which on the budget is not yet filled again, less than the budget is kept. -/
theorem keepsBudget_of_not_fills {cut : ℕ} (hstart : startIndex ≤ cut)
    (h : ∀ f, IsLeast {f | cut ≤ f ∧ messageAt entries endIndex f} f →
      ∀ i, f < i → ¬ FillsBudget argumentsLength entries startIndex endIndex keepRecentTokens i) :
    KeepsBudget argumentsLength entries endIndex keepRecentTokens cut := by
  intro f hf
  by_cases hnone : ∀ i, f < i → ¬ messageAt entries endIndex i
  · exact Or.inl hnone
  · refine Or.inr (Rat.not_le.mp fun hfills => ?_)
    push Not at hnone
    obtain ⟨i, hi, hmessage⟩ := hnone
    classical
    have hex : ∃ k, f + 1 ≤ k ∧ messageAt entries endIndex k := ⟨i, hi, hmessage⟩
    have hspec := Nat.find_spec hex
    have hleast : IsLeast {k | f + 1 ≤ k ∧ messageAt entries endIndex k} (Nat.find hex) :=
      ⟨hspec, fun k hk => Nat.find_min' hex hk⟩
    refine h f hf (Nat.find hex) (by omega) ⟨?_, hspec.2.1, hspec.2.2, ?_⟩
    · have := hf.1.1
      omega
    · rwa [← tokensFrom_firstMessage hleast]

/-- **The cut is a valid cut point, moved back over entries that are neither messages nor compactions, and if a
cut point follows where the budget is filled, less than the budget is kept after the first kept message.** -/
theorem findCutPoint_budget (argumentsLength : Json → ℕ) (entries : List SessionEntry) (startIndex endIndex : ℕ)
    (keepRecentTokens : ℚ) :
    let cut := (findCutPoint argumentsLength entries startIndex endIndex keepRecentTokens).firstKeptEntryIndex
    (findValidCutPoints entries startIndex endIndex = [] → cut = startIndex) ∧
      (findValidCutPoints entries startIndex endIndex ≠ [] →
        ∃ b ∈ findValidCutPoints entries startIndex endIndex, IsScanStart entries startIndex b cut) ∧
      ((∀ w, IsGreatest {i | FillsBudget argumentsLength entries startIndex endIndex keepRecentTokens i} w →
          ∃ c ∈ findValidCutPoints entries startIndex endIndex, w ≤ c) →
        KeepsBudget argumentsLength entries endIndex keepRecentTokens cut) := by
  set filled := {i | FillsBudget argumentsLength entries startIndex endIndex keepRecentTokens i} with hfilled
  -- if the budget is filled at all, it is at a last message
  have hlast : ∀ i ∈ filled, IsGreatest filled (sSup filled) := by
    intro i hi
    have hbdd : BddAbove filled := ⟨endIndex, fun k hk => hk.lt.le⟩
    exact ⟨Nat.sSup_mem ⟨i, hi⟩ hbdd, fun k hk => le_csSup hbdd hk⟩
  by_cases hnil : findValidCutPoints entries startIndex endIndex = []
  · rw [findCutPoint_of_nil argumentsLength keepRecentTokens hnil]
    refine ⟨fun _ => rfl, fun h => absurd hnil h, fun h => keepsBudget_of_not_fills le_rfl fun f hf i hi hfills => ?_⟩
    obtain ⟨c, hc, -⟩ := h _ (hlast i hfills)
    rw [hnil] at hc
    cases hc
  · obtain ⟨b, hb, hresult⟩ := findCutPoint_eq argumentsLength keepRecentTokens hnil
    have hscan := scanBack_isScanStart entries startIndex b (mem_findValidCutPoints hb.mem).1
    obtain ⟨hstart, hle, hpassed⟩ := hscan.1
    rw [hresult]
    refine ⟨fun h => absurd h hnil, fun _ => ⟨b, hb.mem, hscan⟩, fun h => keepsBudget_of_not_fills hstart fun f hf i hi hfills => ?_⟩
    rcases hb with ⟨w, hw, hb⟩ | ⟨hno, -⟩
    · -- the first kept message is not before the one at which the budget is filled
      have hwf : w ≤ f := by
        by_contra hlt
        have hpass := hpassed f hf.1.1 (by have := hb.1.2; omega)
        obtain ⟨e, he, hmessage⟩ := (Option.any_eq_true _ _).mp hf.1.2.2
        rw [he] at hpass
        simp [isPassedOver, hmessage] at hpass
      have := hw.2 hfills
      omega
    · obtain ⟨c, hc, hwc⟩ := h _ (hlast i hfills)
      exact absurd hwc (Nat.not_le.mpr (hno _ (hlast i hfills) c hc))

/-! ### Two cuts that are not -/

/-- A model is chosen, and a request is made. -/
def modelEntries : List SessionEntry :=
  [⟨"a", none, "", .modelChange "provider" "model"⟩, ⟨"b", some "a", "", .message (.user (.text "first") 0)⟩]

/-- A request, a call of a tool and its long result. -/
def longResultEntries : List SessionEntry :=
  [⟨"a", none, "", .message (.user (.text "first") 0)⟩,
    ⟨"b", some "a", "", .message (.assistant
      ⟨[.toolCall ⟨"call", "read", .obj []⟩], "api", "provider", "model", none, .toolUse, none, 1⟩)⟩,
    ⟨"c", some "b", "", .message (.toolResult ⟨"call", "read", [.text "a long result"], none, false, 2⟩)⟩]

theorem findCutPoint_not_respectsBudget :
    ¬ RespectsBudget (fun _ => 2) modelEntries 0 2 1
        (findCutPoint (fun _ => 2) modelEntries 0 2 1).firstKeptEntryIndex ∧
      ¬ RespectsBudget (fun _ => 2) longResultEntries 0 3 1
        (findCutPoint (fun _ => 2) longResultEntries 0 3 1).firstKeptEntryIndex := by
  have hmodel : findCutPoint (fun _ => 2) modelEntries 0 2 1 = ⟨0, none, false⟩ := by decide
  have hlong : findCutPoint (fun _ => 2) longResultEntries 0 3 1 = ⟨0, none, false⟩ := by decide
  rw [hmodel, hlong]
  constructor
  · rintro ⟨hmem, -⟩
    revert hmem
    decide
  · rintro ⟨-, hlast | htokens⟩
    · exact absurd (hlast 1 (by decide)) (by decide)
    · have hfirst : IsLeast {f | 0 ≤ f ∧ messageAt longResultEntries 3 f} 0 :=
        ⟨⟨le_rfl, by decide, by decide⟩, fun i _ => Nat.zero_le i⟩
      have htotal : tokensFrom (fun _ => 2) longResultEntries 1 3 = 6 := by decide
      have := htokens 0 hfirst
      rw [htotal] at this
      exact absurd this (by decide)

end Trek
