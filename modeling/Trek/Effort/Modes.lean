/-
# Effort limits and the mode

What the regulator should do is said of the calls of a prompt alone: `Exceeds` is true of them when one of the
three counts, taken from the start of the prompt, has reached the limit of the mode. A prompt of the agent
starts with the counters, the memory and the limits that this asks for. A called workflow starts with the
default budget and with what the session remembers of the last prompt's errors; it follows its mode only
if that makes no difference (`follows_mode_iff`).
-/
import Trek.Effort.Regulator

namespace Trek.Effort

/-! ### Calls of a prompt -/

section

variable (stringify : Json → String)

/-- The error of the last call, or the one remembered from before. Calls are listed from the last one on. -/
def lastError (error : Option String) : List ToolOutcome → Option String
  | [] => error
  | call :: _ => if call.isError then some (resultText call.content) else none

/-- The last bash call that failed at a known place, or the one remembered from before. -/
def lastBash (bash : Option (String × String)) : List ToolOutcome → Option (String × String)
  | [] => bash
  | call :: earlier => (Session.bashFailure stringify call).or (lastBash bash earlier)

/-- How many calls in a row, up to the last one, were without progress, given what is remembered from before. -/
def stalled (error : Option String) (bash : Option (String × String)) : List ToolOutcome → ℕ
  | [] => 0
  | call :: earlier =>
    if Session.progress stringify (lastError error earlier) (lastBash stringify bash earlier) call then 0
    else stalled error bash earlier + 1

/-- The key of a call. -/
def keyOf (call : ToolOutcome) : String := effortActionKey stringify call.name call.args

/-- How many calls in a row, up to the last one, were identical. -/
def repeated : List ToolOutcome → ℕ
  | [] => 0
  | call :: earlier => if earlier.head?.map (keyOf stringify) = some (keyOf stringify call) then repeated earlier + 1 else 1

/-- One of the counts of the calls of a prompt has reached its limit, with nothing remembered from before. -/
def Exceeds (limits : EffortLimits) (calls : List ToolOutcome) : Prop :=
  limits.noProgressLimit ≤ stalled stringify none none calls ∨ limits.repeatLimit ≤ repeated stringify calls ∨
    9 * limits.costBudget < 10 * calls.length

/-- The session after the calls of a prompt. -/
def Session.noteAll (s : Session) : List ToolOutcome → Session
  | [] => s
  | call :: earlier => ((s.noteAll earlier).noteLiveEffort stringify call).1

/-- Started on a path, the regulator stops the turn exactly where the limits of the mode say, whatever the calls. -/
def FollowsMode (s : Session) (path : Path) : Prop :=
  ∀ calls, ((s.start path).noteAll stringify calls).shouldStopAfterTurn = true ↔
    ∃ limits, effortLimitsFor s.effortMode = some limits ∧ Exceeds stringify limits calls

end

variable {stringify : Json → String} {s : Session} {limits : EffortLimits} {calls : List ToolOutcome}

/-! ### The counters -/

/-- The regulator has the limits, and the counters of the calls. -/
structure Counts (stringify : Json → String) (error : Option String) (bash : Option (String × String)) (budget : ℕ)
    (limits : EffortLimits) (calls : List ToolOutcome) (s : Session) : Prop where
  applied : s.effortLimits = some limits
  enabled : s.effort.enabled = true
  noProgressLimit : s.effort.noProgressLimit = limits.noProgressLimit
  repeatLimit : s.effort.repeatLimit = limits.repeatLimit
  observed : s.effort.observationSkipped = false
  costBudget : s.effort.costBudget = some budget
  costUsed : s.effort.costUsed = calls.length
  identical : s.effort.identicalActionCount = repeated stringify calls
  lastKey : s.effort.lastActionKey = calls.head?.map (keyOf stringify)
  noProgress : s.effort.consecutiveNoProgress = stalled stringify error bash calls
  lastError : s.lastEffortError = lastError error calls
  lastBash : s.lastBashFailure = lastBash stringify bash calls

variable {error : Option String} {bash : Option (String × String)} {budget : ℕ}

/-- A noted call is counted. -/
theorem Counts.note (h : Counts stringify error bash budget limits calls s) (call : ToolOutcome) :
    Counts stringify error bash budget limits (call :: calls) (s.noteLiveEffort stringify call).1 := by
  unfold Session.noteLiveEffort
  rw [h.applied]
  dsimp only
  refine ⟨rfl, h.enabled, h.noProgressLimit, h.repeatLimit, h.observed, h.costBudget, ?_, ?_, rfl, ?_, rfl, ?_⟩
  · exact congrArg (· + 1) h.costUsed
  · show (if s.effort.lastActionKey = some _ then s.effort.identicalActionCount + 1 else 1) = _
    rw [h.lastKey, h.identical]
    rfl
  · show (if _ then 0 else s.effort.consecutiveNoProgress + 1) = _
    rw [h.noProgress, h.lastError, h.lastBash]
    rfl
  · show (Session.bashFailure stringify call).or s.lastBashFailure = _
    rw [h.lastBash]
    rfl

/-- All calls are counted. -/
theorem Counts.noteAll (h : Counts stringify error bash budget limits [] s) :
    ∀ calls, Counts stringify error bash budget limits calls (s.noteAll stringify calls)
  | [] => h
  | call :: earlier => (Counts.noteAll h earlier).note call

/-- With the counters of the calls the regulator stops at its limits. -/
theorem Counts.stops_iff (h : Counts stringify error bash budget limits calls s) : s.shouldStopAfterTurn = true ↔
    limits.noProgressLimit ≤ stalled stringify error bash calls ∨ limits.repeatLimit ≤ repeated stringify calls ∨
      0 < budget ∧ 9 * budget < 10 * calls.length := by
  unfold Session.shouldStopAfterTurn EffortRegulator.stopReason EffortRegulator.spent
  rw [h.applied, h.enabled, h.noProgressLimit, h.repeatLimit, h.observed, h.costBudget, h.costUsed, h.identical, h.noProgress]
  by_cases hstalled : limits.noProgressLimit ≤ stalled stringify error bash calls
  · simp [hstalled]
  · by_cases hrepeated : limits.repeatLimit ≤ repeated stringify calls
    · simp [hstalled, hrepeated]
    · by_cases hspent : 0 < budget ∧ 9 * budget < 10 * calls.length
      · simp [hstalled, hrepeated, hspent]
      · simp [hstalled, hrepeated, hspent]

/-- An empty error is no error that could be seen again. -/
theorem progress_of_filter (herror : error.filter (· ≠ "") = none) (bash : Option (String × String)) (call : ToolOutcome) :
    Session.progress stringify error bash call = Session.progress stringify none bash call := by
  unfold Session.progress Session.learned
  cases error with
  | none => rfl
  | some text =>
    rw [Option.filter_some] at herror
    have hempty : text = "" := by
      by_contra hne
      simp [hne] at herror
    subst hempty
    by_cases htext : resultText call.content = "" <;> simp [htext]

theorem stalled_of_filter (herror : error.filter (· ≠ "") = none) (bash : Option (String × String)) :
    ∀ calls, stalled stringify error bash calls = stalled stringify none bash calls
  | [] => rfl
  | [call] => by
    rw [stalled, stalled]
    show (if Session.progress stringify error _ call then _ else _) = if Session.progress stringify none _ call then _ else _
    rw [progress_of_filter herror]
    rfl
  | call :: call' :: earlier => by
    rw [stalled, stalled_of_filter herror bash (call' :: earlier), stalled]
    rfl

/-! ### Sessions -/

/-- The limits of the session are those of its mode, and what it remembers of errors comes from tool calls. -/
structure Sound (stringify : Json → String) (s : Session) : Prop where
  limits : s.effortLimits = effortLimitsFor s.effortMode
  regulator : ∀ limits, effortLimitsFor s.effortMode = some limits →
    s.effort.enabled = true ∧ s.effort.noProgressLimit = limits.noProgressLimit ∧ s.effort.repeatLimit = limits.repeatLimit
  positive : 0 < s.effort.noProgressLimit ∧ 0 < s.effort.repeatLimit
  observed : s.effort.observationSkipped = false
  lastError : ∀ text, s.lastEffortError = some text → ∃ content, resultText content = text
  lastBash : ∀ failure, s.lastBashFailure = some failure → ∃ call, Session.bashFailure stringify call = some failure

namespace Sound

theorem limits_positive {mode : EffortMode} (h : effortLimitsFor mode = some limits) : 0 < limits.noProgressLimit ∧ 0 < limits.repeatLimit := by
  cases mode <;> cases h <;> decide

theorem new : Sound stringify {} := ⟨rfl, fun _ h => Option.some.inj h ▸ ⟨rfl, rfl, rfl⟩, by decide, rfl, nofun, nofun⟩

theorem setEffort (h : Sound stringify s) (mode : EffortMode) : Sound stringify (s.setEffort mode) := by
  refine ⟨rfl, fun limits hlimits => ?_, ?_, ?_, h.lastError, h.lastBash⟩
  · have hmode : effortLimitsFor mode = some limits := hlimits
    unfold Session.setEffort
    rw [hmode]
    exact ⟨rfl, rfl, rfl⟩
  · unfold Session.setEffort
    cases hmode : effortLimitsFor mode with
    | none => exact h.positive
    | some limits => exact limits_positive hmode
  · unfold Session.setEffort
    cases effortLimitsFor mode <;> exact h.observed

theorem startCycle (h : Sound stringify s) : Sound stringify s.startCycle :=
  ⟨h.limits, h.regulator, h.positive, rfl, h.lastError, h.lastBash⟩

theorem startAgentPrompt (h : Sound stringify s) : Sound stringify s.startAgentPrompt := by
  refine ⟨h.limits, fun limits hlimits => ?_, ?_, ?_, nofun, nofun⟩
  · have hmode : s.effortLimits = some limits := h.limits.trans hlimits
    unfold Session.startAgentPrompt
    rw [hmode]
    exact ⟨rfl, rfl, rfl⟩
  · unfold Session.startAgentPrompt
    cases hmode : s.effortLimits with
    | none => exact h.positive
    | some limits => exact limits_positive (h.limits.symm.trans hmode)
  · unfold Session.startAgentPrompt
    cases s.effortLimits <;> rfl

theorem start (h : Sound stringify s) (path : Path) : Sound stringify (s.start path) := by
  cases path with
  | plain reflective =>
    unfold Session.start
    cases reflective with
    | false => exact h.startAgentPrompt
    | true => exact h.startCycle.startAgentPrompt
  | workflow => exact h.startCycle

theorem note (h : Sound stringify s) (call : ToolOutcome) : Sound stringify (s.noteLiveEffort stringify call).1 := by
  unfold Session.noteLiveEffort
  split
  · exact h
  · refine ⟨h.limits, h.regulator, h.positive, h.observed, fun text htext => ?_, fun failure hfailure => ?_⟩
    · dsimp only at htext
      split at htext
      · exact ⟨call.content, Option.some.inj htext⟩
      · cases htext
    · rcases Option.or_eq_some_iff.mp hfailure with hnew | ⟨-, hold⟩
      · exact ⟨call, hnew⟩
      · exact h.lastBash failure hold

theorem step (h : Sound stringify s) (op : Op) : Sound stringify (step stringify s op) := by
  cases op with
  | setEffort mode => exact h.setEffort mode
  | start path => exact h.start path
  | note call => exact h.note call
  | endCycle intention madeProgress => exact ⟨h.limits, h.regulator, h.positive, h.observed, h.lastError, h.lastBash⟩
  | observe => exact ⟨h.limits, h.regulator, h.positive, rfl, h.lastError, h.lastBash⟩

theorem foldl (ops : List Op) : ∀ {s : Session}, Sound stringify s → Sound stringify (ops.foldl (Effort.step stringify) s) := by
  induction ops with
  | nil => exact fun h => h
  | cons op ops ih => exact fun h => ih (h.step op)

/-- Every run keeps the limits and the memory sound. -/
theorem run (ops : List Op) : Sound stringify (run stringify ops) := foldl ops new

end Sound

/-- With no limits nothing is noted. -/
theorem noteAll_off (h : s.effortLimits = none) : ∀ calls, s.noteAll stringify calls = s
  | [] => rfl
  | call :: earlier => by
    rw [Session.noteAll, noteAll_off h earlier, Session.noteLiveEffort, h]

/-- A prompt of the agent starts with its counters at zero, the limits applied and nothing remembered. -/
theorem counts_startAgentPrompt (h : s.effortLimits = some limits) :
    Counts stringify none none limits.costBudget limits [] s.startAgentPrompt := by
  unfold Session.startAgentPrompt
  rw [h]
  exact ⟨rfl, rfl, rfl, rfl, rfl, rfl, rfl, rfl, rfl, rfl, rfl, rfl⟩

/-- A called workflow starts with its counters at zero, the default budget and what the session remembers. -/
theorem counts_startCycle (h : Sound stringify s) (hmode : effortLimitsFor s.effortMode = some limits) :
    Counts stringify s.lastEffortError s.lastBashFailure EFFORT_COST_BUDGET limits [] s.startCycle := by
  obtain ⟨henabled, hnoProgress, hrepeat⟩ := h.regulator limits hmode
  exact ⟨h.limits.trans hmode, henabled, hnoProgress, hrepeat, rfl, rfl, rfl, rfl, rfl, rfl, rfl, rfl⟩

/-! ### Paths -/

/-- A prompt of the agent follows the mode. -/
theorem followsMode_plain (h : Sound stringify s) (reflective : Bool) : FollowsMode stringify s (.plain reflective) := by
  intro calls
  have hstart : ∀ t : Session, t.effortLimits = effortLimitsFor s.effortMode →
      ((t.startAgentPrompt.noteAll stringify calls).shouldStopAfterTurn = true ↔
        ∃ limits, effortLimitsFor s.effortMode = some limits ∧ Exceeds stringify limits calls) := by
    intro t ht
    cases hmode : effortLimitsFor s.effortMode with
    | none =>
      have hnone : t.startAgentPrompt.effortLimits = none := ht.trans hmode
      rw [noteAll_off hnone, Session.shouldStopAfterTurn, hnone]
      exact iff_of_false Bool.false_ne_true fun ⟨_, hlimits, _⟩ => nomatch hlimits
    | some limits =>
      have hpositive : 0 < limits.costBudget := by
        revert hmode
        cases s.effortMode <;> rintro ⟨⟩ <;> decide
      rw [((counts_startAgentPrompt (ht.trans hmode)).noteAll calls).stops_iff]
      simp [Exceeds, hpositive]
  unfold Session.start
  cases reflective with
  | false => exact hstart s h.limits
  | true => exact hstart s.startCycle h.limits

/-- A called workflow follows the mode `normal`, if the session remembers no error. -/
theorem followsMode_workflow (h : Sound stringify s) (hmode : s.effortMode = .normal)
    (herror : s.lastEffortError.filter (· ≠ "") = none) (hbash : s.lastBashFailure = none) : FollowsMode stringify s .workflow := by
  intro calls
  have hlimits : effortLimitsFor s.effortMode = some (limitsTimes 1) := by rw [hmode]; rfl
  have hstops := ((counts_startCycle h hlimits).noteAll calls).stops_iff
  rw [stalled_of_filter herror, hbash] at hstops
  rw [Session.start, hstops, hlimits]
  simp [Exceeds, limitsTimes, EFFORT_COST_BUDGET]

/-- In the mode `off` it never stops. -/
theorem followsMode_off (h : Sound stringify s) (hmode : s.effortMode = .off) : FollowsMode stringify s .workflow := by
  intro calls
  have hnone : s.startCycle.effortLimits = none := by
    show s.effortLimits = none
    rw [h.limits, hmode]
    rfl
  rw [Session.start, noteAll_off hnone, Session.shouldStopAfterTurn, hnone, hmode]
  exact iff_of_false Bool.false_ne_true fun ⟨_, hlimits, _⟩ => nomatch hlimits

/-! ### Where a called workflow does not follow the mode -/

/-- Calls of the tools `a` and `b` in turns, all with one outcome. -/
def alternate (content : List ContentBlock) (isError : Bool) : ℕ → List ToolOutcome
  | 0 => []
  | n + 1 => ⟨if n % 2 = 0 then "a" else "b", .null, content, isError⟩ :: alternate content isError n

variable {content : List ContentBlock} {isError : Bool}

theorem length_alternate : ∀ n, (alternate content isError n).length = n
  | 0 => rfl
  | n + 1 => by rw [alternate, List.length_cons, length_alternate n]

theorem keyOf_ne {name name' : String} (hne : name ≠ name') (args : Json) (content : List ContentBlock) (isError : Bool) :
    keyOf stringify ⟨name, args, content, isError⟩ ≠ keyOf stringify ⟨name', args, content, isError⟩ := by
  intro h
  have hlist := congrArg String.toList h
  simp only [keyOf, effortActionKey, String.toList_append, List.append_assoc] at hlist
  exact hne (String.toList_injective (List.append_cancel_right hlist))

/-- Calls in turns are not identical. -/
theorem repeated_alternate_le (base : List ToolOutcome) : ∀ n, repeated stringify (alternate content isError n ++ base) ≤ repeated stringify base + 1
  | 0 => Nat.le_succ _
  | 1 => by
    rw [alternate, alternate, List.singleton_append, repeated]
    by_cases hsame : base.head?.map (keyOf stringify) = some (keyOf stringify ⟨"a", .null, content, isError⟩)
    · exact (if_pos hsame).le
    · exact (if_neg hsame).trans_le (Nat.le_add_left 1 _)
  | n + 2 => by
    have hparity : (if (n + 1) % 2 = 0 then "a" else "b") ≠ if n % 2 = 0 then "a" else "b" := by
      rcases Nat.mod_two_eq_zero_or_one n with h | h
      · rw [if_neg (by omega), if_pos h]
        decide
      · rw [if_pos (by omega), if_neg (by omega)]
        decide
    rw [alternate, alternate, List.cons_append, List.cons_append, repeated, List.head?_cons, Option.map_some,
      if_neg fun heq => keyOf_ne hparity.symm .null content isError (Option.some.inj heq)]
    omega

theorem alternate_plain {call : ToolOutcome} : ∀ {n : ℕ}, call ∈ alternate content isError n →
    call.noChange = false ∧ Session.bashFailure stringify call = none ∧ call.isError = isError ∧ call.content = content
  | n + 1, h => by
    rw [alternate] at h
    rcases List.mem_cons.mp h with rfl | h
    · rcases Nat.mod_two_eq_zero_or_one n with hn | hn <;> simp [ToolOutcome.noChange, Session.bashFailure, hn]
    · exact alternate_plain h

theorem progress_of_success {call : ToolOutcome} (hchange : call.noChange = false) (herror : call.isError = false) :
    Session.progress stringify error bash call = true := by
  rw [Session.progress, hchange, herror]
  rfl

/-- Successful calls are progress. -/
theorem stalled_alternate_success : ∀ n, stalled stringify error bash (alternate content false n) = 0
  | 0 => rfl
  | n + 1 => by
    obtain ⟨hchange, -, herror, -⟩ := @alternate_plain stringify content false _ (n + 1) List.mem_cons_self
    exact if_pos (progress_of_success hchange herror)

theorem progress_of_seen {call : ToolOutcome} (herror : call.isError = true) (hcontent : call.content = content) :
    Session.progress stringify (some (resultText content)) bash call = false := by
  simp [Session.progress, Session.learned, herror, hcontent]

theorem lastError_alternate (base : List ToolOutcome) (hbase : lastError error base = some (resultText content)) :
    ∀ n, lastError error (alternate content true n ++ base) = some (resultText content)
  | 0 => hbase
  | _ + 1 => rfl

/-- Errors that repeat the last one are no progress. -/
theorem stalled_alternate_error (base : List ToolOutcome) (hbase : lastError error base = some (resultText content)) :
    ∀ n, stalled stringify error bash (alternate content true n ++ base) = stalled stringify error bash base + n
  | 0 => rfl
  | n + 1 => by
    rw [alternate, List.cons_append, stalled, lastError_alternate base hbase n, stalled_alternate_error base hbase n]
    exact if_neg fun hprogress => absurd (hprogress.symm.trans (progress_of_seen rfl rfl)) nofun

/-- In the mode `loose` a called workflow is stopped with the budget of the mode `normal`. -/
theorem not_followsMode_loose (h : Sound stringify s) (hmode : s.effortMode = .loose) : ¬ FollowsMode stringify s .workflow := by
  intro hfollows
  have hlimits : effortLimitsFor s.effortMode = some (limitsTimes EFFORT_LOOSE_FACTOR) := by rw [hmode]; rfl
  have hstops := ((counts_startCycle h hlimits).noteAll (alternate [] false 44)).stops_iff
  rw [length_alternate] at hstops
  obtain ⟨limits, hsome, hexceeds⟩ := (hfollows _).mp (hstops.mpr (Or.inr (Or.inr (by decide))))
  obtain rfl := Option.some.inj (hlimits.symm.trans hsome)
  have hrepeated := @repeated_alternate_le stringify [] false [] 44
  rw [List.append_nil] at hrepeated
  unfold Exceeds at hexceeds
  rw [stalled_alternate_success, length_alternate] at hexceeds
  have hzero : repeated stringify [] = 0 := rfl
  rcases hexceeds with hstalled | hidentical | hspent
  · exact absurd hstalled (by decide)
  · have hlimit : (limitsTimes EFFORT_LOOSE_FACTOR).repeatLimit = 40 := rfl
    omega
  · exact absurd hspent (by decide)

/-- In the mode `normal` a called workflow is stopped too early by an error that the session remembers. -/
theorem not_followsMode_seen (h : Sound stringify s) (hmode : s.effortMode = .normal) {call : ToolOutcome} (herror : call.isError = true)
    (hchange : call.noChange = false) (htext : resultText call.content ≠ "")
    (hseen : Session.progress stringify s.lastEffortError s.lastBashFailure call = false) : ¬ FollowsMode stringify s .workflow := by
  intro hfollows
  have hlimits : effortLimitsFor s.effortMode = some (limitsTimes 1) := by rw [hmode]; rfl
  have hlast : ∀ error, lastError error [call] = some (resultText call.content) := fun error => by
    rw [lastError, if_pos herror]
  have hcode : stalled stringify s.lastEffortError s.lastBashFailure (alternate call.content true 7 ++ [call]) = 8 := by
    rw [stalled_alternate_error [call] (hlast _)]
    show (if Session.progress stringify s.lastEffortError s.lastBashFailure call then 0 else 0 + 1) + 7 = 8
    rw [hseen]
    rfl
  have hfresh : stalled stringify none none (alternate call.content true 7 ++ [call]) = 7 := by
    rw [stalled_alternate_error [call] (hlast _)]
    have hprogress : Session.progress stringify none none call = true := by
      rw [Session.progress, Session.learned, herror, hchange]
      cases Session.bashFailure stringify call <;> simp [htext]
    show (if Session.progress stringify none none call then 0 else 0 + 1) + 7 = 7
    rw [hprogress]
    rfl
  have hstops := ((counts_startCycle h hlimits).noteAll (alternate call.content true 7 ++ [call])).stops_iff
  obtain ⟨limits, hsome, hexceeds⟩ := (hfollows _).mp (hstops.mpr (Or.inl (by rw [hcode]; decide)))
  obtain rfl := Option.some.inj (hlimits.symm.trans hsome)
  have hrepeated := @repeated_alternate_le stringify call.content true [call] 7
  have hone : repeated stringify [call] = 1 := rfl
  unfold Exceeds at hexceeds
  rw [hfresh, List.length_append, length_alternate] at hexceeds
  rcases hexceeds with hstalled | hidentical | hspent
  · exact absurd hstalled (by decide)
  · have hlimit : (limitsTimes 1).repeatLimit = 4 := rfl
    omega
  · have hbudget : (limitsTimes 1).costBudget = 48 := rfl
    rw [List.length_singleton] at hspent
    omega

/-- A called workflow finds the session in a state where it follows the mode. -/
def Session.Unburdened (s : Session) : Prop :=
  s.effortMode = .off ∨
    s.effortMode = .normal ∧ (∀ text, s.lastEffortError = some text → text = "") ∧ s.lastBashFailure = none

/-- **Effort limits follow the mode**, in every session that a run leads to, on every path but that of a called workflow; and
on that path if and only if the mode is `off`, or it is `normal` and no error is remembered from an earlier prompt. -/
theorem follows_mode_iff (stringify : Json → String) (ops : List Op) (path : Path) :
    FollowsMode stringify (run stringify ops) path ↔ (path = .workflow → (run stringify ops).Unburdened) := by
  have h : Sound stringify (run stringify ops) := Sound.run ops
  generalize run stringify ops = s at h
  cases path with
  | plain reflective => exact iff_of_true (followsMode_plain h reflective) nofun
  | workflow =>
    unfold Session.Unburdened
    constructor
    · intro hfollows _
      cases hmode : s.effortMode with
      | off => exact Or.inl rfl
      | loose => exact absurd hfollows (not_followsMode_loose h hmode)
      | normal =>
        refine Or.inr ⟨rfl, fun text htext => ?_, ?_⟩
        · by_contra hne
          obtain ⟨content, rfl⟩ := h.lastError text htext
          refine @not_followsMode_seen _ _ h hmode ⟨"a", .null, content, true⟩ rfl rfl hne ?_ hfollows
          rw [htext]
          exact progress_of_seen rfl rfl
        · cases hbash : s.lastBashFailure with
          | none => rfl
          | some failure =>
            obtain ⟨call, hcall⟩ := h.lastBash failure hbash
            have hfailed : call.name = "bash" ∧ call.isError ∧ bashErrorSignature (resultText call.content) ≠ "" := by
              by_contra hnot
              rw [Session.bashFailure, if_neg hnot] at hcall
              cases hcall
            obtain ⟨hname, herror, hsignature⟩ := hfailed
            refine absurd hfollows (not_followsMode_seen h hmode herror ?_ ?_ ?_)
            · simp [ToolOutcome.noChange, hname]
            · intro hempty
              rw [hempty] at hsignature
              exact hsignature (by decide)
            · rw [Session.progress, Session.learned, hcall, hbash, herror]
              simp
    · intro hunburdened
      rcases hunburdened rfl with hoff | ⟨hnormal, herror, hbash⟩
      · exact followsMode_off h hoff
      · refine followsMode_workflow h hnormal ?_ hbash
        cases hlast : s.lastEffortError with
        | none => rfl
        | some text => rw [herror text hlast]; rfl

/-- A workflow called in the mode `loose`. -/
theorem mode_ignored_loose : ¬ ∀ (ops : List Op) (path : Path), FollowsMode (fun _ => "") (run (fun _ => "") ops) path :=
  fun h => not_followsMode_loose (Sound.run [.setEffort .loose]) rfl (h [.setEffort .loose] .workflow)

end Trek.Effort
