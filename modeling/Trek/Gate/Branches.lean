/-
# The files that branches claim

The branches of a spawn run at once. Before a branch writes or edits a file it claims it, then asks
the tool gate of its parent, and takes a claim back that it made for a call the gate blocks
(`core/reflective-loop/branches.ts` and `_runBranch`). A branch prepares its calls one after the
other, the calls that are let through run while it goes on. The claim stays if the gate throws
instead; and what an extension makes of the path in the gate is not claimed. Without these two no
branch changes a file that another one was let change, and a call that is refused leaves no claim
(`run_exclusive`).
-/
import Std.Data.String.ToNat
import Trek.Gate.FileArguments
import Trek.Lib.Machine
import Trek.Lib.Separated

namespace Trek.Branches

/-! ### Claims -/

/-- `FileClaims`: the branch that owns each path. -/
structure FileClaims where
  owners : String → Option String

namespace FileClaims

/-- What `claim` returns. -/
structure Claim where
  owner : Option String
  created : Bool
  deriving DecidableEq

variable (claims : FileClaims) (path branchId : String)

/-- `claim`. -/
def claim : Claim × FileClaims :=
  match (claims.owners path).filter truthy with
  | some owner => if owner ≠ branchId then (⟨some owner, false⟩, claims) else (⟨none, false⟩, claims)
  | none => (⟨none, true⟩, ⟨Function.update claims.owners path (some branchId)⟩)

/-- `release`. -/
def release : FileClaims :=
  if claims.owners path = some branchId then ⟨Function.update claims.owners path none⟩ else claims

end FileClaims

/-- `nextId`: the id of the branch of some number. -/
def branchId (branch : ℕ) : String := "b" ++ toString branch

/-! ### A spawn -/

/-- What happens to files and claims. A call that is refused is seen with the owner its path had
before the call, and the one it has afterwards. -/
inductive Event
  | allowed (branch : ℕ) (path : String)
  | written (branch : ℕ) (path : String)
  | refused (path : String) (before after : Option String)
  deriving DecidableEq

/-- A call that waits for the gate of the parent, with the owner of its path before it. -/
structure Call where
  toolName : String
  args : Json
  path : Option String
  created : Bool
  before : Option String
  deriving DecidableEq

/-- The claims of a spawn, the call each branch prepares, and the calls that were let through. -/
structure Spawn where
  claims : FileClaims
  checking : ℕ → Option Call
  prepared : List (ℕ × String × Json)
  log : List Event

/-- A spawn at its start. -/
def Spawn.new : Spawn := ⟨⟨fun _ => none⟩, fun _ => none, [], []⟩

/-- What comes of the gate. `aborted`: it lets the call through, but the branch was aborted. -/
inductive Outcome
  | allow | block | threw | aborted
  deriving DecidableEq

/-- What happens in a spawn. `gate` has the arguments as the extensions leave them. -/
inductive Step
  | call (branch : ℕ) (toolName : String) (args : Json)
  | gate (branch : ℕ) (outcome : Outcome) (args : Json)
  | write (k : ℕ)
  | fail (k : ℕ)

section

variable (resolveToCwd : String → Option String)

/-- `beforeToolCall` of a branch up to its await. -/
def Spawn.call (s : Spawn) (branch : ℕ) (toolName : String) (args : Json) : Spawn :=
  match mutatedPath resolveToCwd toolName args with
  | none => { s with checking := Function.update s.checking branch (some ⟨toolName, args, none, false, none⟩) }
  | some path =>
    let before := s.claims.owners path
    let (claimed, claims) := s.claims.claim path (branchId branch)
    if claimed.owner.isSome then { s with claims, log := s.log ++ [.refused path before (claims.owners path)] }
    else
      { s with
        claims
        checking := Function.update s.checking branch (some ⟨toolName, args, some path, claimed.created, before⟩) }

/-- A call with a path is refused. -/
def Spawn.refuse (s : Spawn) (call : Call) (claims : FileClaims) : Spawn :=
  match call.path with
  | none => { s with claims }
  | some path => { s with claims, log := s.log ++ [.refused path call.before (claims.owners path)] }

/-- `beforeToolCall` of a branch after its await. -/
def Spawn.gate (s : Spawn) (branch : ℕ) (call : Call) (args : Json) : Outcome → Spawn
  | .allow =>
    let log := match writtenPath resolveToCwd call.toolName args with
      | some path => s.log ++ [.allowed branch path]
      | none => s.log
    { s with prepared := s.prepared ++ [(branch, call.toolName, args)], log }
  | .block =>
    let claims := match call.path with
      | some path => if call.created then s.claims.release path (branchId branch) else s.claims
      | none => s.claims
    s.refuse call claims
  | .threw => s.refuse call s.claims
  | .aborted => s

/-- One step. -/
def Spawn.step (s : Spawn) : Step → Option Spawn
  | .call branch toolName args =>
    match s.checking branch with
    | some _ => none
    | none => some (s.call resolveToCwd branch toolName args)
  | .gate branch outcome args =>
    match s.checking branch with
    | none => none
    | some call => some ({ s with checking := Function.update s.checking branch none }.gate resolveToCwd branch call args outcome)
  | .write k =>
    match s.prepared[k]? with
    | none => none
    | some (branch, toolName, args) =>
      let log := match writtenPath resolveToCwd toolName args with
        | some path => s.log ++ [.written branch path]
        | none => s.log
      some { s with prepared := s.prepared.eraseIdx k, log }
  | .fail k =>
    match s.prepared[k]? with
    | none => none
    | some _ => some { s with prepared := s.prepared.eraseIdx k }

end

/-! ### What is meant -/

/-- A path that one branch was let change is not changed by another one afterwards. -/
def Exclusive : List Event → Prop :=
  Justified fun before e => ∀ other path, e = .written other path → ∀ branch, .allowed branch path ∈ before → branch = other

/-- A call that was refused left the claims as they were. -/
def LeavesClaims (log : List Event) : Prop := ∀ path before after, Event.refused path before after ∈ log → before = after

/-- The gate neither throws at a call that has just made its claim, nor does it let a call through with
another path. -/
def Kept (resolveToCwd : String → Option String) (s : Spawn) : Step → Prop
  | .gate branch outcome args => ∀ call, s.checking branch = some call →
    (outcome = .threw → call.created = false) ∧
      (outcome = .allow →
        writtenPath resolveToCwd call.toolName args = writtenPath resolveToCwd call.toolName call.args)
  | _ => True

/-! ### Claims and owners -/

theorem branchId_injective : Function.Injective branchId := by
  intro m n h
  have hlist := congrArg String.toList h
  simp only [branchId, String.toList_append] at hlist
  have hrepr : toString m = toString n := String.toList_inj.mp (List.append_cancel_left hlist)
  exact Nat.repr_injective hrepr

theorem truthy_branchId (branch : ℕ) : truthy (branchId branch) = true := by
  refine decide_eq_true fun h => ?_
  have hlist := congrArg String.toList h
  simp [branchId] at hlist

/-- The owners are branches. -/
def Owned (claims : FileClaims) : Prop := ∀ path owner, claims.owners path = some owner → truthy owner = true

section

variable {claims : FileClaims} {path : String} {branch : ℕ}

theorem filter_owner (h : Owned claims) (path : String) : (claims.owners path).filter truthy = claims.owners path := by
  cases ho : claims.owners path with
  | none => rfl
  | some owner => rw [Option.filter_some, if_pos (h path owner ho)]

/-- What a claim does: nothing where the path is owned, else the path is the branch's. -/
theorem claim_cases (h : Owned claims) (path : String) (branch : ℕ) :
    (∃ owner, claims.owners path = some owner ∧ owner ≠ branchId branch ∧
        claims.claim path (branchId branch) = (⟨some owner, false⟩, claims)) ∨
      (claims.owners path = some (branchId branch) ∧ claims.claim path (branchId branch) = (⟨none, false⟩, claims)) ∨
      (claims.owners path = none ∧ claims.claim path (branchId branch) =
        (⟨none, true⟩, ⟨Function.update claims.owners path (some (branchId branch))⟩)) := by
  unfold FileClaims.claim
  rw [filter_owner h]
  cases ho : claims.owners path with
  | none => exact Or.inr (Or.inr ⟨rfl, rfl⟩)
  | some owner =>
    by_cases hown : owner = branchId branch
    · exact Or.inr (Or.inl ⟨by rw [hown], if_neg fun hne => hne hown⟩)
    · exact Or.inl ⟨owner, rfl, hown, if_pos hown⟩

theorem owned_update (h : Owned claims) (path : String) (branch : ℕ) :
    Owned ⟨Function.update claims.owners path (some (branchId branch))⟩ := by
  intro q owner hq
  dsimp only at hq
  by_cases hpq : q = path
  · subst hpq
    rw [Function.update_self] at hq
    rw [← Option.some.inj hq]
    exact truthy_branchId branch
  · rw [Function.update_of_ne hpq] at hq
    exact h q owner hq

theorem release_eq (h : claims.owners path = some (branchId branch)) :
    claims.release path (branchId branch) = ⟨Function.update claims.owners path none⟩ := if_pos h

theorem owned_release (h : Owned claims) (path : String) (branch : ℕ) : Owned (claims.release path (branchId branch)) := by
  unfold FileClaims.release
  split
  · intro q owner hq
    dsimp only at hq
    by_cases hpq : q = path
    · subst hpq
      rw [Function.update_self] at hq
      cases hq
    · rw [Function.update_of_ne hpq] at hq
      exact h q owner hq
  · exact h

end

/-! ### The invariant -/

variable {resolveToCwd : String → Option String} {s s' : Spawn}

/-- A branch may change a path: it was let, or it has a call that will. -/
def Holds (resolveToCwd : String → Option String) (s : Spawn) (branch : ℕ) (path : String) : Prop :=
  .allowed branch path ∈ s.log ∨
    ∃ toolName args, (branch, toolName, args) ∈ s.prepared ∧ writtenPath resolveToCwd toolName args = some path

/-- What a branch knows of the call it prepares: the path is its own, and if the claim is new nobody
may change the path. -/
structure Checking (resolveToCwd : String → Option String) (s : Spawn) (branch : ℕ) (call : Call) : Prop where
  path : call.path = mutatedPath resolveToCwd call.toolName call.args
  owner : ∀ path, call.path = some path → s.claims.owners path = some (branchId branch)
  old : ∀ path, call.path = some path → call.created = false → call.before = some (branchId branch)
  new : ∀ path, call.path = some path → call.created = true →
    call.before = none ∧ ∀ other, ¬ Holds resolveToCwd s other path

/-- Who may change a path owns it, and what was meant holds so far. -/
structure Inv (resolveToCwd : String → Option String) (s : Spawn) : Prop where
  owned : Owned s.claims
  holds : ∀ branch path, Holds resolveToCwd s branch path → s.claims.owners path = some (branchId branch)
  checking : ∀ branch call, s.checking branch = some call → Checking resolveToCwd s branch call
  exclusive : Exclusive s.log
  leaves : LeavesClaims s.log

theorem inv_new : Inv resolveToCwd .new where
  owned := fun _ _ h => by cases h
  holds := fun _ _ h => by
    rcases h with h | ⟨_, _, h, _⟩
    · cases h
    · cases h
  checking := fun _ _ h => by cases h
  exclusive := justified_nil
  leaves := fun _ _ _ h => by cases h

theorem LeavesClaims.concat {log : List Event} (h : LeavesClaims log) {e : Event}
    (he : ∀ path before after, e = .refused path before after → before = after) : LeavesClaims (log ++ [e]) := by
  intro path before after hmem
  rcases List.mem_append.mp hmem with hmem | hmem
  · exact h path before after hmem
  · exact he path before after (List.mem_singleton.mp hmem).symm

namespace Inv

variable {branch : ℕ} {path : String} {call : Call}

/-- Two branches that own one path are the same. -/
theorem eq_of_owner (h : s.claims.owners path = some (branchId branch)) {other : ℕ}
    (h' : s.claims.owners path = some (branchId other)) : branch = other :=
  branchId_injective (Option.some.inj (h.symm.trans h'))

theorem setChecking (h : Inv resolveToCwd s) (branch : ℕ) {call? : Option Call}
    (hcall : ∀ call, call? = some call → Checking resolveToCwd s branch call) :
    Inv resolveToCwd { s with checking := Function.update s.checking branch call? } where
  owned := h.owned
  holds := h.holds
  checking := fun other call hc => by
    dsimp only at hc
    by_cases hother : other = branch
    · subst hother
      rw [Function.update_self] at hc
      have := hcall call hc
      exact ⟨this.path, this.owner, this.old, this.new⟩
    · rw [Function.update_of_ne hother] at hc
      have := h.checking other call hc
      exact ⟨this.path, this.owner, this.old, this.new⟩
  exclusive := h.exclusive
  leaves := h.leaves

/-- A path that nobody owns is claimed. -/
theorem claimed (h : Inv resolveToCwd s) (branch : ℕ) (hfree : s.claims.owners path = none) :
    Inv resolveToCwd { s with claims := ⟨Function.update s.claims.owners path (some (branchId branch))⟩ } := by
  have hkeep : ∀ {q : String} {owner : String}, s.claims.owners q = some owner →
      Function.update s.claims.owners path (some (branchId branch)) q = some owner := by
    intro q owner hq
    rw [Function.update_of_ne, hq]
    rintro rfl
    rw [hfree] at hq
    cases hq
  refine ⟨owned_update h.owned path branch, fun other q hq => hkeep (h.holds other q hq), fun other call hc => ?_,
    h.exclusive, h.leaves⟩
  have hcheck := h.checking other call hc
  exact ⟨hcheck.path, fun q hq => hkeep (hcheck.owner q hq), hcheck.old, hcheck.new⟩

/-- A claim that nobody relies on is taken back. -/
theorem released (h : Inv resolveToCwd s) (hown : s.claims.owners path = some (branchId branch))
    (hnone : ∀ other, ¬ Holds resolveToCwd s other path) (hidle : s.checking branch = none) :
    Inv resolveToCwd { s with claims := s.claims.release path (branchId branch) } := by
  have hkeep : ∀ {q : String} {owner : String}, s.claims.owners q = some owner → q ≠ path →
      (s.claims.release path (branchId branch)).owners q = some owner := by
    intro q owner hq hne
    rw [release_eq hown]
    dsimp only
    rw [Function.update_of_ne hne, hq]
  refine ⟨owned_release h.owned path branch, fun other q hq => hkeep (h.holds other q hq) ?_, fun other call hc => ?_,
    h.exclusive, h.leaves⟩
  · rintro rfl
    exact hnone other hq
  · have hcheck := h.checking other call hc
    refine ⟨hcheck.path, fun q hq => hkeep (hcheck.owner q hq) ?_, hcheck.old, hcheck.new⟩
    rintro rfl
    obtain rfl := eq_of_owner hown (hcheck.owner q hq)
    rw [hidle] at hc
    cases hc

/-- What happens lets no branch change a path. -/
theorem noted (h : Inv resolveToCwd s) {e : Event} (he : ∀ branch path, .allowed branch path ≠ e)
    (hexclusive : Exclusive (s.log ++ [e])) (hleaves : LeavesClaims (s.log ++ [e])) :
    Inv resolveToCwd { s with log := s.log ++ [e] } := by
  have hholds : ∀ {other : ℕ} {q : String}, Holds resolveToCwd { s with log := s.log ++ [e] } other q →
      Holds resolveToCwd s other q := by
    rintro other q (hlog | hprepared)
    · rcases List.mem_append.mp hlog with hlog | hlog
      · exact Or.inl hlog
      · exact absurd (List.mem_singleton.mp hlog) (he other q)
    · exact Or.inr hprepared
  refine ⟨h.owned, fun other q hq => h.holds other q (hholds hq), fun other call hc => ?_, hexclusive, hleaves⟩
  have hcheck := h.checking other call hc
  exact ⟨hcheck.path, hcheck.owner, hcheck.old, fun q hq hnew =>
    ⟨(hcheck.new q hq hnew).1, fun b hb => (hcheck.new q hq hnew).2 b (hholds hb)⟩⟩

/-- A call is refused that leaves the owner of its path as it was. -/
theorem refused (h : Inv resolveToCwd s) (path : String) (owner : Option String) :
    Inv resolveToCwd { s with log := s.log ++ [.refused path owner owner] } := by
  refine h.noted nofun (h.exclusive.concat fun other q heq => ?_) (h.leaves.concat fun q before after heq => ?_)
  · cases heq
  · cases heq
    rfl

/-- `beforeToolCall` up to its await. -/
theorem startCall (h : Inv resolveToCwd s) (branch : ℕ) (toolName : String) (args : Json) :
    Inv resolveToCwd (s.call resolveToCwd branch toolName args) := by
  unfold Spawn.call
  split
  · rename_i hpath
    refine h.setChecking branch fun call hcall => ?_
    obtain rfl := Option.some.inj hcall
    exact ⟨hpath.symm, fun _ hq => (by cases hq), fun _ hq => (by cases hq), fun _ hq => (by cases hq)⟩
  · rename_i path hpath
    rcases claim_cases h.owned path branch with ⟨owner, hown, hne, hclaim⟩ | ⟨hown, hclaim⟩ | ⟨hfree, hclaim⟩
    · -- another branch owns the path
      simp only [hclaim, Option.isSome_some, if_true]
      exact h.refused path _
    · simp only [hclaim, Option.isSome_none, Bool.false_eq_true, if_false]
      refine h.setChecking branch fun call hcall => ?_
      obtain rfl := Option.some.inj hcall
      refine ⟨hpath.symm, fun q hq => ?_, fun q hq _ => hown, fun q hq hnew => by cases hnew⟩
      rw [← Option.some.inj hq]
      exact hown
    · simp only [hclaim, Option.isSome_none, Bool.false_eq_true, if_false]
      refine (h.claimed branch hfree).setChecking branch fun call hcall => ?_
      obtain rfl := Option.some.inj hcall
      refine ⟨hpath.symm, fun q hq => ?_, fun q hq hold => (by cases hold), fun q hq _ => ⟨hfree, fun other hholds => ?_⟩⟩
      · rw [← Option.some.inj hq]
        exact Function.update_self _ _ _
      · have hother := h.holds other q hholds
        rw [← Option.some.inj hq, hfree] at hother
        cases hother

/-- A call is let through whose path its branch has claimed. -/
theorem allow (h : Inv resolveToCwd s) (branch : ℕ) (call : Call) (args : Json)
    (hown : ∀ path, writtenPath resolveToCwd call.toolName args = some path → s.claims.owners path = some (branchId branch))
    (hidle : s.checking branch = none) :
    Inv resolveToCwd (s.gate resolveToCwd branch call args .allow) := by
  have hholds : ∀ {other : ℕ} {q : String}, Holds resolveToCwd (s.gate resolveToCwd branch call args .allow) other q →
      Holds resolveToCwd s other q ∨ other = branch ∧ writtenPath resolveToCwd call.toolName args = some q := by
    rintro other q (hlog | ⟨toolName, args', hmem, hpath⟩)
    · unfold Spawn.gate at hlog
      dsimp only at hlog
      split at hlog
      · rename_i path hpath
        rcases List.mem_append.mp hlog with hlog | hlog
        · exact Or.inl (Or.inl hlog)
        · obtain ⟨rfl, rfl⟩ := Event.allowed.inj (List.mem_singleton.mp hlog)
          exact Or.inr ⟨rfl, hpath⟩
      · exact Or.inl (Or.inl hlog)
    · rcases List.mem_append.mp hmem with hmem | hmem
      · exact Or.inl (Or.inr ⟨toolName, args', hmem, hpath⟩)
      · cases List.mem_singleton.mp hmem
        exact Or.inr ⟨rfl, hpath⟩
  refine ⟨h.owned, fun other q hq => ?_, fun other c hc => ?_, ?_, ?_⟩
  · rcases hholds hq with hq | ⟨rfl, hpath⟩
    · exact h.holds other q hq
    · exact hown q hpath
  · have hcheck := h.checking other c hc
    refine ⟨hcheck.path, hcheck.owner, hcheck.old, fun q hq hnew => ⟨(hcheck.new q hq hnew).1, fun b hb => ?_⟩⟩
    rcases hholds hb with hb | ⟨rfl, hpath⟩
    · exact (hcheck.new q hq hnew).2 b hb
    · -- the path is claimed for the call that is prepared, so the branches are the same
      obtain rfl := eq_of_owner (hown q hpath) (hcheck.owner q hq)
      have hc' : s.checking b = some c := hc
      rw [hidle] at hc'
      cases hc'
  · show Exclusive (match writtenPath resolveToCwd call.toolName args with
      | some path => s.log ++ [.allowed branch path]
      | none => s.log)
    split
    · exact h.exclusive.concat fun _ _ heq => by cases heq
    · exact h.exclusive
  · show LeavesClaims (match writtenPath resolveToCwd call.toolName args with
      | some path => s.log ++ [.allowed branch path]
      | none => s.log)
    split
    · exact h.leaves.concat fun _ _ _ heq => by cases heq
    · exact h.leaves

/-- `beforeToolCall` after its await. -/
theorem gate (h : Inv resolveToCwd s) {outcome : Outcome} {args : Json} (hc : s.checking branch = some call)
    (hkept : Kept resolveToCwd s (.gate branch outcome args)) :
    Inv resolveToCwd
      ({ s with checking := Function.update s.checking branch none }.gate resolveToCwd branch call args outcome) := by
  have hcheck := h.checking branch call hc
  obtain ⟨hthrew, hallow⟩ := hkept call hc
  have hidle : Function.update s.checking branch none branch = none := Function.update_self _ _ _
  have ht : Inv resolveToCwd { s with checking := Function.update s.checking branch none } :=
    h.setChecking branch fun c hc => by cases hc
  generalize hts : { s with checking := Function.update s.checking branch none } = t at ht
  subst hts
  cases outcome with
  | allow =>
    refine ht.allow branch call args (fun path hpath => hcheck.owner path ?_) hidle
    rw [hallow rfl] at hpath
    rw [hcheck.path]
    exact mutatedPath_of_writtenPath hpath
  | block =>
    unfold Spawn.gate Spawn.refuse
    cases hpath : call.path with
    | none => exact ht
    | some path =>
      have hown := hcheck.owner path hpath
      cases hnew : call.created with
      | true =>
        -- the claim is taken back
        obtain ⟨hbefore, hnone⟩ := hcheck.new path hpath hnew
        have hreleased := ht.released hown (fun other hholds => hnone other hholds) hidle
        have hafter : (s.claims.release path (branchId branch)).owners path = none := by
          rw [release_eq hown]
          exact Function.update_self _ _ _
        dsimp only
        rw [if_pos rfl, hafter, hbefore]
        exact hreleased.refused path none
      | false =>
        dsimp only
        rw [if_neg Bool.false_ne_true, hown, hcheck.old path hpath hnew]
        exact ht.refused path _
  | threw =>
    unfold Spawn.gate Spawn.refuse
    cases hpath : call.path with
    | none => exact ht
    | some path =>
      dsimp only
      rw [hcheck.owner path hpath, hcheck.old path hpath (hthrew rfl)]
      exact ht.refused path _
  | aborted => exact ht

/-- A call that was let through ends. -/
theorem ended (h : Inv resolveToCwd s) (k : ℕ) : Inv resolveToCwd { s with prepared := s.prepared.eraseIdx k } := by
  have hholds : ∀ {other : ℕ} {q : String}, Holds resolveToCwd { s with prepared := s.prepared.eraseIdx k } other q →
      Holds resolveToCwd s other q := by
    rintro other q (hlog | ⟨toolName, args, hmem, hpath⟩)
    · exact Or.inl hlog
    · exact Or.inr ⟨toolName, args, List.mem_of_mem_eraseIdx hmem, hpath⟩
  refine ⟨h.owned, fun other q hq => h.holds other q (hholds hq), fun other call hc => ?_, h.exclusive, h.leaves⟩
  have hcheck := h.checking other call hc
  exact ⟨hcheck.path, hcheck.owner, hcheck.old, fun q hq hnew =>
    ⟨(hcheck.new q hq hnew).1, fun b hb => (hcheck.new q hq hnew).2 b (hholds hb)⟩⟩

/-- A branch changes a path that is its own. -/
theorem wrote (h : Inv resolveToCwd s) (hown : s.claims.owners path = some (branchId branch)) :
    Inv resolveToCwd { s with log := s.log ++ [.written branch path] } := by
  refine h.noted nofun (h.exclusive.concat fun other q heq b hb => ?_) (h.leaves.concat fun _ _ _ heq => by cases heq)
  obtain ⟨rfl, rfl⟩ := Event.written.inj heq
  exact eq_of_owner (h.holds b path (Or.inl hb)) hown

theorem step (h : Inv resolveToCwd s) {input : Step} (hkept : Kept resolveToCwd s input)
    (hs : s.step resolveToCwd input = some s') : Inv resolveToCwd s' := by
  cases input with
  | call branch toolName args =>
    simp only [Spawn.step] at hs
    split at hs
    · cases hs
    · obtain rfl := Option.some.inj hs
      exact h.startCall branch toolName args
  | gate branch outcome args =>
    simp only [Spawn.step] at hs
    split at hs
    · cases hs
    · rename_i call hc
      obtain rfl := Option.some.inj hs
      exact h.gate hc hkept
  | write k =>
    simp only [Spawn.step] at hs
    split at hs
    · cases hs
    · rename_i branch toolName args hk
      obtain rfl := Option.some.inj hs
      split
      · rename_i path hpath
        have hown := h.holds branch path (Or.inr ⟨toolName, args, List.mem_of_getElem? hk, hpath⟩)
        exact (h.wrote hown).ended k
      · exact h.ended k
  | fail k =>
    simp only [Spawn.step] at hs
    split at hs
    · cases hs
    · obtain rfl := Option.some.inj hs
      exact h.ended k

end Inv

/-- **In every run in which the gate neither throws at a call that has just made its claim nor lets a
call through with another path, no branch changes a path that another one was let change before, and
a call that is refused leaves the claims as they were.** -/
theorem run_exclusive (resolveToCwd : String → Option String) (steps : List Step) (s : Spawn)
    (hkept : Machine.Throughout (Spawn.step resolveToCwd) (Kept resolveToCwd) .new steps)
    (hrun : Machine.run (Spawn.step resolveToCwd) .new steps = some s) : Exclusive s.log ∧ LeavesClaims s.log := by
  have hinv : Inv resolveToCwd s :=
    Machine.inv_throughout (fun _ _ _ h hkept hs => Inv.step h hkept hs) steps inv_new hkept hrun
  exact ⟨hinv.exclusive, hinv.leaves⟩

/-! ### A gate that throws -/

/-- The arguments of a write of `a`. -/
def writeArgs : Json := .obj [("path", .str "a"), ("content", .str "")]

/-- The gate throws at the write of a branch. -/
def throwingRun : List Step := [.call 1 "write" writeArgs, .gate 1 .threw writeArgs]

/-- The call is refused and its claim stays. -/
theorem throwingRun_not_leavesClaims : ∃ s, Machine.run (Spawn.step some) .new throwingRun = some s ∧
    ¬ (Exclusive s.log ∧ LeavesClaims s.log) := by
  refine ⟨_, rfl, fun h => ?_⟩
  have hrefused := h.2 "a" none (some "b1") (List.mem_singleton_self _)
  cases hrefused

/-- Where the gate lets the call through, the file is written. -/
theorem allowedRun_exclusive : ∃ s, Machine.run (Spawn.step some) .new
    [.call 1 "write" writeArgs, .gate 1 .allow writeArgs, .write 0] = some s ∧ Exclusive s.log ∧ LeavesClaims s.log := by
  refine ⟨_, rfl, run_exclusive some [.call 1 "write" writeArgs, .gate 1 .allow writeArgs, .write 0] _ ?_ rfl⟩
  refine Machine.throughout_cons trivial rfl (Machine.throughout_cons ?_ rfl (Machine.throughout_cons trivial rfl trivial))
  intro call hc
  obtain rfl := Option.some.inj hc
  exact ⟨fun h => (by cases h), fun _ => rfl⟩

end Trek.Branches
